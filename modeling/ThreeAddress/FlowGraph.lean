import ThreeAddress.Block
import ThreeAddress.Error

/-!
Flow graphs: the blocks of a function and the edges along which control passes between them.  Block `0` is the
entry; a block is reachable if a path of edges leads to it from there.
-/

namespace ThreeAddress

/-- Blocks, numbered by position, and edges between them in the order of their making. -/
structure FlowGraph where
  blocks : List Block
  edges : List (Nat × Nat)
  deriving DecidableEq

namespace FlowGraph

/-- The graph of the given blocks and edges, if every edge joins two of the blocks. -/
def ofBlocks (blocks : List Block) (edges : List (Nat × Nat)) : Except LowerError FlowGraph :=
  match edges.find? fun e => ¬ (e.1 < blocks.length ∧ e.2 < blocks.length) with
  | some e => .error (.danglingEdge e.1 e.2)
  | none => .ok ⟨blocks, edges⟩

/-- The blocks that may run directly after block `u`. -/
def succ (g : FlowGraph) (u : Nat) : OrdSet Nat :=
  OrdSet.ofList (g.edges.filterMap fun e => if e.1 = u then some e.2 else none)

/-- The blocks that may run directly before block `v`. -/
def pred (g : FlowGraph) (v : Nat) : OrdSet Nat :=
  OrdSet.ofList (g.edges.filterMap fun e => if e.2 = v then some e.1 else none)

/-! ### Reachable blocks -/

/-- What is pushed on the stack after node `u` was seen: what it leads to and was not seen before, the last on top. -/
def push (next : Nat → List Nat) (u : Nat) (stack seen : List Nat) : List Nat :=
  ((next u).filter fun v => ¬ v ∈ seen).reverse ++ stack

/-- Visits the nodes on the stack and all that `next` leads to from them, at most `fuel` nodes in turn; gives the nodes
seen. -/
def visit (next : Nat → List Nat) : (fuel : Nat) → (stack seen : List Nat) → List Nat
  | 0, _, seen => seen
  | _ + 1, [], seen => seen
  | fuel + 1, u :: stack, seen =>
    if u ∈ seen then visit next fuel stack seen else visit next fuel (push next u stack (u :: seen)) (u :: seen)

/-- The numbers of the reachable blocks, ascending.  A node is turned to once at the start and at most once for each
edge, so the fuel suffices. -/
def reachable (g : FlowGraph) : List Nat :=
  let seen := visit (fun u => (g.succ u).toList) (g.edges.length + 1) [0] []
  (List.range g.blocks.length).filter fun u => u ∈ seen

def reachableBlocks (g : FlowGraph) : List Block := g.reachable.filterMap fun u => g.blocks[u]?

/-- The size of a table that every temporary in the blocks or the list indexes. -/
def tempCount (g : FlowGraph) (params : List Temp) : Nat :=
  Temp.tableSize (params ++ g.blocks.flatMap fun b => b.instrs.flatMap Instr.temps)

def edgesText (edges : List (Nat × Nat)) : String :=
  "[" ++ ", ".intercalate (edges.map fun e => "(" ++ toString e.1 ++ ", " ++ toString e.2 ++ ")") ++ "]"

end FlowGraph

end ThreeAddress
