import ThreeAddress.FlowGraph
import ThreeAddress.Func

/-!
From the instructions of a function to its flow graph.  A mark starts a block, and a jump, branch or return ends one;
the edges follow from how each block ends.
-/

namespace ThreeAddress

namespace FlowGraph

/-- A block to be: its label, its instructions, and how it ends. -/
structure Segment where
  label : Option Label
  instrs : List Instr
  ending : Ending

/-- The segment, unless it has neither label nor instructions. -/
def Segment.close (s : Segment) : List Segment := if s.label.isNone && s.instrs.isEmpty then [] else [s]

/-- Cuts instructions into segments; `label` and `pending` belong to the segment that is open. -/
def cut (label : Option Label) (pending : List Instr) : List Instr → List Segment
  | [] => Segment.close ⟨label, pending, .fallsThrough⟩
  | .mark l :: rest => Segment.close ⟨label, pending, .fallsThrough⟩ ++ cut (some l) [] rest
  | i :: rest =>
    match i.flow with
    | .label | .straight => cut label (pending ++ [i]) rest
    | .jump | .branch | .ret => ⟨label, pending ++ [i], .ofFlow i.flow⟩ :: cut none [] rest

/-- The basic blocks of a list of instructions. -/
def split (instrs : List Instr) : List Block :=
  (cut none [] instrs).mapIdx fun id s => .ofInstrs id s.ending s.label s.instrs

/-- The first label that repeats an earlier one. -/
def repeated? : (seen rest : List Label) → Option Label
  | _, [] => none
  | seen, l :: rest => if l ∈ seen then some l else repeated? (l :: seen) rest

def locate (blocks : List Block) (l : Label) : Except LowerError Nat :=
  match blocks.findIdx? fun b => b.label = some l with
  | some id => .ok id
  | none => .error (.unknownLabel l)

/-- The blocks control may pass to from the end of block `b`: first its target, then the next block. -/
def exits (blocks : List Block) (b : Block) : Except LowerError (List Nat) :=
  let next := if b.id + 1 < blocks.length then [b.id + 1] else []
  let target : Except LowerError (List Nat) :=
    match b.target? with
    | some l => (locate blocks l).map fun id => [id]
    | none => .ok []
  match b.ending with
  | .fallsThrough => .ok next
  | .jumps => target
  | .branches => target.map fun ids => ids ++ next
  | .returns => .ok []

/-- The edges that leave the blocks of the list, in order; the first unknown target is the error. -/
def leaving (blocks : List Block) : List Block → Except LowerError (List (Nat × Nat))
  | [] => .ok []
  | b :: rest => do
    let ids ← exits blocks b
    let more ← leaving blocks rest
    return ids.map (fun id => (b.id, id)) ++ more

/-- The flow graph of a function.  A label defined twice is reported before an unknown one. -/
def ofFunc (f : Func) : Except LowerError FlowGraph :=
  let blocks := split f.instrs
  match repeated? [] (blocks.filterMap Block.label) with
  | some l => .error (.duplicateLabel l)
  | none => do
    let edges ← leaving blocks blocks
    ofBlocks blocks edges

end FlowGraph

end ThreeAddress
