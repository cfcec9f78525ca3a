import ThreeAddress.FlowGraph

/-!
Liveness: a temporary is live at a point if some path from there reads it before any write.  Only temporaries are
tracked, not registers that operands name.

Blocks are summarised by what they write and what they read first.  Rounds over the reachable blocks, last to first,
propagate the sets against the edges until a round changes nothing; then the sets around each step follow from the
set at the end of its block.
-/

namespace ThreeAddress

/-! ### Within a block -/

namespace Block

/-- The temporaries that a block writes, and those it reads before it writes them. -/
structure Summary where
  defs : TempSet
  uses : TempSet

/-- Extends a summary by one more instruction at the end. -/
def Summary.step (s : Summary) (i : Instr) : Summary :=
  ⟨s.defs ∪ .ofList i.defs, s.uses ∪ (.ofList i.uses \ s.defs)⟩

def summary (b : Block) : Summary := b.instrs.foldl Summary.step ⟨∅, ∅⟩

/-- What is live at the start of a block with the given summary, from what is live at its end. -/
def Summary.before (s : Summary) (after : TempSet) : TempSet := (after \ s.defs) ∪ s.uses

end Block

/-- What is live before an instruction, from what is live after it. -/
def Instr.liveBefore (i : Instr) (after : TempSet) : TempSet := (after \ .ofList i.defs) ∪ .ofList i.uses

/-- Sets the live sets around every step, from what is live after the last; gives what is live before the first. -/
def Step.annotate (after : TempSet) : List Step → List Step × TempSet
  | [] => ([], after)
  | s :: rest =>
    let (rest, after) := annotate after rest
    let before := s.instr.liveBefore after
    (⟨s.instr, before, after⟩ :: rest, before)

/-- Sets the live sets around the steps of a block from its own. -/
def Block.annotate (b : Block) : Block := { b with steps := (Step.annotate b.liveOut b.steps).1 }

/-! ### Over the graph -/

namespace FlowGraph

def update (g : FlowGraph) (u : Nat) (f : Block → Block) : FlowGraph := { g with blocks := g.blocks.modify u f }

/-- What is live at the end of block `u`, from what is live at the start of the blocks after it. -/
def joinAfter (g : FlowGraph) (u : Nat) : TempSet :=
  (g.succ u).toList.foldr (fun v s => (match g.blocks[v]? with | some b => b.liveIn | none => ∅) ∪ s) ∅

/-- Recomputes the live sets of block `u`. -/
def relax (g : FlowGraph) (u : Nat) : FlowGraph :=
  let after := g.joinAfter u
  g.update u fun b => { b with liveIn := b.summary.before after, liveOut := after }

/-- One round: every block of the list, last to first. -/
def sweep (g : FlowGraph) (ids : List Nat) : FlowGraph := ids.foldr (fun u g => g.relax u) g

def liveSets (g : FlowGraph) : List (TempSet × TempSet) := g.blocks.map fun b => (b.liveIn, b.liveOut)

/-- Rounds until one changes nothing, at most `fuel` of them; also gives their number. -/
def settle (ids : List Nat) : (fuel : Nat) → FlowGraph → FlowGraph × Nat
  | 0, g => (g, 0)
  | fuel + 1, g =>
    let g' := g.sweep ids
    if g'.liveSets = g.liveSets then (g', 1)
    else
      let (g'', rounds) := settle ids fuel g'
      (g'', rounds + 1)

/-- A bound on the rounds.  From empty sets, a round that changes something adds a temporary that is read somewhere
to one of the two sets of a block. -/
def roundBound (g : FlowGraph) : Nat :=
  2 * g.blocks.length * (g.blocks.flatMap fun b => b.instrs.flatMap Instr.uses).length + 1

/-- What the analysis yields: the graph with its live sets, and the number of rounds. -/
structure Analysis where
  graph : FlowGraph
  rounds : Nat

/-- The liveness analysis.  Blocks that are not reachable stay as they are. -/
def analyze (g : FlowGraph) : Analysis :=
  let ids := g.reachable
  let (g, rounds) := settle ids g.roundBound g
  ⟨ids.foldl (fun g u => g.update u Block.annotate) g, rounds⟩

def withLiveness (g : FlowGraph) : FlowGraph := g.analyze.graph

end FlowGraph

end ThreeAddress
