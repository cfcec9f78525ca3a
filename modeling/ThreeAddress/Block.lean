import ThreeAddress.Instr

/-!
Basic blocks: runs of instructions that control enters at the first and leaves at the last.  Blocks and their steps
carry the temporaries live around them; a block is made with these sets empty.
-/

namespace ThreeAddress

/-- How control leaves a block. -/
inductive Ending where
  | fallsThrough | jumps | branches | returns
  deriving DecidableEq

/-- An instruction with the temporaries live before and after it. -/
structure Step where
  instr : Instr
  liveIn : TempSet
  liveOut : TempSet
  deriving DecidableEq

/-- A basic block, with the temporaries live at its start and at its end. -/
structure Block where
  id : Nat
  ending : Ending
  label : Option Label
  steps : List Step
  liveIn : TempSet
  liveOut : TempSet
  deriving DecidableEq

namespace Ending

/-- The ending of a block whose last instruction has the given flow. -/
def ofFlow : Flow → Ending
  | .jump => jumps
  | .branch => branches
  | .ret => returns
  | .label | .straight => fallsThrough

def text : Ending → String
  | fallsThrough => "Continuous" | jumps => "EndByJump" | branches => "EndByCondJump" | returns => "EndByReturn"

end Ending

namespace Block

/-- The block of the given instructions, with nothing live. -/
def ofInstrs (id : Nat) (ending : Ending) (label : Option Label) (instrs : List Instr) : Block :=
  ⟨id, ending, label, instrs.map fun i => ⟨i, ∅, ∅⟩, ∅, ∅⟩

def instrs (b : Block) : List Instr := b.steps.map Step.instr

/-- The step at which control leaves the block, unless it falls through. -/
def last? (b : Block) : Option Step :=
  match b.ending with
  | .fallsThrough => none
  | .jumps | .branches | .returns => b.steps.getLast?

/-- The label control goes to at the end of the block. -/
def target? (b : Block) : Option Label := b.last?.bind fun s => s.instr.target?

end Block

end ThreeAddress
