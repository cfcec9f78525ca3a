import ThreeAddress.Asm
import ThreeAddress.Note

/-!
What register allocation yields: a sequence of actions.  Most of them build the body of a function; notes go to the
log and leave the body alone, but they keep their place among the other actions.
-/

namespace ThreeAddress

/-- One thing that register allocation does. -/
inductive Action where
  /-- Store a register to the stack home of a temporary. -/
  | store (r : Reg) (t : Temp)
  /-- Load a register from the stack home of a temporary. -/
  | load (r : Reg) (t : Temp)
  /-- Emit an instruction. -/
  | native (a : Asm)
  /-- Emit the label of a block. -/
  | label (l : Label)
  /-- Emit a comment. -/
  | comment (text : String)
  /-- Report something. -/
  | note (n : Note)
  deriving DecidableEq

namespace Action

/-- The action as a line of a recording; notes are not recorded. -/
def record? : Action → Option String
  | store r t => some ("store " ++ r.name ++ " " ++ t.text)
  | load r t => some ("load " ++ r.name ++ " " ++ t.text)
  | native a => some ("native " ++ a.text)
  | label l => some ("label " ++ l.name)
  | comment text => some ("comment " ++ text)
  | note _ => none

def note? : Action → Option Note
  | note n => some n
  | _ => none

/-- What the actions do to the body of the function, as a recording. -/
def recording (as : List Action) : List String := as.filterMap record?

def notes (as : List Action) : List Note := as.filterMap note?

end Action

end ThreeAddress
