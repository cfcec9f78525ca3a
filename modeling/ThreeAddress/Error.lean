import ThreeAddress.Label
import ThreeAddress.Reg

/-!
Why a function cannot be lowered, and the wording of each cause.
-/

namespace ThreeAddress

/-- Why a function cannot be lowered. -/
inductive LowerError where
  /-- A jump names a label that no mark defines. -/
  | unknownLabel (label : Label)
  /-- Two marks define the label. -/
  | duplicateLabel (label : Label)
  /-- An edge of a flow graph starts or ends outside the blocks. -/
  | danglingEdge (source target : Nat)
  /-- A call names a register as argument or result. -/
  | physicalOperand (reg : Reg) (instr : String)
  /-- A call has more arguments than registers can carry. -/
  | tooManyArguments (given max : Nat)
  /-- The frame is too large for the offsets into it. -/
  | frameTooLarge (bytes : Int)
  deriving DecidableEq

namespace LowerError

def message : LowerError → String
  | unknownLabel label => "Jump to unknown label '" ++ label.name ++ "'"
  | duplicateLabel label => "Label '" ++ label.name ++ "' defined more than once"
  | danglingEdge source target =>
    "Edge (" ++ toString source ++ ", " ++ toString target ++ ") refers to a block that does not exist"
  | physicalOperand reg instr => "Register " ++ reg.name ++ " used where '" ++ instr ++ "' requires a temporary"
  | tooManyArguments given max =>
    "Too many call arguments: " ++ toString given ++ " (maximum: " ++ toString max ++ ")"
  | frameTooLarge bytes => "Stack frame too large: " ++ toString bytes ++ " bytes"

/-- Whether the function is ill-formed in itself, as against beyond what the target can express. -/
def isMalformed : LowerError → Bool
  | unknownLabel _ | duplicateLabel _ | danglingEdge _ _ => true
  | physicalOperand _ _ | tooManyArguments _ _ | frameTooLarge _ => false

end LowerError

/-- Why a program cannot be lowered: the first function that cannot, and the cause. -/
structure ProgramError where
  function : Label
  cause : LowerError
  deriving DecidableEq

def ProgramError.message (e : ProgramError) : String :=
  (if e.cause.isMalformed then "Malformed TAC" else "Code generation error") ++
    " in function '" ++ e.function.name ++ "': " ++ e.cause.message

end ThreeAddress
