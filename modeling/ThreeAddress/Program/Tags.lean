import ThreeAddress.Instr

/-!
The names by which a program in JSON calls operators and kinds of instructions.
-/

namespace ThreeAddress

namespace UnaryOp

def tag : UnaryOp → String
  | neg => "Neg" | bitNot => "BitNot" | logicNot => "LogicNot"

/-- The operators in the order in which messages list them. -/
def all : List UnaryOp := [neg, bitNot, logicNot]

end UnaryOp

namespace BinaryOp

def tag : BinaryOp → String
  | add => "Add" | sub => "Sub" | mul => "Mul" | div => "Div" | mod => "Mod"
  | eq => "Equ" | ne => "Neq" | lt => "Slt" | gt => "Sgt" | le => "Leq" | ge => "Geq"
  | or => "Lor" | and => "Land"

def all : List BinaryOp := [add, sub, mul, div, mod, eq, ne, lt, gt, le, ge, or, and]

end BinaryOp

namespace Test

def tag : Test → String
  | isZero => "Beq" | isNonzero => "Bne"

def all : List Test := [isZero, isNonzero]

end Test

/-- A kind of instruction. -/
inductive InstrTag where
  | move | const | unary | binary | jump | branch | ret | mark | memo | call
  deriving DecidableEq

namespace InstrTag

def tag : InstrTag → String
  | move => "Assign" | const => "LoadImm" | unary => "Unary" | binary => "Binary" | jump => "Branch"
  | branch => "CondBranch" | ret => "Return" | mark => "Mark" | memo => "Memo" | call => "Call"

/-- The kinds in the order in which messages list them. -/
def all : List InstrTag := [move, const, unary, binary, jump, branch, ret, mark, memo, call]

end InstrTag

end ThreeAddress
