import ThreeAddress.Label
import ThreeAddress.Reg
import ThreeAddress.Temp
import ThreeAddress.Word

/-!
Three-address instructions: what they read and write, how control leaves them, and their text.
-/

namespace ThreeAddress

/-- An operand: a temporary, or a register fixed beforehand. -/
inductive Operand where
  | temp (t : Temp) | reg (r : Reg)
  deriving DecidableEq

inductive UnaryOp where
  | neg | bitNot | logicNot
  deriving DecidableEq

inductive BinaryOp where
  | add | sub | mul | div | mod
  | eq | ne | lt | gt | le | ge
  | or | and
  deriving DecidableEq

/-- The test of a conditional branch. -/
inductive Test where
  | isZero | isNonzero
  deriving DecidableEq

/-- A three-address instruction. -/
inductive Instr where
  /-- `dst = src` -/
  | move (dst src : Operand)
  /-- `dst = value` -/
  | const (dst : Operand) (value : Word)
  /-- `dst = op src` -/
  | unary (op : UnaryOp) (dst src : Operand)
  /-- `dst = lhs op rhs` -/
  | binary (op : BinaryOp) (dst lhs rhs : Operand)
  /-- Go to the label. -/
  | jump (target : Label)
  /-- Go to the label if the operand passes the test. -/
  | branch (test : Test) (cond : Operand) (target : Label)
  /-- Leave the function, with a value or without. -/
  | ret (value : Option Operand)
  /-- The place the label names. -/
  | mark (label : Label)
  /-- A remark that is carried through to the assembly. -/
  | memo (text : String)
  /-- `dst = callee(args)` -/
  | call (dst : Option Operand) (callee : Label) (args : List Operand)
  deriving DecidableEq

/-- How control leaves an instruction. -/
inductive Flow where
  | label | straight | jump | branch | ret
  deriving DecidableEq

def Operand.temp? : Operand → Option Temp
  | .temp t => some t
  | .reg _ => none

def Operand.reg? : Operand → Option Reg
  | .temp _ => none
  | .reg r => some r

namespace Instr

def flow : Instr → Flow
  | mark _ => .label
  | jump _ => .jump
  | branch _ _ _ => .branch
  | ret _ => .ret
  | move _ _ | const _ _ | unary _ _ _ | binary _ _ _ _ | memo _ | call _ _ _ => .straight

def isCall : Instr → Bool
  | call _ _ _ => true
  | _ => false

/-- The operands read, in order. -/
def srcs : Instr → List Operand
  | move _ src => [src]
  | unary _ _ src => [src]
  | binary _ _ lhs rhs => [lhs, rhs]
  | branch _ cond _ => [cond]
  | ret value => value.toList
  | call _ _ args => args
  | const _ _ | jump _ | mark _ | memo _ => []

/-- The operands written, in order. -/
def dsts : Instr → List Operand
  | move dst _ | const dst _ | unary _ dst _ | binary _ dst _ _ => [dst]
  | call dst _ _ => dst.toList
  | jump _ | branch _ _ _ | ret _ | mark _ | memo _ => []

/-- The temporaries read, in order. -/
def uses (i : Instr) : List Temp := i.srcs.filterMap Operand.temp?

/-- The temporaries written, in order. -/
def defs (i : Instr) : List Temp := i.dsts.filterMap Operand.temp?

/-- Every temporary the instruction names. -/
def temps (i : Instr) : List Temp := i.uses ++ i.defs

/-- The greatest temporary the instruction names. -/
def maxTemp? (i : Instr) : Option Temp :=
  match i.temps with
  | [] => none
  | t :: ts => some (ts.foldl Ordered.max t)

def target? : Instr → Option Label
  | jump target | branch _ _ target => some target
  | _ => none

end Instr

/-! ### Text -/

def Operand.text : Operand → String
  | .temp t => t.text
  | .reg r => r.name

def UnaryOp.text : UnaryOp → String
  | .neg => "NEG" | .bitNot => "NOT" | .logicNot => "SEQZ"

def BinaryOp.text : BinaryOp → String
  | .add => "ADD" | .sub => "SUB" | .mul => "MUL" | .div => "DIV" | .mod => "MOD"
  | .eq => "EQU" | .ne => "NEQ" | .lt => "SLT" | .gt => "SGT" | .le => "LEQ" | .ge => "GEQ"
  | .or => "LOR" | .and => "LAND"

def Test.text : Test → String
  | .isZero => "BEQZ" | .isNonzero => "BNEZ"

def Instr.text : Instr → String
  | move dst src => dst.text ++ " = " ++ src.text
  | const dst value => dst.text ++ " = " ++ Word.text value
  | unary op dst src => dst.text ++ " = " ++ op.text ++ " " ++ src.text
  | binary op dst lhs rhs => dst.text ++ " = (" ++ lhs.text ++ " " ++ op.text ++ " " ++ rhs.text ++ ")"
  | jump target => "branch " ++ target.name
  | branch test cond target => "if (" ++ cond.text ++ " " ++ test.text ++ ") branch " ++ target.name
  | ret (some value) => "return " ++ value.text
  | ret none => "return"
  | mark label => label.name ++ ":"
  | memo text => "memo '" ++ text ++ "'"
  | call dst callee args =>
    (match dst with
      | some dst => dst.text ++ " = "
      | none => "") ++
    "call " ++ callee.name ++ "(" ++ ", ".intercalate (args.map Operand.text) ++ ")"

end ThreeAddress
