import ThreeAddress.Instr

/-!
The assembly language: instructions and pseudo-instructions of the target, their text, and the text of a program.
-/

namespace ThreeAddress

/-- Operations on two source registers. -/
inductive AluOp where
  | add | sub | mul | div | rem | and | or | slt | sgt
  deriving DecidableEq

/-- Operations on one source register. -/
inductive RegOp where
  | mv | neg | not | seqz | snez
  deriving DecidableEq

/-- A line of assembly. -/
inductive Asm where
  | alu (op : AluOp) (rd rs rt : Reg)
  | addi (rd rs : Reg) (imm : Int)
  | li (rd : Reg) (imm : Word)
  | unary (op : RegOp) (rd rs : Reg)
  | lw (rd : Reg) (offset : Int) (base : Reg)
  | sw (rs : Reg) (offset : Int) (base : Reg)
  | j (target : Label)
  | branch (test : Test) (rs : Reg) (target : Label)
  | call (target : Label)
  | ret
  | label (name : Label)
  | comment (text : String)
  deriving DecidableEq

/-- The code of one function, its entry label apart. -/
structure AsmFunc where
  name : Label
  code : List Asm
  deriving DecidableEq

/-! ### Text -/

def AluOp.text : AluOp → String
  | .add => "add" | .sub => "sub" | .mul => "mul" | .div => "div" | .rem => "rem"
  | .and => "and" | .or => "or" | .slt => "slt" | .sgt => "sgt"

def RegOp.text : RegOp → String
  | .mv => "mv" | .neg => "neg" | .not => "not" | .seqz => "seqz" | .snez => "snez"

def Test.mnemonic : Test → String
  | .isZero => "beqz" | .isNonzero => "bnez"

namespace Asm

/-- Whether the line yields no machine instruction: labels and comments. -/
def isPseudo : Asm → Bool
  | label _ | comment _ => true
  | _ => false

/-- The line without its indentation. -/
def text : Asm → String
  | alu op rd rs rt => op.text ++ " " ++ rd.name ++ ", " ++ rs.name ++ ", " ++ rt.name
  | addi rd rs imm => "addi " ++ rd.name ++ ", " ++ rs.name ++ ", " ++ toString imm
  | li rd imm => "li " ++ rd.name ++ ", " ++ Word.text imm
  | unary op rd rs => op.text ++ " " ++ rd.name ++ ", " ++ rs.name
  | lw rd offset base => "lw " ++ rd.name ++ ", " ++ toString offset ++ "(" ++ base.name ++ ")"
  | sw rs offset base => "sw " ++ rs.name ++ ", " ++ toString offset ++ "(" ++ base.name ++ ")"
  | j target => "j " ++ target.name
  | branch test rs target => test.mnemonic ++ " " ++ rs.name ++ ", " ++ target.name
  | call target => "call " ++ target.name
  | ret => "ret"
  | label name => name.name ++ ":"
  | comment text => "# " ++ text

/-- The line in a listing: labels stand at the margin, all else is indented. -/
def line : Asm → String
  | label name => (label name).text ++ "\n"
  | a => "    " ++ a.text ++ "\n"

def listing (code : List Asm) : String := String.join (code.map line)

/-- The number of machine instructions in a piece of code. -/
def instructionCount (code : List Asm) : Nat := code.countP fun a => !a.isPseudo

end Asm

namespace AsmFunc

def directive (f : AsmFunc) : String := "    .global " ++ f.name.name ++ "\n"

/-- The function in a program: an empty line, its entry label, its code. -/
def text (f : AsmFunc) : String := "\n" ++ f.name.name ++ ":\n" ++ Asm.listing f.code

/-- The text of a program: every function that has code is exported and listed. -/
def program (fs : List AsmFunc) : String :=
  let fs := fs.filter fun f => !f.code.isEmpty
  "    .text\n" ++ String.join (fs.map directive) ++ String.join (fs.map text)

end AsmFunc

end ThreeAddress
