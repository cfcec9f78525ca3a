import ThreeAddress.Instr

/-!
Functions and programs of three-address code, and their listings.
-/

namespace ThreeAddress

structure Func where
  name : Label
  params : List Temp
  instrs : List Instr
  deriving DecidableEq

/-- A program: its functions in order. -/
structure Program where
  funcs : List Func
  deriving DecidableEq

namespace Func

/-- The size of a table that every temporary of the function indexes. -/
def tempCount (f : Func) : Nat := Temp.tableSize (f.params ++ f.instrs.flatMap Instr.temps)

/-- One line of a listing: marks stand at the margin, all else is indented. -/
def line : Instr → String
  | .mark label => (Instr.mark label).text ++ "\n"
  | i => "    " ++ i.text ++ "\n"

def text (f : Func) : String :=
  "FUNCTION<" ++ f.name.name ++ ">(" ++ ", ".intercalate (f.params.map Temp.text) ++ "):\n" ++
    String.join (f.instrs.map line)

end Func

/-- The listing of a program: its functions, divided by empty lines. -/
def Program.text (p : Program) : String := "\n".intercalate (p.funcs.map Func.text)

end ThreeAddress
