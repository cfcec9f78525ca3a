import ThreeAddress.Func
import ThreeAddress.Json.Writer
import ThreeAddress.Program.Tags

/-!
Writing a program as JSON, with every field in its place and nothing left out.
-/

namespace ThreeAddress

open Json

namespace Json.Value

def ofString (s : String) : Value := .string (.ofString s)

def ofInt (i : Int) : Value := .number (.ofInt i)

def ofList (vs : List Value) : Value := .array vs none

def record (ms : List (String × Value)) : Value := .object (ms.map fun m => (.ofString m.1, m.2)) none

end Json.Value

def Operand.toJson : Operand → Value
  | .temp t => .ofInt t.index
  | .reg r => .ofString r.name

def Operand.optionToJson : Option Operand → Value
  | some op => op.toJson
  | none => .null

namespace Instr

/-- The operands of an instruction, by name. -/
def members : Instr → InstrTag × List (String × Value)
  | move dst src => (.move, [("dst", dst.toJson), ("src", src.toJson)])
  | const dst value => (.const, [("dst", dst.toJson), ("value", .ofInt value.toInt)])
  | unary op dst src => (.unary, [("op", .ofString op.tag), ("dst", dst.toJson), ("operand", src.toJson)])
  | binary op dst lhs rhs =>
    (.binary, [("op", .ofString op.tag), ("dst", dst.toJson), ("lhs", lhs.toJson), ("rhs", rhs.toJson)])
  | jump target => (.jump, [("target", .ofString target.name)])
  | branch test cond target =>
    (.branch, [("op", .ofString test.tag), ("cond", cond.toJson), ("target", .ofString target.name)])
  | ret value => (.ret, [("value", Operand.optionToJson value)])
  | mark label => (.mark, [("label", .ofString label.name)])
  | memo text => (.memo, [("text", .ofString text)])
  | call dst callee args =>
    (.call, [("dst", Operand.optionToJson dst), ("target", .ofString callee.name),
      ("args", .ofList (args.map Operand.toJson))])

/-- The instruction, as its kind with its operands. -/
def toJson (i : Instr) : Value := .record [(i.members.1.tag, .record i.members.2)]

end Instr

def Func.toJson (f : Func) : Value :=
  .record [("name", .ofString f.name.name), ("params", .ofList (f.params.map fun t => .ofInt t.index)),
    ("instrs", .ofList (f.instrs.map Instr.toJson))]

namespace Program

def toJson (p : Program) : Value := .record [("funcs", .ofList (p.funcs.map Func.toJson))]

def jsonText (p : Program) : String := String.ofList (p.toJson.write 0)

end Program

end ThreeAddress
