import ThreeAddress.Func
import ThreeAddress.Json.Reader
import ThreeAddress.Json.Record
import ThreeAddress.Program.Tags

/-!
Reading a program from JSON.  A temporary is written as its number and a register by its name; an instruction is an
object with one member, its kind and its operands.
-/

namespace ThreeAddress

open Json

namespace Program

/-! ### Scalars -/

/-- A whole number that `ofInt?` accepts. -/
def readInt {α : Type} (ofInt? : Int → Option α) (expected : String) : Value → Read α
  | .number n => do
    match ← n.use with
    | .int i =>
      match ofInt? i with
      | some a => return a
      | none => misfit (.outOfRange i expected)
    | .float x => misfit (.wrongType (.float x) expected)
  | v => v.notA expected

def tempOfInt? (i : Int) : Option Temp := if i < 0 then none else Temp.ofNat? i.natAbs

def readTemp : Value → Read Temp := readInt tempOfInt? "u32"

def readWord : Value → Read Word := readInt Word.ofInt? "i32"

def readString : Value → Read String
  | .string s => s.use
  | v => v.notA "a string"

def readLabel (v : Value) : Read Label := do return ⟨← readString v⟩

/-- An operator or test, by its name. -/
def readOp {α : Type} (all : List α) (tag : α → String) : Value → Read α :=
  let find (name : String) : Read α :=
    match all.find? fun a => tag a = name with
    | some a => .ok a
    | none => misfit (.unknownVariant name (all.map tag))
  readVariant (all.map tag) find fun name v => do
    readUnit v
    find name

/-! ### Operands -/

/-- The operand that a value describes: a number, a register's name, or a register's name in an object. -/
def operand? : Value → Option Operand
  | .number n =>
    match n.scalar? with
    | some (.int i) => (tempOfInt? i).map .temp
    | _ => none
  | .string s => named s
  | .object [(k, .null)] none => named k
  | _ => none
where
  /-- The register that a string names. -/
  named (s : Literal) : Option Operand :=
    match s.text with
    | .ok name => (Reg.ofName? name).map .reg
    | .error _ => none

/-- The brackets that may be open at once. -/
def maxLevels : Nat := 127

/-- The brackets around an operand of an instruction: program, functions, function, instructions, instruction, and
its operands. -/
def levelsAround : Nat := 6

/-- An operand inside the given number of brackets.  It is looked through as a whole before it is judged. -/
def readOperandAt (level : Nat) (v : Value) : Read Operand :=
  match v.useFault (maxLevels - level) with
  | some f => faulty f
  | none =>
    match operand? v with
    | some op => .ok op
    | none => misfit .noOperand

def readOperand : Value → Read Operand := readOperandAt levelsAround

/-- An operand that may be lacking. -/
def readOptional : Value → Read (Option Operand)
  | .null => .ok none
  | v => do return some (← readOperand v)

/-- The operands of a call, which stand inside one more bracket. -/
def readArgs : Value → Read (List Operand) := readList (readOperandAt (levelsAround + 1))

/-! ### Instructions -/

def operandField (name : String) : RecordField Operand := .needed name readOperand

/-- A field for an operand that may be lacking; in an array it has to be there. -/
def optionalField (name : String) : RecordField (Option Operand) := ⟨name, readOptional, some none, none⟩

def labelField (name : String) : RecordField Label := .needed name readLabel

/-- A record with the operands of an instruction of kind `t`. -/
def readBody {αs : List Type} (t : InstrTag) (fs : Fields αs) (v : Value) : Read (Tuple αs) :=
  fs.read ("struct variant TacInstr::" ++ t.tag) v

/-- The instruction of kind `t` with the given operands. -/
def readInstrOf (t : InstrTag) (v : Value) : Read Instr :=
  match t with
  | .move => do
    let (dst, src, ()) ← readBody t (.two (operandField "dst") (operandField "src")) v
    return .move dst src
  | .const => do
    let (dst, value, ()) ← readBody t (.two (operandField "dst") (.needed "value" readWord)) v
    return .const dst value
  | .unary => do
    let op := .needed "op" (readOp UnaryOp.all UnaryOp.tag)
    let (op, dst, src, ()) ← readBody t (.three op (operandField "dst") (operandField "operand")) v
    return .unary op dst src
  | .binary => do
    let op := .needed "op" (readOp BinaryOp.all BinaryOp.tag)
    let (op, dst, lhs, rhs, ()) ←
      readBody t (.four op (operandField "dst") (operandField "lhs") (operandField "rhs")) v
    return .binary op dst lhs rhs
  | .jump => do
    let (target, ()) ← readBody t (.one (labelField "target")) v
    return .jump target
  | .branch => do
    let op := .needed "op" (readOp Test.all Test.tag)
    let (test, cond, target, ()) ← readBody t (.three op (operandField "cond") (labelField "target")) v
    return .branch test cond target
  | .ret => do
    let (value, ()) ← readBody t (.one (optionalField "value")) v
    return .ret value
  | .mark => do
    let (label, ()) ← readBody t (.one (labelField "label")) v
    return .mark label
  | .memo => do
    let (text, ()) ← readBody t (.one (.needed "text" readString)) v
    return .memo text
  | .call => do
    let (dst, callee, args, ()) ←
      readBody t (.three (optionalField "dst") (labelField "target") (.needed "args" readArgs)) v
    return .call dst callee args

def instrNames : List String := InstrTag.all.map InstrTag.tag

/-- An instruction; its kind alone is not enough. -/
def readInstr : Value → Read Instr :=
  readVariant instrNames (fun _ => misfit (.wrongType .unitVariant "struct variant")) fun name v =>
    match InstrTag.all.find? fun t => t.tag = name with
    | some t => readInstrOf t v
    | none => misfit (.unknownVariant name instrNames)

/-! ### Functions and programs -/

/-- A field for parameters, of which there are none if it is missing. -/
def paramsField : RecordField (List Temp) := ⟨"params", readList readTemp, some [], some []⟩

def readFunc (v : Value) : Read Func := do
  let fields := Fields.three (labelField "name") paramsField (.needed "instrs" (readList readInstr))
  let (name, params, instrs, ()) ← fields.read "struct TacFunc" v
  return ⟨name, params, instrs⟩

def readProgram (v : Value) : Read Program := do
  let fields := Fields.one (.needed "funcs" (readList readFunc))
  let (funcs, ()) ← fields.read "struct TacProg" v
  return ⟨funcs⟩

/-- The program that a text describes.  Nothing may follow it. -/
def ofJson (text : String) : Read Program := do
  let (v, rest) := Json.read text.toList
  let p ← readProgram v
  match skipBlank (rest.getD []) with
  | [] => return p
  | _ :: _ => faulty .malformed

end Program

end ThreeAddress
