import ThreeAddress.Decimal.Notation
import ThreeAddress.Json.Scalar
import ThreeAddress.Text.Quoted

/-!
Why a JSON text does not describe what it should: it is no JSON, or a value in it has the wrong shape.
-/

namespace ThreeAddress.Json

/-- The shape of a value that was found. -/
inductive Found where
  | null | bool (b : Bool) | int (i : Int) | float (x : Float) | string (s : String) | sequence | map | unitVariant

inductive Mismatch where
  /-- A value of another type than expected. -/
  | wrongType (found : Found) (expected : String)
  /-- A whole number out of range. -/
  | outOfRange (i : Int) (expected : String)
  /-- A record without a field that it needs. -/
  | missingField (name : String)
  /-- A record with a field twice. -/
  | duplicateField (name : String)
  /-- A record as an array that is too short. -/
  | shortRow (length : Nat) (expected : String)
  /-- A name that is none of those that may stand there. -/
  | unknownVariant (name : String) (known : List String)
  /-- A value that is no operand. -/
  | noOperand

/-- Why a JSON text does not describe what it should. -/
inductive ReadError where
  | fault (f : Fault)
  | mismatch (m : Mismatch)

def ticked (s : String) : String := "`" ++ s ++ "`"

def Found.text : Found → String
  | null => "null"
  | bool b => "boolean " ++ ticked (if b then "true" else "false")
  | int i => "integer " ++ ticked (toString i)
  | float x => "floating point " ++ ticked (Decimal.ofFloat x).text
  | string s => "string " ++ Text.quoted s
  | sequence => "sequence"
  | map => "map"
  | unitVariant => "unit variant"

/-- The names that may stand somewhere, as an alternative. -/
def choice : List String → String
  | [a] => ticked a
  | [a, b] => ticked a ++ " or " ++ ticked b
  | names => "one of " ++ ", ".intercalate (names.map ticked)

def Mismatch.message : Mismatch → String
  | wrongType found expected => "invalid type: " ++ found.text ++ ", expected " ++ expected
  | outOfRange i expected => "invalid value: integer " ++ ticked (toString i) ++ ", expected " ++ expected
  | missingField name => "missing field " ++ ticked name
  | duplicateField name => "duplicate field " ++ ticked name
  | shortRow length expected => "invalid length " ++ toString length ++ ", expected " ++ expected
  | unknownVariant name known => "unknown variant " ++ ticked name ++ ", expected " ++ choice known
  | noOperand => "data did not match any variant of untagged enum Operand"

abbrev Read (α : Type) := Except ReadError α

def faulty {α : Type} (f : Fault) : Read α := .error (.fault f)

def misfit {α : Type} (m : Mismatch) : Read α := .error (.mismatch m)

/-- The text of a string that is used. -/
def Literal.use (s : Literal) : Read String :=
  match s.text with
  | .ok t => .ok t
  | .error f => faulty f

/-- The number of a literal that is used. -/
def Number.use (n : Number) : Read Scalar :=
  match n.scalar? with
  | some x => .ok x
  | none => faulty .malformed

/-- Fails because `v` is not what is expected.  A container is not looked into; a scalar is read first, so that its
own fault comes before. -/
def Value.notA {α : Type} (v : Value) (expected : String) : Read α :=
  match v with
  | .null => misfit (.wrongType .null expected)
  | .bool b => misfit (.wrongType (.bool b) expected)
  | .number n => do
    match ← n.use with
    | .int i => misfit (.wrongType (.int i) expected)
    | .float x => misfit (.wrongType (.float x) expected)
  | .string s => do misfit (.wrongType (.string (← s.use)) expected)
  | .array _ _ => misfit (.wrongType .sequence expected)
  | .object _ _ => misfit (.wrongType .map expected)
  | .missing f => faulty f
  | .broken f _ => faulty f

/-! ### Values that are looked through as a whole -/

mutual

/-- The fault of a value that is skipped. -/
def Value.skipFault : Value → Option Fault
  | .null | .bool _ | .number _ => none
  | .string s => s.fault
  | .array items fault => skipItems items <|> fault
  | .object members fault => skipMembers members <|> fault
  | .missing f => some f
  | .broken _ f => some f

def skipItems : List Value → Option Fault
  | [] => none
  | v :: vs => v.skipFault <|> skipItems vs

def skipMembers : List (Literal × Value) → Option Fault
  | [] => none
  | (k, v) :: ms => k.fault <|> v.skipFault <|> skipMembers ms

end

def Literal.useFault (s : Literal) : Option Fault :=
  match s.text with
  | .ok _ => none
  | .error f => some f

mutual

/-- The fault of a value that is used, when so many more levels of brackets may open. -/
def Value.useFault (levels : Nat) : Value → Option Fault
  | .null | .bool _ => none
  | .number n => if n.scalar?.isNone then some .malformed else none
  | .string s => s.useFault
  | .array items fault => if levels = 0 then some .malformed else useItems (levels - 1) items <|> fault
  | .object members fault => if levels = 0 then some .malformed else useMembers (levels - 1) members <|> fault
  | .missing f => some f
  | .broken f _ => some f

def useItems (levels : Nat) : List Value → Option Fault
  | [] => none
  | v :: vs => v.useFault levels <|> useItems levels vs

def useMembers (levels : Nat) : List (Literal × Value) → Option Fault
  | [] => none
  | (k, v) :: ms => k.useFault <|> v.useFault levels <|> useMembers levels ms

end

/-- Passes over a value. -/
def Value.skip (v : Value) : Read Unit :=
  match v.skipFault with
  | some f => faulty f
  | none => .ok ()

end ThreeAddress.Json
