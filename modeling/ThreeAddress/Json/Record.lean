import ThreeAddress.Json.Mismatch

/-!
Records, lists and named alternatives in JSON.  A record is an object with the fields by name, in any order and among
others, or an array with the fields in order.  An alternative is its name, or an object with one member: the name and
what belongs to it.

All of them read their parts in the order of the text and fail at the first that is wrong.
-/

namespace ThreeAddress.Json

/-! ### Lists -/

def readItemsOf {α : Type} (item : Value → Read α) (fault : Option Fault) : List Value → Read (List α)
  | [] =>
    match fault with
    | none => .ok []
    | some f => faulty f
  | v :: vs => do
    let a ← item v
    let more ← readItemsOf item fault vs
    return a :: more

/-- An array of values that `item` reads. -/
def readList {α : Type} (item : Value → Read α) : Value → Read (List α)
  | .array items fault => readItemsOf item fault items
  | v => v.notA "a sequence"

/-! ### Records -/

/-- A field of a record: its name, how its value is read, and what it is if it is missing, from an object and from
an array. -/
structure RecordField (α : Type) where
  name : String
  read : Value → Read α
  absent : Option α
  absentInRow : Option α

/-- A field that every record has. -/
def RecordField.needed {α : Type} (name : String) (read : Value → Read α) : RecordField α := ⟨name, read, none, none⟩

/-- The fields of a record, in order. -/
inductive Fields : List Type → Type 1 where
  | nil : Fields []
  | cons {α : Type} {αs : List Type} (f : RecordField α) (rest : Fields αs) : Fields (α :: αs)

/-- The values of all fields. -/
@[reducible] def Tuple : List Type → Type
  | [] => Unit
  | α :: αs => α × Tuple αs

/-- The values of the fields met so far. -/
@[reducible] def Draft : List Type → Type
  | [] => Unit
  | α :: αs => Option α × Draft αs

namespace Fields

section

variable {α β γ δ : Type}

def one (f : RecordField α) : Fields [α] := cons f nil

def two (f : RecordField α) (g : RecordField β) : Fields [α, β] := cons f (one g)

def three (f : RecordField α) (g : RecordField β) (h : RecordField γ) : Fields [α, β, γ] := cons f (two g h)

def four (f : RecordField α) (g : RecordField β) (h : RecordField γ) (k : RecordField δ) : Fields [α, β, γ, δ] :=
  cons f (three g h k)

end

def blank : {αs : List Type} → Fields αs → Draft αs
  | _, nil => ()
  | _, cons _ rest => (none, rest.blank)

/-- Adds the member with the given key to a draft; a key that names no field is passed over. -/
def put : {αs : List Type} → Fields αs → Draft αs → (key : String) → Value → Read (Draft αs)
  | _, nil, (), _, v => v.skip
  | _, cons f rest, (a, draft), key, v =>
    if key = f.name then
      match a with
      | some _ => misfit (.duplicateField f.name)
      | none => do return (some (← f.read v), draft)
    else do return (a, ← rest.put draft key v)

/-- The record of a draft; the first field that is missing is the error. -/
def complete : {αs : List Type} → Fields αs → Draft αs → Read (Tuple αs)
  | _, nil, () => .ok ()
  | _, cons f rest, (a, draft) =>
    match a <|> f.absent with
    | some a => do return (a, ← rest.complete draft)
    | none => misfit (.missingField f.name)

/-- Adds the members of an object to a draft, then completes it. -/
def readMembersOf {αs : List Type} (fs : Fields αs) (fault : Option Fault) (draft : Draft αs) :
    List (Literal × Value) → Read (Tuple αs)
  | [] =>
    match fault with
    | none => fs.complete draft
    | some f => faulty f
  | (k, v) :: rest => do
    let key ← k.use
    let draft ← fs.put draft key v
    readMembersOf fs fault draft rest

/-- The record of an array whose items from the `i`-th on are given. -/
def readRow (expected : String) (fault : Option Fault) :
    {αs : List Type} → Fields αs → (i : Nat) → List Value → Read (Tuple αs)
  | _, nil, _, [] =>
    match fault with
    | none => .ok ()
    | some f => faulty f
  | _, nil, _, _ :: _ => faulty .malformed
  | _, cons f rest, i, [] =>
    match fault with
    | some e => faulty e
    | none =>
      match f.absentInRow with
      | some a => do return (a, ← readRow expected fault rest (i + 1) [])
      | none => misfit (.shortRow i expected)
  | _, cons f rest, i, v :: vs => do
    let a ← f.read v
    return (a, ← readRow expected fault rest (i + 1) vs)

def size : {αs : List Type} → Fields αs → Nat
  | _, nil => 0
  | _, cons _ rest => rest.size + 1

def read {αs : List Type} (fs : Fields αs) (name : String) : Value → Read (Tuple αs)
  | .array items fault =>
    fs.readRow (name ++ " with " ++ toString fs.size ++ if fs.size = 1 then " element" else " elements") fault 0 items
  | .object members fault => fs.readMembersOf fault fs.blank members
  | v => v.notA name

end Fields

/-! ### Alternatives -/

/-- The end of an object that should have one member. -/
def endOfOne (rest : List (Literal × Value)) (fault : Option Fault) : Read Unit :=
  match rest, fault with
  | _ :: _, _ => faulty .malformed
  | [], none => .ok ()
  | [], some f => faulty f

/-- One of several alternatives: `alone` reads a bare name, `withPart` a name with its part. -/
def readVariant {α : Type} (names : List String) (alone : String → Read α) (withPart : String → Value → Read α) :
    Value → Read α
  | .string s => do
    let name ← s.use
    if name ∈ names then alone name else misfit (.unknownVariant name names)
  | .object ((k, v) :: rest) fault => do
    let name ← k.use
    if name ∈ names then
      let a ← withPart name v
      endOfOne rest fault
      return a
    else misfit (.unknownVariant name names)
  | .object [] fault => faulty (fault.getD .malformed)
  | .missing f => faulty f
  | _ => faulty .malformed

/-- The part of an alternative that has none. -/
def readUnit : Value → Read Unit
  | .null => .ok ()
  | v => v.notA "unit"

end ThreeAddress.Json
