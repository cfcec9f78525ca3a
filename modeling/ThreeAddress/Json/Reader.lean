import ThreeAddress.Json.Value

/-!
Reading a JSON text.  Every reader gives what it read and the rest of the text; the rest is `none` after a fault.
-/

namespace ThreeAddress.Json

/-- What was read, and the rest of the text unless a fault came up. -/
abbrev Reading (α : Type) := α × Option (List Char)

/-- The characters that may stand between tokens. -/
def isBlank (c : Char) : Bool := c = ' ' || c = '\n' || c = '\t' || c = '\r'

def skipBlank (cs : List Char) : List Char := cs.dropWhile isBlank

/-! ### Strings -/

def hexDigit? (c : Char) : Option Nat :=
  if '0' ≤ c ∧ c ≤ '9' then some (c.toNat - '0'.toNat)
  else if 'a' ≤ c ∧ c ≤ 'f' then some (c.toNat - 'a'.toNat + 10)
  else if 'A' ≤ c ∧ c ≤ 'F' then some (c.toNat - 'A'.toNat + 10)
  else none

def hexUnit? (a b c d : Char) : Option Nat := do
  let a ← hexDigit? a
  let b ← hexDigit? b
  let c ← hexDigit? c
  let d ← hexDigit? d
  return ((a * 16 + b) * 16 + c) * 16 + d

/-- The character that a short escape stands for. -/
def shortEscape? : Char → Option Char
  | '"' => some '"'
  | '\\' => some '\\'
  | '/' => some '/'
  | 'b' => some '\x08'
  | 'f' => some '\x0c'
  | 'n' => some '\n'
  | 'r' => some '\r'
  | 't' => some '\t'
  | _ => none

def Literal.stop (f : Fault) : Reading Literal := (⟨[], some f⟩, none)

def Literal.cons (p : Piece) (r : Reading Literal) : Reading Literal := (⟨p :: r.1.pieces, r.1.fault⟩, r.2)

/-- A string literal, after its opening quote.  An escape by number takes the next four bytes; the text is truncated
if there are fewer. -/
def readLiteral : List Char → Reading Literal
  | [] => Literal.stop .truncated
  | '"' :: rest => (⟨[], none⟩, some rest)
  | '\\' :: 'u' :: a :: b :: c :: d :: rest =>
    match hexUnit? a b c d with
    | some u => Literal.cons (.unit u) (readLiteral rest)
    | none => Literal.stop .malformed
  | '\\' :: 'u' :: rest => Literal.stop (if (String.ofList rest).utf8ByteSize < 4 then .truncated else .malformed)
  | '\\' :: c :: rest =>
    match shortEscape? c with
    | some c => Literal.cons (.char c) (readLiteral rest)
    | none => Literal.stop .malformed
  | ['\\'] => Literal.stop .truncated
  | c :: rest => if c.toNat < 0x20 then Literal.stop .malformed else Literal.cons (.char c) (readLiteral rest)

/-! ### Numbers and words -/

/-- The fault of a number that lacks a digit in front of the given text. -/
def noDigit : List Char → Reading Value
  | [] => (.broken .truncated .malformed, none)
  | _ :: _ => (.broken .malformed .malformed, none)

def digits (cs : List Char) : List Char × List Char := (cs.takeWhile Char.isDigit, cs.dropWhile Char.isDigit)

/-- The digits of an exponent, after its sign. -/
def readPower (negative : Bool) (whole : List Char) (fraction : Option (List Char)) (sign : Bool) (cs : List Char) :
    Reading Value :=
  match digits cs with
  | ([], rest) => noDigit rest
  | (ds, rest) => (.number ⟨negative, whole, fraction, some (sign, ds)⟩, some rest)

/-- The exponent of a number, if there is one. -/
def readExponent (negative : Bool) (whole : List Char) (fraction : Option (List Char)) : List Char → Reading Value
  | [] => (.number ⟨negative, whole, fraction, none⟩, some [])
  | c :: rest =>
    if c = 'e' || c = 'E' then
      match rest with
      | '+' :: rest => readPower negative whole fraction false rest
      | '-' :: rest => readPower negative whole fraction true rest
      | rest => readPower negative whole fraction false rest
    else (.number ⟨negative, whole, fraction, none⟩, some (c :: rest))

/-- The digits after the point, if there is one, and the exponent. -/
def readFraction (negative : Bool) (whole : List Char) : List Char → Reading Value
  | '.' :: rest =>
    match digits rest with
    | ([], rest) => noDigit rest
    | (ds, rest) => readExponent negative whole (some ds) rest
  | cs => readExponent negative whole none cs

/-- A number, after its sign.  A leading zero stands alone. -/
def readNumber (negative : Bool) (cs : List Char) : Reading Value :=
  match digits cs with
  | ([], rest) => noDigit rest
  | ('0' :: _ :: _, _) => (.broken .malformed .malformed, none)
  | (ds, rest) => readFraction negative ds rest

/-- The rest of a word that stands for `v`. -/
def readWord (v : Value) : (word cs : List Char) → Reading Value
  | [], cs => (v, some cs)
  | _ :: _, [] => (.broken .truncated .truncated, none)
  | w :: word, c :: cs => if c = w then readWord v word cs else (.broken .malformed .malformed, none)

/-! ### Values -/

/-- A key and its colon; a fault at the colon stands in place of the value. -/
def readColon (cs : List Char) : Except Fault (List Char) :=
  match skipBlank cs with
  | ':' :: rest => .ok rest
  | [] => .error .truncated
  | _ :: _ => .error .malformed

/-- The fault of a text that goes on with none of the characters that may come. -/
def unexpected : List Char → Fault
  | [] => .truncated
  | _ :: _ => .malformed

mutual

def readValue : (fuel : Nat) → List Char → Reading Value
  | 0, _ => (.missing .truncated, none)
  | fuel + 1, cs =>
    match skipBlank cs with
    | 'n' :: rest => readWord .null ['u', 'l', 'l'] rest
    | 't' :: rest => readWord (.bool true) ['r', 'u', 'e'] rest
    | 'f' :: rest => readWord (.bool false) ['a', 'l', 's', 'e'] rest
    | '"' :: rest =>
      let (s, rest) := readLiteral rest
      (.string s, rest)
    | '-' :: rest => readNumber true rest
    | '[' :: rest =>
      match skipBlank rest with
      | ']' :: rest => (.array [] none, some rest)
      | [] => (.array [] (some .truncated), none)
      | rest => readItems fuel [] rest
    | '\x7b' :: rest =>
      match skipBlank rest with
      | '\x7d' :: rest => (.object [] none, some rest)
      | '"' :: rest => readMembers fuel [] rest
      | rest => (.object [] (some (unexpected rest)), none)
    | c :: rest => if c.isDigit then readNumber false (c :: rest) else (.missing .malformed, none)
    | [] => (.missing .truncated, none)

/-- The items of an array, from an item on; `items` holds those before, last first. -/
def readItems : (fuel : Nat) → (items : List Value) → List Char → Reading Value
  | 0, items, _ => (.array items.reverse (some .truncated), none)
  | fuel + 1, items, cs =>
    match readValue fuel cs with
    | (v, none) => (.array (v :: items).reverse none, none)
    | (v, some rest) =>
      match skipBlank rest with
      | ']' :: rest => (.array (v :: items).reverse none, some rest)
      | ',' :: rest =>
        match skipBlank rest with
        | ']' :: _ => (.array (.missing .malformed :: v :: items).reverse none, none)
        | rest => readItems fuel (v :: items) rest
      | rest => (.array (v :: items).reverse (some (unexpected rest)), none)

/-- The members of an object, from inside the quotes of a key on; `members` holds those before, last first. -/
def readMembers : (fuel : Nat) → (members : List (Literal × Value)) → List Char → Reading Value
  | 0, members, _ => (.object members.reverse (some .truncated), none)
  | fuel + 1, members, cs =>
    match readLiteral cs with
    | (key, none) => (.object ((key, .missing .malformed) :: members).reverse none, none)
    | (key, some rest) =>
      match readColon rest with
      | .error f => (.object ((key, .missing f) :: members).reverse none, none)
      | .ok rest =>
        match readValue fuel rest with
        | (v, none) => (.object ((key, v) :: members).reverse none, none)
        | (v, some rest) =>
          match skipBlank rest with
          | '\x7d' :: rest => (.object ((key, v) :: members).reverse none, some rest)
          | ',' :: rest =>
            match skipBlank rest with
            | '"' :: rest => readMembers fuel ((key, v) :: members) rest
            | rest =>
              let f := unexpected rest
              (.object ((⟨[], some f⟩, .missing f) :: (key, v) :: members).reverse none, none)
          | rest => (.object ((key, v) :: members).reverse (some (unexpected rest)), none)

end

/-- The value that a text starts with.  Every other call takes a character, so the fuel suffices. -/
def read (cs : List Char) : Reading Value := readValue (2 * cs.length + 2) cs

end ThreeAddress.Json
