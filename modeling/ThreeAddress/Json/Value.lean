/-!
JSON texts as trees.  A text is read as far as it goes: where it stops being JSON, the tree holds the fault in place
of what is missing, and nothing follows it.  So whoever walks the tree in reading order meets first what is wrong
first, be it a fault of the text or a value of the wrong shape.

What a value has to satisfy depends on its use.  A value that is skipped may hold strings with half of a surrogate
pair, and numbers of any size; a value that is used may not.
-/

namespace ThreeAddress.Json

/-- Why a text is not JSON: something is out of place, or the text ends too early. -/
inductive Fault where
  | malformed | truncated
  deriving DecidableEq

/-- A piece of a string literal: a character, or an escape that gives a UTF-16 unit by number. -/
inductive Piece where
  | char (c : Char) | unit (u : Nat)
  deriving DecidableEq

/-- A string literal: its pieces up to the closing quote, or up to a fault. -/
structure Literal where
  pieces : List Piece
  fault : Option Fault
  deriving DecidableEq

/-- A number literal: its sign, the digits before and after the point, and the exponent with its sign. -/
structure Number where
  negative : Bool
  whole : List Char
  fraction : Option (List Char)
  exponent : Option (Bool × List Char)
  deriving DecidableEq

/-- A JSON value, or as much of it as there is. -/
inductive Value where
  | null
  | bool (b : Bool)
  | number (n : Number)
  | string (s : Literal)
  /-- The items, and the fault in place of the closing bracket. -/
  | array (items : List Value) (fault : Option Fault)
  /-- The members, and the fault in place of the closing bracket. -/
  | object (members : List (Literal × Value)) (fault : Option Fault)
  /-- No value, where one is due. -/
  | missing (f : Fault)
  /-- A word or number that breaks off: its fault when used, and when skipped. -/
  | broken (used skipped : Fault)

/-! ### Strings -/

namespace Literal

/-- Whether a UTF-16 unit is the first half of a pair. -/
def isHigh (u : Nat) : Bool := 0xD800 ≤ u && u ≤ 0xDBFF

/-- Whether a UTF-16 unit is the second half of a pair. -/
def isLow (u : Nat) : Bool := 0xDC00 ≤ u && u ≤ 0xDFFF

def pair (high low : Nat) : Char := Char.ofNat ((high - 0xD800) * 0x400 + (low - 0xDC00) + 0x10000)

/-- The characters of the pieces.  A half pair is a fault, except that a text may end inside a pair. -/
def decode (fault : Option Fault) : List Piece → Except Fault (List Char)
  | [] =>
    match fault with
    | none => .ok []
    | some f => .error f
  | .char c :: rest => (decode fault rest).map (c :: ·)
  | .unit u :: .unit v :: rest =>
    if isHigh u then
      if isLow v then (decode fault rest).map (pair u v :: ·) else .error .malformed
    else if isLow u then .error .malformed
    else (decode fault (.unit v :: rest)).map (Char.ofNat u :: ·)
  | .unit u :: rest =>
    if isHigh u then
      match rest with
      | [] => .error (fault.getD .malformed)
      | _ :: _ => .error .malformed
    else if isLow u then .error .malformed
    else (decode fault rest).map (Char.ofNat u :: ·)

def text (s : Literal) : Except Fault String := (decode s.fault s.pieces).map String.ofList

/-- How a character is written: control characters without a short escape by number. -/
def pieceOf (c : Char) : Piece :=
  if c.toNat < 0x20 && !(c ∈ ['\x08', '\t', '\n', '\x0c', '\r']) then .unit c.toNat else .char c

def ofString (s : String) : Literal := ⟨s.toList.map pieceOf, none⟩

end Literal

def Number.ofInt (i : Int) : Number := ⟨i < 0, Nat.toDigits 10 i.natAbs, none, none⟩

end ThreeAddress.Json
