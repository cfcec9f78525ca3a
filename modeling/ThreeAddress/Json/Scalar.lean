import ThreeAddress.Json.Value

/-!
The number that a literal stands for.  Whole numbers of 64 bits are exact; minus zero, all larger whole numbers and
everything with a point or an exponent are doubles.  A double comes from a significand of at most 64 bits, into which
as many digits go as fit, by one multiplication or division by a power of ten; a result that is too large is a fault.
-/

namespace ThreeAddress.Json

inductive Scalar where
  | int (i : Int) | float (x : Float)

namespace Scalar

def maxSignificand : Nat := Nat.pow 2 64 - 1

/-- The greatest exponent that is taken at its value. -/
def maxExponent : Nat := Nat.pow 2 31 - 1

def digit (c : Char) : Nat := c.toNat - '0'.toNat

def ofDigits (ds : List Char) : Nat := ds.foldl (fun n c => 10 * n + digit c) 0

/-- Appends digits to a significand as long as they fit; also gives the number of those that do not. -/
def gather (n : Nat) : List Char → Nat × Nat
  | [] => (n, 0)
  | c :: ds => if 10 * n + digit c ≤ maxSignificand then gather (10 * n + digit c) ds else (n, ds.length + 1)

def pow10 (e : Nat) : Float := Float.ofScientific 1 false e

/-- The double `x * 10 ^ e`, if it is not too large.  Exponents out of the range of doubles are taken in steps; each
step down takes `x` to zero or into the range, so little fuel suffices. -/
def scale : (fuel : Nat) → (x : Float) → (e : Int) → Option Float
  | 0, x, _ => some x
  | fuel + 1, x, e =>
    if e.natAbs ≤ 308 then
      if e < 0 then some (x / pow10 e.natAbs)
      else
        let y := x * pow10 e.natAbs
        if y.isInf then none else some y
    else if x == 0.0 then some x
    else if e < 0 then scale fuel (x / pow10 308) (e + 308)
    else none

/-- The double with the given sign, significand and exponent, if it is not too large. -/
def float? (negative : Bool) (n : Nat) (e : Int) : Option Float :=
  (scale 8 n.toUInt64.toFloat e).map fun x => if negative then -x else x

end Scalar

namespace Number

/-- The whole number that the literal stands for, if it has neither point nor exponent and is exact. -/
def integer? (n : Number) (significand : Nat) : Option Int :=
  if n.fraction.isSome || n.exponent.isSome then none
  else if n.negative then
    if 0 < significand && significand ≤ Nat.pow 2 63 then some (-significand) else none
  else some significand

/-- The number that the literal stands for, if it is not too large. -/
def scalar? (n : Number) : Option Scalar :=
  let (whole, beyond) := Scalar.gather 0 n.whole
  match if beyond = 0 then n.integer? whole else none with
  | some i => some (.int i)
  | none =>
    let ds := n.fraction.getD []
    let (significand, unused) := Scalar.gather whole ds
    let point : Int := beyond - (ds.length - unused : Nat)
    match n.exponent with
    | none => (Scalar.float? n.negative significand point).map .float
    | some (negative, es) =>
      let e := Scalar.ofDigits es
      if Scalar.maxExponent < e then
        if significand ≠ 0 ∧ !negative then none else (Scalar.float? n.negative 0 0).map .float
      else (Scalar.float? n.negative significand (if negative then point - e else point + e)).map .float

end Number

end ThreeAddress.Json
