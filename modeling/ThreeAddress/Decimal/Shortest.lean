/-!
The shortest decimal for a binary floating-point number: the fewest digits that read back as the same number, and of
those the nearest to it.

A finite double is `m * 2 ^ q`.  The reals that round to it form an interval around it, which contains its ends
exactly if `m` is even.  For one digit, two digits and so on, the two neighbours of the number on the grid of decimals
with that many digits are tested against the interval, all in whole numbers; with seventeen digits one of them
always lies inside.
-/

namespace ThreeAddress

/-- The number `digits * 10 ^ exponent`, with its sign. -/
structure Decimal where
  negative : Bool
  digits : Nat
  exponent : Int
  deriving DecidableEq

namespace Decimal

/-- A positive quotient of natural numbers. -/
structure Ratio where
  num : Nat
  den : Nat

namespace Ratio

/-- The number `n * 2 ^ e`. -/
def scaled (n : Nat) (e : Int) : Ratio := if e < 0 then ⟨n, Nat.pow 2 e.natAbs⟩ else ⟨n * Nat.pow 2 e.natAbs, 1⟩

/-- The number divided by `10 ^ e`. -/
def shift (x : Ratio) (e : Int) : Ratio :=
  if e < 0 then ⟨x.num * Nat.pow 10 e.natAbs, x.den⟩ else ⟨x.num, x.den * Nat.pow 10 e.natAbs⟩

/-- Whether the number is at most `n`, or below `n` if `strict`. -/
def atMost (strict : Bool) (x : Ratio) (n : Nat) : Bool :=
  if strict then x.num < n * x.den else x.num ≤ n * x.den

/-- Whether the number is at least `n`, or above `n` if `strict`. -/
def atLeast (strict : Bool) (x : Ratio) (n : Nat) : Bool :=
  if strict then n * x.den < x.num else n * x.den ≤ x.num

/-- The greatest `k` with `10 ^ k` at most the number. -/
def decade (x : Ratio) : Int :=
  if x.den ≤ x.num then ((Nat.toDigits 10 (x.num / x.den)).length : Int) - 1
  else -((Nat.toDigits 10 ((x.den - 1) / x.num)).length : Int)

end Ratio

/-- The decimals of a grid that lie in an interval around a number, nearest first: of the grid of the multiples of
`10 ^ e`, the multiples by the two whole numbers around the number. -/
def onGrid (lower value upper : Ratio) (strict : Bool) (e : Int) : List Nat :=
  let lower := lower.shift e
  let value := value.shift e
  let upper := upper.shift e
  let below := value.num / value.den
  let remainder := value.num % value.den
  let near := if 2 * remainder < value.den ∨ 2 * remainder = value.den ∧ below % 2 = 0 then [below, below + 1]
    else [below + 1, below]
  near.filter fun n => 0 < n && lower.atMost strict n && upper.atLeast strict n

/-- Drops final zeros of the digits, at most `fuel` of them. -/
def trim : (fuel : Nat) → (digits : Nat) → (exponent : Int) → Nat × Int
  | 0, d, e => (d, e)
  | fuel + 1, d, e => if d % 10 = 0 then trim fuel (d / 10) (e + 1) else (d, e)

/-- The shortest decimal for `m * 2 ^ q`.  At the foot of a binade (`foot`) the numbers below lie twice as dense. -/
def shortest (m : Nat) (q : Int) (foot : Bool) : Nat × Int :=
  let lower := Ratio.scaled (if foot then 4 * m - 1 else 4 * m - 2) (q - 2)
  let value := Ratio.scaled (4 * m) (q - 2)
  let upper := Ratio.scaled (4 * m + 2) (q - 2)
  let k := value.decade
  let strict := m % 2 = 1
  let found := (List.range 17).findSome? fun i : Nat =>
    let e := k - i
    (onGrid lower value upper strict e).head?.map fun d => (d, e)
  let (d, e) := found.getD (0, 0)
  trim 20 d e

/-- The shortest decimal for a finite double. -/
def ofFloat (x : Float) : Decimal :=
  let bits := x.toBits.toNat
  let negative := bits / Nat.pow 2 63 = 1
  let power : Nat := bits / Nat.pow 2 52 % Nat.pow 2 11
  let fraction := bits % Nat.pow 2 52
  if power = 0 ∧ fraction = 0 then ⟨negative, 0, 0⟩
  else
    let m := if power = 0 then fraction else fraction + Nat.pow 2 52
    let q : Int := (max power 1 : Nat) - 1075
    let (d, e) := shortest m q (fraction = 0 && 1 < power)
    ⟨negative, d, e⟩

end Decimal

end ThreeAddress
