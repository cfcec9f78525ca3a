import ThreeAddress.Decimal.Shortest

/-!
The text of a decimal.  Numbers from `10 ^ -5` up to `10 ^ 16` are written with a point and at least one digit on
either side of it; all others with one digit before the point, no point if that is the only digit, and an exponent
that always has its sign.
-/

namespace ThreeAddress.Decimal

/-- The least power of ten whose multiples are written without an exponent. -/
def leastPlain : Int := -5

/-- The greatest power of ten whose multiples are written without an exponent. -/
def greatestPlain : Int := 15

/-- The digits with a point after the first `n`. -/
def pointAfter (n : Nat) (ds : String) : String := (ds.take n).toString ++ "." ++ (ds.drop n).toString

def magnitude (d : Decimal) : String :=
  let ds := toString d.digits
  -- the power of ten of the first digit
  let power := d.exponent + ds.length - 1
  if d.digits = 0 then "0.0"
  else if leastPlain ≤ power ∧ power ≤ greatestPlain then
    if 0 ≤ d.exponent then ds ++ "".pushn '0' d.exponent.natAbs ++ ".0"
    else if 0 ≤ power then pointAfter (power.natAbs + 1) ds
    else "0." ++ "".pushn '0' (power.natAbs - 1) ++ ds
  else
    (if ds.length = 1 then ds else pointAfter 1 ds) ++ "e" ++ (if power < 0 then "-" else "+") ++ toString power.natAbs

def text (d : Decimal) : String := (if d.negative then "-" else "") ++ d.magnitude

end ThreeAddress.Decimal
