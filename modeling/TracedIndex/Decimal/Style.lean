import TracedIndex.Decimal.Shortest

/-!
# Styles of writing numbers

A **style** says how the shortest digits of a number are laid out: which numbers are written with
the point in place and which with an exponent, whether whole numbers get a fraction, and how zero,
the infinities and NaN are written.

* `Style.write` writes a number in a style.
-/

namespace TracedIndex.Decimal

/-- How numbers are written. -/
structure Style where
  tie : Tie
  /-- The powers of ten of the first digit for which the point is written in its place. -/
  positional : Int → Bool
  /-- Whole numbers in positional form end in `.0`. -/
  fraction : Bool
  /-- Zero, without its sign. -/
  zero : String
  infinity : String
  negativeInfinity : String
  nan : String

namespace Style

/-- Digits with the point in its place. -/
def writePositional (s : Style) (d : Decimal) : List Char :=
  let ds := Nat.toDigits 10 d.digits
  let places := (-d.exponent).toNat
  if 0 ≤ d.exponent then
    ds ++ List.replicate d.exponent.toNat '0' ++ if s.fraction then ['.', '0'] else []
  else if places < ds.length then
    ds.take (ds.length - places) ++ '.' :: ds.drop (ds.length - places)
  else
    '0' :: '.' :: (List.replicate (places - ds.length) '0' ++ ds)

/-- Digits with the point behind the first one, and an exponent with its sign. -/
def writeExponent (d : Decimal) (first : Int) : List Char :=
  let mantissa := match Nat.toDigits 10 d.digits with
    | [] => []
    | [c] => [c]
    | c :: cs => c :: '.' :: cs
  mantissa ++ 'e' :: (if first < 0 then '-' else '+') :: Nat.toDigits 10 first.natAbs

/-- Writes a positive finite magnitude. -/
def writeMagnitude (s : Style) (magnitude : Nat) : List Char :=
  let d := shortest s.tie magnitude
  let first := (Nat.toDigits 10 d.digits).length + d.exponent - 1
  if s.positional first then s.writePositional d else writeExponent d first

def write (s : Style) (x : Binary64) : List Char :=
  if x.isNaN then s.nan.toList
  else if x.isInfinite then (if x.negative then s.negativeInfinity else s.infinity).toList
  else
    let text := if x.isZero then s.zero.toList else s.writeMagnitude x.magnitude
    if x.negative then '-' :: text else text

end Style

end TracedIndex.Decimal
