import TracedIndex.Binary64.Rounding

/-!
# Decimals

A **decimal** is a whole number of digits times a power of ten. A decimal **reads back** as the
binary64 number that it is nearest to.

* `Decimal.nearest`: the magnitude that a decimal reads back as;
* `Decimal.strip`: the same decimal without trailing zeros.
-/

namespace TracedIndex

/-- The number `digits * 10 ^ exponent`. -/
structure Decimal where
  digits : Nat
  exponent : Int
deriving DecidableEq

namespace Decimal

/-- The magnitude nearest to the decimal. -/
def nearest (d : Decimal) : Nat :=
  Binary64.nearestMagnitude (d.digits * Nat.pow 10 d.exponent.toNat * Binary64.unitsPerOne)
    (Nat.pow 10 (-d.exponent).toNat)

/-- Moves up to `fuel` trailing zeros of the digits into the exponent. -/
def stripWithin (fuel : Nat) (d : Decimal) : Decimal :=
  match fuel with
  | 0 => d
  | fuel + 1 =>
    if d.digits % 10 = 0 then stripWithin fuel ⟨d.digits / 10, d.exponent + 1⟩ else d

/-- The decimal without trailing zeros; zero has none of them left to lose. -/
def strip (d : Decimal) : Decimal :=
  if d.digits = 0 then ⟨0, 0⟩ else d.stripWithin (Nat.toDigits 10 d.digits).length

end Decimal

end TracedIndex
