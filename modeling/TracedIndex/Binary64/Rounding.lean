import TracedIndex.Binary64

/-!
# Rounding to binary64

A quotient is rounded to the nearest number, and one halfway between two numbers to the one with the
even magnitude. Whatever is too large becomes infinity.

* `roundHalfEven`: a quotient rounded to a whole number;
* `nearestMagnitude`: the magnitude nearest to a quotient of units of `2 ^ -1074`;
* `ofRatio`, `ofInt`: the number nearest to a fraction or a whole number;
* `mul`, `div`: the number nearest to a product or quotient of absolute values.
-/

namespace TracedIndex

/-- The quotient `num / den` rounded to a whole number, a half to the even one. -/
def roundHalfEven (num den : Nat) : Nat :=
  let q := num / den
  match compare (2 * (num % den)) den with
  | .lt => q
  | .gt => q + 1
  | .eq => if q % 2 = 0 then q else q + 1

namespace Binary64

/-- The magnitude nearest to `num / den` units. With `s` for the number of binary places that a
whole part of more than 53 places has in excess, the significand is rounded to a whole number of
`2 ^ s` units, and the next exponent begins where it reaches `2 ^ 53`. -/
def nearestMagnitude (num den : Nat) : Nat :=
  let s := Nat.log2 (num / den) - 52
  min (s * exponentBit + roundHalfEven num (den * Nat.pow 2 s)) infiniteMagnitude

/-- The number nearest to a fraction of the given sign. -/
def ofRatio (negative : Bool) (num den : Nat) : Binary64 :=
  ofMagnitude negative (nearestMagnitude (num * unitsPerOne) den)

/-- The number nearest to a whole number. -/
def ofInt (n : Int) : Binary64 := ofRatio (n < 0) n.natAbs 1

/-- The number nearest to the product of two absolute values. -/
def mul (x y : Binary64) : Binary64 :=
  ofMagnitude false (nearestMagnitude (x.units * y.units) (unitsPerOne))

/-- The number nearest to the quotient of two absolute values. -/
def div (x y : Binary64) : Binary64 :=
  ofMagnitude false (nearestMagnitude (x.units * unitsPerOne) y.units)

theorem nearestMagnitude_le (num den : Nat) : nearestMagnitude num den ≤ infiniteMagnitude :=
  Nat.min_le_right _ _

theorem isNaN_ofMagnitude {s : Bool} {m : Nat} (h : m ≤ infiniteMagnitude) :
    (ofMagnitude s m).isNaN = false := by
  have hm : m < signBit := Nat.lt_of_le_of_lt h (by decide)
  rw [isNaN, magnitude_ofMagnitude s hm]
  exact decide_eq_false (by omega)

theorem isNaN_ofRatio (s : Bool) (num den : Nat) : (ofRatio s num den).isNaN = false :=
  isNaN_ofMagnitude (nearestMagnitude_le _ _)

theorem isNaN_ofInt (n : Int) : (ofInt n).isNaN = false := isNaN_ofRatio _ _ _

end Binary64

end TracedIndex
