/-!
# Binary64 numbers

A **binary64 number** is given by its 64 bits: a sign, eleven bits of exponent and 52 bits of
fraction. The sign apart they are its **magnitude**, a whole number below `2 ^ 63`; greater
magnitudes stand for greater numbers, up to that of infinity, and those beyond it for NaN.

Every finite number is a whole multiple of the least positive one, `2 ^ -1074`. So **units** of that
size count its absolute value exactly, and the same formula gives infinity `2 ^ 1024`, which no
finite number reaches.

* `isNaN`, `isInfinite`, `isFinite`, `isZero`: the kinds of number;
* `units`, `signedUnits`: the value in units of `2 ^ -1074`;
* `numericEq`, `numericLt`, `numericLe`: comparison by value, false for NaN;
* `rank`: the position in the order of the bits, the sign taken into account.
-/

namespace TracedIndex

/-- A number in the 64-bit binary interchange format. -/
structure Binary64 where
  bits : UInt64
deriving DecidableEq

namespace Binary64

/-! ## Parts -/

/-- The sign bit: all magnitudes are below it. -/
def signBit : Nat := 0x8000000000000000

/-- The lowest bit of the exponent: the number of magnitudes that share one exponent. -/
def exponentBit : Nat := 0x10000000000000

def negative (x : Binary64) : Bool := signBit ≤ x.bits.toNat

/-- The bits other than the sign, as a number. -/
def magnitude (x : Binary64) : Nat := x.bits.toNat % signBit

def infiniteMagnitude : Nat := 2047 * exponentBit

/-- The number with a given sign and magnitude. -/
def ofMagnitude (negative : Bool) (magnitude : Nat) : Binary64 :=
  ⟨.ofNat (magnitude + if negative then signBit else 0)⟩

def zero : Binary64 := ofMagnitude false 0

def negativeZero : Binary64 := ofMagnitude true 0

def infinity : Binary64 := ofMagnitude false infiniteMagnitude

def negativeInfinity : Binary64 := ofMagnitude true infiniteMagnitude

/-- A quiet NaN. -/
def nan : Binary64 := ofMagnitude false (infiniteMagnitude + exponentBit / 2)

def neg (x : Binary64) : Binary64 := ofMagnitude (!x.negative) x.magnitude

/-! ## Kinds -/

/-- The bits stand for no number. -/
def isNaN (x : Binary64) : Bool := infiniteMagnitude < x.magnitude

def isInfinite (x : Binary64) : Bool := x.magnitude == infiniteMagnitude

/-- Neither NaN nor an infinity. -/
def isFinite (x : Binary64) : Bool := x.magnitude < infiniteMagnitude

def isZero (x : Binary64) : Bool := x.magnitude == 0

theorem magnitude_lt (x : Binary64) : x.magnitude < signBit := Nat.mod_lt _ (by decide)

theorem toNat_bits_ofMagnitude (s : Bool) {m : Nat} (h : m < signBit) :
    (ofMagnitude s m).bits.toNat = m + if s then signBit else 0 := by
  rw [ofMagnitude, UInt64.toNat_ofNat_of_lt']
  have : UInt64.size = signBit + signBit := by decide
  rw [this]
  split <;> omega

theorem magnitude_ofMagnitude (s : Bool) {m : Nat} (h : m < signBit) :
    (ofMagnitude s m).magnitude = m := by
  rw [magnitude, toNat_bits_ofMagnitude s h]
  split
  · rw [Nat.add_mod_right, Nat.mod_eq_of_lt h]
  · rw [Nat.add_zero, Nat.mod_eq_of_lt h]

theorem negative_ofMagnitude (s : Bool) {m : Nat} (h : m < signBit) :
    (ofMagnitude s m).negative = s := by
  rw [negative, toNat_bits_ofMagnitude s h]
  cases s with
  | false => simp; omega
  | true => simp

/-- A number is determined by its sign and its magnitude. -/
theorem ofMagnitude_negative_magnitude (x : Binary64) :
    ofMagnitude x.negative x.magnitude = x := by
  obtain ⟨b⟩ := x
  have hb : b.toNat < signBit + signBit := b.toNat_lt
  rw [Binary64.mk.injEq, ← UInt64.toNat_inj,
    show (ofMagnitude _ _).bits.toNat = _ from toNat_bits_ofMagnitude _ (magnitude_lt _)]
  simp only [negative, magnitude, decide_eq_true_eq]
  split
  · next h => rw [Nat.mod_eq_sub_mod h, Nat.mod_eq_of_lt (by omega)]; omega
  · next h => rw [Nat.mod_eq_of_lt (by omega), Nat.add_zero]

/-! ## Value -/

/-- The number of units in one. -/
def unitsPerOne : Nat := Nat.pow 2 1074

/-- The absolute value of a magnitude in units of `2 ^ -1074`: the fraction alone for the least
exponent, else the fraction behind a leading one, doubled for every further exponent. -/
def unitsOf (magnitude : Nat) : Nat :=
  if magnitude < exponentBit then magnitude
  else (exponentBit + magnitude % exponentBit) * Nat.pow 2 (magnitude / exponentBit - 1)

/-- The absolute value in units of `2 ^ -1074`. -/
def units (x : Binary64) : Nat := unitsOf x.magnitude

/-- The value in units of `2 ^ -1074`. -/
def signedUnits (x : Binary64) : Int := if x.negative then -x.units else x.units

/-! ## Comparison -/

/-- Equality of values: the two zeros are equal, and NaN differs from itself. -/
def numericEq (x y : Binary64) : Bool :=
  !x.isNaN && !y.isNaN && x.signedUnits == y.signedUnits

def numericLt (x y : Binary64) : Bool :=
  !x.isNaN && !y.isNaN && x.signedUnits < y.signedUnits

def numericLe (x y : Binary64) : Bool :=
  !x.isNaN && !y.isNaN && x.signedUnits ≤ y.signedUnits

/-- The position of a number in the order of the bits. Numbers with the sign bit come before the
others, those of greater magnitude first. -/
def rank (x : Binary64) : Int := if x.negative then -1 - x.magnitude else x.magnitude

end Binary64

end TracedIndex
