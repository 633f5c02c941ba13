import TracedIndex.Binary64.Rounding

/-!
# Numeric keys

A **key** is a binary64 number that is not NaN and not negative zero. On such numbers the order of
the bits, the order of the values and equality of the bits all agree.

* `Key.ofNumber` makes a key of a number other than NaN, negative zero becoming zero;
* `Key.ofBinary64?` makes a key of any number other than NaN, `Key.ofInt32` of a whole number.
-/

namespace TracedIndex

/-- A number that can be compared with every other. -/
structure Key where
  number : Binary64
  not_nan : number.isNaN = false
  not_negativeZero : number.isZero → number.negative = false
deriving DecidableEq

namespace Key

/-- The key of a number; both zeros have the same. -/
def ofNumber (x : Binary64) (h : x.isNaN = false) : Key :=
  if hz : x.isZero then ⟨.zero, by decide, by decide⟩
  else ⟨x, h, fun hz' => absurd hz' hz⟩

/-- The key of a number, unless it is NaN. -/
def ofBinary64? (x : Binary64) : Option Key :=
  if h : x.isNaN then none else some (ofNumber x (Bool.eq_false_iff.mpr h))

/-- The key of a whole number. -/
def ofInt32 (n : Int32) : Key := ofNumber (.ofInt n.toInt) (Binary64.isNaN_ofInt _)

instance : Ord Key where
  compare x y := compare x.number.rank y.number.rank

end Key

end TracedIndex
