import Mathlib.Algebra.Group.Nat.Defs
import Mathlib.Data.Int.Order.Basic
import Mathlib.Order.Lattice
import Mathlib.Order.Monotone.Basic
import TracedIndex.Key

/-!
# The order of binary64 numbers

Greater magnitudes stand for greater values, so numbers in the order of their bits are in the order of
their values, but for NaN and the two zeros, and keys are neither NaN nor negative zero.

* **`strictMono_unitsOf`**: the value grows with the magnitude;
* `positiveZero`: a number with the sign of zero dropped, which is the number of its key
  (`Key.ofBinary64?_eq_some_iff`);
* `numericEq_eq`, `numericLt_eq`, `numericLe_eq`: comparison by value;
* **`Key.compare_eq`**: keys compare as their values do.
-/

namespace TracedIndex

namespace Binary64

/-! ## Values by magnitude -/

/-- The significand of a magnitude with the exponent `e` above the least one, behind its leading one. -/
theorem unitsOf_normal (e : Nat) {f : Nat} (hf : f < exponentBit) :
    unitsOf ((e + 1) * exponentBit + f) = (exponentBit + f) * 2 ^ e := by
  have hpos : 0 < exponentBit := by decide
  have hge : ¬ (e + 1) * exponentBit + f < exponentBit := by
    have : exponentBit ≤ (e + 1) * exponentBit := Nat.le_mul_of_pos_left _ (Nat.succ_pos e)
    omega
  have hdiv : ((e + 1) * exponentBit + f) / exponentBit = e + 1 := by
    rw [Nat.mul_comm, Nat.mul_add_div hpos, Nat.div_eq_of_lt hf, Nat.add_zero]
  have hmod : ((e + 1) * exponentBit + f) % exponentBit = f := by
    rw [Nat.mul_comm, Nat.mul_add_mod, Nat.mod_eq_of_lt hf]
  rw [unitsOf, if_neg hge, hdiv, hmod, Nat.add_sub_cancel]
  rfl

/-- Every magnitude from that of the first exponent on has an exponent and a fraction. -/
theorem exists_normal {m : Nat} (h : exponentBit ≤ m) :
    ∃ e f, m = (e + 1) * exponentBit + f ∧ f < exponentBit := by
  have hpos : 0 < exponentBit := by decide
  have hdiv : 1 ≤ m / exponentBit := (Nat.one_le_div_iff hpos).mpr h
  refine ⟨m / exponentBit - 1, m % exponentBit, ?_, Nat.mod_lt _ hpos⟩
  rw [Nat.sub_add_cancel hdiv, Nat.mul_comm, Nat.div_add_mod]

/-- **The value grows with the magnitude.** -/
theorem strictMono_unitsOf : StrictMono unitsOf := by
  refine strictMono_nat_of_lt_succ fun m => ?_
  have hpos : 0 < exponentBit := by decide
  by_cases hm : m + 1 < exponentBit
  · rw [unitsOf, unitsOf, if_pos hm, if_pos (by omega)]
    exact Nat.lt_succ_self m
  by_cases hm' : m < exponentBit
  · -- the first magnitude with a leading one
    have hfirst : m + 1 = (0 + 1) * exponentBit + 0 := by omega
    rw [hfirst, unitsOf_normal 0 hpos, unitsOf, if_pos hm']
    omega
  obtain ⟨e, f, rfl, hf⟩ := exists_normal (Nat.not_lt.mp hm')
  rw [unitsOf_normal e hf]
  have hpow : 0 < 2 ^ e := Nat.two_pow_pos e
  by_cases hlast : f + 1 < exponentBit
  · rw [Nat.add_assoc, unitsOf_normal e hlast]
    exact Nat.mul_lt_mul_of_pos_right (by omega) hpow
  · -- the fraction is full, and the next exponent begins
    have hnext : (e + 1) * exponentBit + f + 1 = (e + 1 + 1) * exponentBit + 0 := by
      rw [Nat.succ_mul (e + 1)]
      omega
    rw [hnext, unitsOf_normal (e + 1) hpos, Nat.pow_succ, Nat.mul_comm (2 ^ e), ← Nat.mul_assoc]
    exact Nat.mul_lt_mul_of_pos_right (by omega) hpow

theorem unitsOf_lt_unitsOf_iff {m n : Nat} : unitsOf m < unitsOf n ↔ m < n :=
  strictMono_unitsOf.lt_iff_lt

theorem unitsOf_eq_zero_iff {m : Nat} : unitsOf m = 0 ↔ m = 0 := by
  have hzero : unitsOf 0 = 0 := rfl
  rw [← hzero]
  exact strictMono_unitsOf.injective.eq_iff

theorem units_eq_zero_iff {x : Binary64} : x.units = 0 ↔ x.isZero := by
  rw [units, unitsOf_eq_zero_iff, isZero, beq_iff_eq]

/-! ## Signs -/

/-- Numbers other than negative zero are in the order of their bits as in that of their values. -/
theorem rank_lt_rank_iff {x y : Binary64} (hx : x.isZero → x.negative = false)
    (hy : y.isZero → y.negative = false) : x.rank < y.rank ↔ x.signedUnits < y.signedUnits := by
  have hxy : x.units < y.units ↔ x.magnitude < y.magnitude := unitsOf_lt_unitsOf_iff
  have hyx : y.units < x.units ↔ y.magnitude < x.magnitude := unitsOf_lt_unitsOf_iff
  rw [← units_eq_zero_iff] at hx hy
  unfold rank signedUnits
  cases hxn : x.negative <;> cases hyn : y.negative <;> simp only [hxn, hyn] at hx hy <;> grind

/-- What decides a comparison is which side is less. -/
theorem compare_eq_compare {α β : Type} [LinearOrder α] [LinearOrder β] {a b : α} {c d : β}
    (hlt : a < b ↔ c < d) (hgt : b < a ↔ d < c) : compare a b = compare c d := by
  rcases lt_trichotomy a b with h | h | h
  · rw [compare_lt_iff_lt.mpr h, compare_lt_iff_lt.mpr (hlt.mp h)]
  · rw [compare_eq_iff_eq.mpr h, eq_comm, compare_eq_iff_eq]
    exact le_antisymm (not_lt.mp (mt hgt.mpr h.not_gt)) (not_lt.mp (mt hlt.mpr h.not_lt))
  · rw [compare_gt_iff_gt.mpr h, compare_gt_iff_gt.mpr (hgt.mp h)]

/-- **Numbers other than negative zero compare by their bits as by their values.** -/
theorem compare_rank_eq {x y : Binary64} (hx : x.isZero → x.negative = false)
    (hy : y.isZero → y.negative = false) :
    compare x.rank y.rank = compare x.signedUnits y.signedUnits :=
  compare_eq_compare (rank_lt_rank_iff hx hy) (rank_lt_rank_iff hy hx)

/-! ## Zeros -/

/-- The number, with zero in place of negative zero. -/
def positiveZero (x : Binary64) : Binary64 := if x.isZero then zero else x

theorem signedUnits_of_isZero {x : Binary64} (h : x.isZero) : x.signedUnits = 0 := by
  rw [signedUnits, units_eq_zero_iff.mpr h]
  simp

theorem signedUnits_positiveZero (x : Binary64) : x.positiveZero.signedUnits = x.signedUnits := by
  unfold positiveZero
  split
  · next h => rw [signedUnits_of_isZero h, signedUnits_of_isZero rfl]
  · rfl

theorem isFinite_of_isZero {x : Binary64} (h : x.isZero) : x.isFinite := by
  rw [isFinite, beq_iff_eq.mp h]
  rfl

theorem isFinite_positiveZero (x : Binary64) : x.positiveZero.isFinite = x.isFinite := by
  unfold positiveZero
  split
  · next h => exact (isFinite_of_isZero h).symm
  · rfl

/-- A number other than NaN is finite or infinite. -/
theorem isFinite_iff_not_isInfinite {x : Binary64} (h : x.isNaN = false) :
    x.isFinite ↔ ¬ x.isInfinite := by
  rw [isNaN, decide_eq_false_iff_not] at h
  rw [isFinite, isInfinite, decide_eq_true_eq, beq_iff_eq]
  omega

theorem isNaN_of_isFinite {x : Binary64} (h : x.isFinite) : x.isNaN = false := by
  rw [isFinite, decide_eq_true_eq] at h
  rw [isNaN, decide_eq_false_iff_not]
  omega

/-! ## Comparison by value -/

section

variable {x y : Binary64} (hx : x.isNaN = false) (hy : y.isNaN = false)

include hx hy

theorem numericEq_eq : x.numericEq y = (compare x.signedUnits y.signedUnits == .eq) := by
  rw [numericEq, hx, hy, Bool.eq_iff_iff, beq_iff_eq, compare_eq_iff_eq]
  simp

theorem numericLt_eq : x.numericLt y = (compare x.signedUnits y.signedUnits).isLT := by
  rw [numericLt, hx, hy, Bool.eq_iff_iff, Ordering.isLT_iff_eq_lt, compare_lt_iff_lt]
  simp

theorem numericLe_eq : x.numericLe y = (compare x.signedUnits y.signedUnits).isLE := by
  rw [numericLe, hx, hy, Bool.eq_iff_iff, Std.isLE_compare]
  simp

end

theorem numericEq_self {x : Binary64} (hx : x.isNaN = false) : x.numericEq x := by
  rw [numericEq_eq hx hx, beq_iff_eq, compare_eq_iff_eq]

end Binary64

/-! ## Keys -/

namespace Key

/-- The number of a key has no sign of zero to drop. -/
theorem positiveZero_number (k : Key) : k.number.positiveZero = k.number := by
  unfold Binary64.positiveZero
  split
  · next hz =>
    have hmagnitude : k.number.magnitude = 0 := beq_iff_eq.mp hz
    rw [← Binary64.ofMagnitude_negative_magnitude k.number, hmagnitude, k.not_negativeZero hz]
    rfl
  · rfl

theorem number_ofNumber (x : Binary64) (h : x.isNaN = false) :
    (ofNumber x h).number = x.positiveZero := by
  unfold ofNumber Binary64.positiveZero
  split <;> rfl

/-- A number has a key unless it is NaN, and the number of its key has the sign of zero dropped. -/
theorem ofBinary64?_eq_some_iff {x : Binary64} {k : Key} :
    ofBinary64? x = some k ↔ x.isNaN = false ∧ k.number = x.positiveZero := by
  unfold ofBinary64?
  split
  · next h => simp [h]
  · next h =>
    rw [Bool.not_eq_true] at h
    rw [Option.some.injEq, ← number_ofNumber x h]
    exact ⟨fun e => ⟨h, e ▸ rfl⟩, fun ⟨_, e⟩ => by cases k; cases hk : ofNumber x h; simp_all⟩

theorem ofBinary64?_eq_none_iff {x : Binary64} : ofBinary64? x = none ↔ x.isNaN := by
  unfold ofBinary64?
  split <;> simp_all

/-- **Keys compare as the values of their numbers do.** -/
theorem compare_eq (k l : Key) :
    compare k l = compare k.number.signedUnits l.number.signedUnits :=
  Binary64.compare_rank_eq k.not_negativeZero l.not_negativeZero

end Key

end TracedIndex
