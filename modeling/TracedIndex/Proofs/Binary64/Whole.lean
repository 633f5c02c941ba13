import TracedIndex.Proofs.Binary64.Rounding

/-!
# Whole numbers in binary64

A value that a magnitude has is rounded to that magnitude. Every whole number of at most 53 places is such
a value, so converting it changes nothing, and keys of whole numbers compare as the numbers do.

* `exists_unitsOf_eq`: whole numbers are such values;
* **`signedUnits_ofInt`**: the value of a converted whole number;
* **`Key.compare_ofInt32`**: keys of whole numbers compare as the numbers do.
-/

namespace TracedIndex

namespace Binary64

/-- Whole numbers of at most 53 places are values of magnitudes. -/
theorem exists_unitsOf_eq {n : Nat} (h : n < 2 ^ 53) :
    ∃ m, m < infiniteMagnitude ∧ unitsOf m = n * unitsPerOne := by
  rcases Nat.eq_zero_or_pos n with rfl | hpos
  · exact ⟨0, by decide, by simp [unitsOf]⟩
  have he : Nat.log2 n ≤ 52 := Nat.lt_succ_iff.mp ((Nat.log2_lt hpos.ne').mpr h)
  have hlow : 2 ^ Nat.log2 n ≤ n := Nat.log2_self_le hpos.ne'
  have hhigh : n < 2 ^ (Nat.log2 n + 1) := Nat.lt_log2_self
  generalize Nat.log2 n = e at he hlow hhigh
  -- shifted to the left until its leading one is the 53rd place
  have hbit : exponentBit = 2 ^ e * 2 ^ (52 - e) := by
    rw [← Nat.pow_add, Nat.add_sub_cancel' he]
    rfl
  have hge : exponentBit ≤ n * 2 ^ (52 - e) := hbit ▸ Nat.mul_le_mul_right _ hlow
  have hlt : n * 2 ^ (52 - e) < 2 * exponentBit := by
    rw [hbit, ← Nat.mul_assoc, ← Nat.pow_succ']
    exact Nat.mul_lt_mul_of_pos_right hhigh (Nat.two_pow_pos _)
  refine ⟨(1022 + e + 1) * exponentBit + (n * 2 ^ (52 - e) - exponentBit), ?_, ?_⟩
  · have : (1022 + e + 1) * exponentBit ≤ 1075 * exponentBit := Nat.mul_le_mul_right _ (by omega)
    have : infiniteMagnitude = 2047 * exponentBit := rfl
    omega
  · rw [unitsOf_normal _ (by omega), Nat.add_sub_cancel' hge, Nat.mul_assoc, ← Nat.pow_add]
    rw [two_pow_eq_unitsPerOne (by omega)]

/-- **Converting a whole number of at most 53 places keeps its value.** -/
theorem signedUnits_ofInt {n : Int} (h : n.natAbs < 2 ^ 53) : (ofInt n).signedUnits = n * unitsPerOne := by
  obtain ⟨m, hm, hunits⟩ := exists_unitsOf_eq h
  have hlt : m < signBit := Nat.lt_trans hm (by decide)
  rw [ofInt, ofRatio, ← hunits, nearestMagnitude_unitsOf hm.le, signedUnits, units,
    negative_ofMagnitude _ hlt, magnitude_ofMagnitude _ hlt, hunits]
  by_cases hn : n < 0
  · rw [if_pos (decide_eq_true hn), Int.natCast_mul, Int.ofNat_natAbs_of_nonpos hn.le, Int.neg_mul,
      Int.neg_neg]
  · rw [if_neg (by simpa using hn), Int.natCast_mul, Int.natAbs_of_nonneg (Int.not_lt.mp hn)]

theorem compare_signedUnits_ofInt {m n : Int} (hm : m.natAbs < 2 ^ 53) (hn : n.natAbs < 2 ^ 53) :
    compare (ofInt m).signedUnits (ofInt n).signedUnits = compare m n := by
  have hmono : StrictMono fun k : Int => k * unitsPerOne := fun _ _ h =>
    Int.mul_lt_mul_of_pos_right h (Int.natCast_pos.mpr unitsPerOne_pos)
  rw [signedUnits_ofInt hm, signedUnits_ofInt hn, ← cmp_eq_compare, ← cmp_eq_compare]
  exact hmono.cmp_map_eq m n

end Binary64

namespace Key

theorem compare_toInt (m n : Int32) : compare m.toInt n.toInt = compare m n := by
  simp only [compare, compareOfLessAndEq, Int32.lt_iff_toInt_lt, Int32.toInt_inj]

theorem number_ofInt32 (n : Int32) : (ofInt32 n).number = (Binary64.ofInt n.toInt).positiveZero :=
  number_ofNumber _ _

theorem ofBinary64?_ofInt (n : Int32) : ofBinary64? (.ofInt n.toInt) = some (ofInt32 n) :=
  ofBinary64?_eq_some_iff.mpr ⟨Binary64.isNaN_ofInt _, number_ofInt32 n⟩

theorem natAbs_toInt_lt (n : Int32) : n.toInt.natAbs < 2 ^ 53 := by
  have := n.toInt_lt
  have := n.le_toInt
  omega

/-- **Keys of whole numbers compare as the numbers do.** -/
theorem compare_ofInt32 (m n : Int32) : compare (ofInt32 m) (ofInt32 n) = compare m n := by
  rw [compare_eq, number_ofInt32, number_ofInt32, Binary64.signedUnits_positiveZero,
    Binary64.signedUnits_positiveZero,
    Binary64.compare_signedUnits_ofInt (natAbs_toInt_lt m) (natAbs_toInt_lt n), compare_toInt]

end Key

end TracedIndex
