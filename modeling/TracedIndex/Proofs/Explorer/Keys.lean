import TracedIndex.Proofs.Binary64.TotalOrder
import TracedIndex.Proofs.Binary64.Value
import TracedIndex.Proofs.Binary64.Whole
import TracedIndex.Proofs.Explorer.Queries
import TracedIndex.Proofs.Format.Results
import TracedIndex.Proofs.Keys

/-!
# Keys as numbers

Keys are compared by their bits and tested for equality by their values. These agree since every way to make
a key leaves NaN out, which differs from itself, and negative zero, which has the value of zero and other
bits: raw numbers lose the signs of their zeros, whole numbers are converted to numbers that have none, and
texts go through raw numbers.

* `rank_inj`: the order of the bits tells all numbers apart;
* `Key.compare_eq_totalCompare`, `Key.compare_eq_value`: keys compare by their bits and by their values;
* `Key.numericEq_iff`, `Key.bits_eq_iff`: when two keys are equal;
* `number_ofInt32_eq`, `Key.exists_of_parse`: the numbers of the keys that are made;
* **`order_of_keys`**: all of this.
-/

namespace TracedIndex

namespace Binary64

/-- **The order of the bits tells all numbers apart.** -/
theorem rank_inj {x y : Binary64} (h : x.rank = y.rank) : x = y := by
  have hparts : x.negative = y.negative ∧ x.magnitude = y.magnitude := by
    unfold rank at h
    cases hx : x.negative <;> cases hy : y.negative <;> simp [hx, hy] at h ⊢ <;> omega
  rw [← ofMagnitude_negative_magnitude x, hparts.1, hparts.2, ofMagnitude_negative_magnitude]

theorem value_positiveZero (x : Binary64) : x.positiveZero.value = x.value := by
  by_cases hz : x.isZero
  · have hinf : x.isInfinite = false := by
      rw [isInfinite, beq_iff_eq.mp hz]
      rfl
    rw [value, value, signedUnits_positiveZero, hinf, positiveZero, if_pos hz]
    rfl
  · rw [positiveZero, if_neg hz]

theorem value_ofInt {n : Int} (h : n.natAbs < 2 ^ 53) : (ofInt n).value = ((n : ℚ) : WithTop ℚ) := by
  have hfinite : (ofInt n).isFinite := isFinite_ofInt (k := 53) (by decide) h.le
  have hpos : (unitsPerOne : ℚ) ≠ 0 := Nat.cast_ne_zero.mpr unitsPerOne_pos.ne'
  rw [value, if_neg ((isFinite_iff_not_isInfinite (isNaN_of_isFinite hfinite)).mp hfinite),
    signedUnits_ofInt h, Int.cast_mul, Int.cast_natCast, mul_div_cancel_right₀ _ hpos]

/-- A whole number is not converted to negative zero. -/
theorem positiveZero_ofInt {n : Int} (h : n.natAbs < 2 ^ 53) : (ofInt n).positiveZero = ofInt n := by
  by_cases hz : (ofInt n).isZero
  · have hn : n * unitsPerOne = 0 := by rw [← signedUnits_ofInt h, signedUnits_of_isZero hz]
    have hpos := unitsPerOne_pos
    obtain rfl : n = 0 := by
      rcases Int.mul_eq_zero.mp hn with hn | hn
      · exact hn
      · omega
    decide +kernel
  · rw [positiveZero, if_neg hz]

end Binary64

namespace Key

variable {x y : Binary64} {k l : Key}

theorem compare_eq_totalCompare (k l : Key) : compare k l = k.number.totalCompare l.number :=
  (Binary64.totalCompare_eq _ _).symm

theorem compare_eq_value (k l : Key) : compare k l = compare k.number.value l.number.value := by
  rw [compare_eq, Binary64.compare_value k.not_nan l.not_nan]

/-- Keys are equal by their values where they compare as equal. -/
theorem numericEq_iff (k l : Key) : k.number.numericEq l.number ↔ compare k l = .eq := by
  rw [Binary64.numericEq_eq k.not_nan l.not_nan, beq_iff_eq, compare_eq]

/-- Keys compare as equal where they are the same bits. -/
theorem compare_eq_eq_iff_bits (k l : Key) : compare k l = .eq ↔ k.number.bits = l.number.bits := by
  rw [show compare k l = compare k.number.rank l.number.rank from rfl, compare_eq_iff_eq]
  constructor
  · intro h
    rw [Binary64.rank_inj h]
  · intro h
    rw [show k.number = l.number from congrArg Binary64.mk h]

instance : Std.LawfulEqOrd Key where
  eq_of_compare {k l} h := by
    have hnumber : k.number = l.number := Binary64.rank_inj (compare_eq_iff_eq.mp h)
    obtain ⟨x, hx, hx'⟩ := k
    obtain ⟨y, hy, hy'⟩ := l
    obtain rfl : x = y := hnumber
    rfl

theorem ne_negativeZero (k : Key) : k.number ≠ .negativeZero := by
  intro h
  have := k.not_negativeZero
  rw [h] at this
  exact absurd (this rfl) (by decide)

/-- A key that a text is read as is made of a finite number. -/
theorem exists_of_parse {text : String} (h : Key.parse text = .ok k) :
    ∃ x : Binary64, x.isFinite ∧ ofBinary64 x = .ok k := by
  obtain ⟨x, hx, hk⟩ := read_made.of_parse h
  exact ⟨x, hx, by rw [ofBinary64, hk]⟩

theorem ofBinary64_eq_error_iff {e : Error} : ofBinary64 x = .error e ↔ x.isNaN ∧ e = .invalidKey := by
  rw [← ofBinary64?_eq_none_iff, ofBinary64]
  cases ofBinary64? x with
  | none => simp [eq_comm]
  | some k => simp

/-- The keys of whole numbers. -/
theorem number_ofInt32_eq (n : Int32) :
    (ofInt32 n).number = .ofInt n.toInt ∧ (ofInt32 n).number.value = ((n.toInt : ℚ) : WithTop ℚ) := by
  have hnumber : (ofInt32 n).number = .ofInt n.toInt := by
    rw [number_ofInt32, Binary64.positiveZero_ofInt (natAbs_toInt_lt n)]
  exact ⟨hnumber, by rw [hnumber, Binary64.value_ofInt (natAbs_toInt_lt n)]⟩

/-- **The keys are in the order of the numbers.** A raw number has a key unless it is NaN, and its key differs
from it in the sign of a zero only. Keys compare by their bits, and so do the values of the numbers that they
were made of, from minus infinity through the finite values to infinity. Keys that compare as equal are of
equal values, of the same bits, and the same. No key is NaN or negative zero, whether it was made of a raw
number, of a whole one, which has its own value, or of a text. -/
theorem order_of_keys :
    (∀ x e, ofBinary64 x = .error e ↔ x.isNaN ∧ e = .invalidKey) ∧
    (∀ x y : Binary64, x.isNaN = false → y.isNaN = false → ∃ k l, ofBinary64 x = .ok k ∧
      ofBinary64 y = .ok l ∧ k.number = x.positiveZero ∧
      compare k l = k.number.totalCompare l.number ∧ compare k l = compare x.value y.value) ∧
    (∀ k l : Key, compare k l = compare k.number.value l.number.value ∧
      (k.number.numericEq l.number ↔ compare k l = .eq) ∧
      (compare k l = .eq ↔ k.number.bits = l.number.bits)) ∧
    (∀ k : Key, k.number.isNaN = false ∧ k.number ≠ .negativeZero) ∧
    (∀ n, (ofInt32 n).number = .ofInt n.toInt ∧
      (ofInt32 n).number.value = ((n.toInt : ℚ) : WithTop ℚ)) ∧
    (∀ text k, Key.parse text = .ok k → ∃ x : Binary64, x.isFinite ∧ ofBinary64 x = .ok k) ∧
    Std.TransOrd Key ∧ Std.LawfulEqOrd Key := by
  refine ⟨fun x e => ofBinary64_eq_error_iff, fun x y hx hy => ?_, fun k l => ?_,
    fun k => ⟨k.not_nan, k.ne_negativeZero⟩, number_ofInt32_eq, fun text k hk => exists_of_parse hk,
    inferInstance, inferInstance⟩
  · have hk : ofBinary64 x = .ok (ofNumber x hx) := ofBinary64_eq_ok_iff.mpr ⟨hx, number_ofNumber x hx⟩
    have hl : ofBinary64 y = .ok (ofNumber y hy) := ofBinary64_eq_ok_iff.mpr ⟨hy, number_ofNumber y hy⟩
    refine ⟨_, _, hk, hl, number_ofNumber x hx, compare_eq_totalCompare _ _, ?_⟩
    rw [compare_eq_value, number_ofNumber, number_ofNumber, Binary64.value_positiveZero,
      Binary64.value_positiveZero]
  · exact ⟨compare_eq_value k l, numericEq_iff k l, compare_eq_eq_iff_bits k l⟩

/-- Negative zero comes right in front of the least subnormal number; a NaN with its sign set has no key. -/
theorem order_of_least_numbers : ∃ k l : Key, ofBinary64 .negativeZero = .ok k ∧
    ofBinary64 ⟨1⟩ = .ok l ∧ k.number = .zero ∧ compare k l = .lt ∧
      ofBinary64 ⟨0xfff0000000000001⟩ = .error .invalidKey := by
  obtain ⟨hnan, hpairs, -⟩ := order_of_keys
  obtain ⟨k, l, hk, hl, hzero, -, hcompare⟩ := hpairs .negativeZero ⟨1⟩ (by decide) (by decide)
  rw [Binary64.compare_value (by decide) (by decide)] at hcompare
  exact ⟨k, l, hk, hl, hzero, hcompare.trans (by decide), (hnan _ _).mpr ⟨by decide, rfl⟩⟩

end Key

end TracedIndex
