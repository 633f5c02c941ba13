import Mathlib.Data.Nat.Log
import TracedIndex.Proofs.Binary64.Order

/-!
# Rounding is monotone

The magnitude nearest to a quotient is on the same side of any other magnitude as the quotient is of the
value of that magnitude. So the values of magnitudes are rounded to these magnitudes, and whatever is not
above a finite number stays finite.

* `roundHalfEven_le`, `le_roundHalfEven`: rounding to whole numbers;
* **`nearestMagnitude_le_of_le`**, **`le_nearestMagnitude_of_le`**: rounding to magnitudes;
* `nearestMagnitude_unitsOf`: rounding is exact on the values of magnitudes;
* `isFinite_ofRatio`, `isFinite_div`: what stays finite.
-/

namespace TracedIndex

theorem roundHalfEven_le {num den n : Nat} (hden : 0 < den) (h : num ≤ n * den) :
    roundHalfEven num den ≤ n := by
  have hq : num / den ≤ n := Nat.div_le_of_le_mul (by rwa [Nat.mul_comm])
  rcases Nat.lt_or_eq_of_le hq with hlt | heq
  · unfold roundHalfEven
    dsimp only
    split
    · exact hq
    · exact hlt
    · split
      · exact hq
      · exact hlt
  · -- the quotient is a whole number
    have hmod : num % den = 0 := by
      have := Nat.div_add_mod num den
      rw [heq, Nat.mul_comm] at this
      omega
    have hlt : compare (2 * (num % den)) den = .lt := by
      rw [hmod, Nat.mul_zero]
      exact Nat.compare_eq_lt.mpr hden
    simp only [roundHalfEven, hlt, heq, Nat.le_refl]

theorem le_roundHalfEven {num den n : Nat} (hden : 0 < den) (h : n * den ≤ num) :
    n ≤ roundHalfEven num den := by
  have hq : n ≤ num / den := (Nat.le_div_iff_mul_le hden).mpr h
  unfold roundHalfEven
  dsimp only
  split
  · exact hq
  · exact Nat.le_succ_of_le hq
  · split
    · exact hq
    · exact Nat.le_succ_of_le hq

namespace Binary64

/-! ## Magnitudes -/

/-- A normal magnitude of at least `53 + s` places. -/
theorem le_exponent_of_le {s e f : Nat} (hf : f < exponentBit)
    (h : 2 ^ (52 + s) ≤ (exponentBit + f) * 2 ^ e) : s ≤ e := by
  have hbit : exponentBit = 2 ^ 52 := rfl
  by_contra hse
  have hpow : 2 ^ (53 + e) ≤ 2 ^ (52 + s) := Nat.pow_le_pow_right (by decide) (by omega)
  rw [Nat.pow_add] at hpow
  have := Nat.mul_lt_mul_of_pos_right (show exponentBit + f < 2 ^ 53 by omega) (Nat.two_pow_pos e)
  omega

/-- A normal magnitude of at most `53 + s` places. -/
theorem exponent_le_of_lt {s e f : Nat} (h : (exponentBit + f) * 2 ^ e < 2 ^ (53 + s)) : e ≤ s := by
  have hbit : exponentBit = 2 ^ 52 := rfl
  by_contra hes
  have hpow : 2 ^ (53 + s) ≤ 2 ^ (52 + e) := Nat.pow_le_pow_right (by decide) (by omega)
  rw [Nat.pow_add 2 52] at hpow
  have := Nat.mul_le_mul_right (2 ^ e) (show 2 ^ 52 ≤ exponentBit + f by omega)
  omega

section

variable {num den m : Nat} (hden : 0 < den)

include hden

variable (num) in
/-- The number of places in excess leaves 53 of them, unless there are fewer. -/
theorem lt_two_pow_excess : num < 2 ^ (53 + (Nat.log2 (num / den) - 52)) * den := by
  have hlt : num / den < 2 ^ (53 + (Nat.log2 (num / den) - 52)) :=
    Nat.lt_of_lt_of_le Nat.lt_log2_self (Nat.pow_le_pow_right (by decide) (by omega))
  exact (Nat.div_lt_iff_lt_mul hden).mp hlt

variable (num) in
theorem two_pow_excess_le (h : Nat.log2 (num / den) - 52 ≠ 0) :
    2 ^ (52 + (Nat.log2 (num / den) - 52)) * den ≤ num := by
  have hlog : Nat.log2 (num / den) ≠ 0 := by omega
  have hne : num / den ≠ 0 := by
    intro hzero
    rw [hzero] at hlog
    exact hlog rfl
  have hle : 2 ^ (52 + (Nat.log2 (num / den) - 52)) ≤ num / den := by
    rw [show 52 + (Nat.log2 (num / den) - 52) = Nat.log2 (num / den) by omega]
    exact Nat.log2_self_le hne
  exact (Nat.le_div_iff_mul_le hden).mp hle

/-- **A quotient up to the value of a magnitude is rounded to a magnitude up to it.** -/
theorem nearestMagnitude_le_of_le (h : num ≤ unitsOf m * den) : nearestMagnitude num den ≤ m := by
  have hlt := lt_two_pow_excess num hden
  have hge := two_pow_excess_le num hden
  refine Nat.le_trans (Nat.min_le_left _ _) ?_
  rw [Nat.pow_eq]
  generalize Nat.log2 (num / den) - 52 = s at hlt hge ⊢
  have hpos : 0 < den * 2 ^ s := Nat.mul_pos hden (Nat.two_pow_pos s)
  have hbit : exponentBit = 2 ^ 52 := rfl
  by_cases hm : m < exponentBit
  · rw [unitsOf, if_pos hm] at h
    have hs : s = 0 := by
      by_contra hs
      have hle := Nat.le_of_mul_le_mul_right (Nat.le_trans (hge hs) h) hden
      have := Nat.pow_le_pow_right (n := 2) (by decide) (show 52 ≤ 52 + s by omega)
      omega
    subst hs
    rw [Nat.zero_mul, Nat.zero_add]
    exact roundHalfEven_le hpos (by simpa using h)
  · obtain ⟨e, f, rfl, hf⟩ := exists_normal (Nat.not_lt.mp hm)
    rw [unitsOf_normal e hf] at h
    have hse : s ≤ e := by
      rcases Nat.eq_zero_or_pos s with rfl | hs
      · exact Nat.zero_le e
      · exact le_exponent_of_le hf (Nat.le_of_mul_le_mul_right (Nat.le_trans (hge hs.ne') h) hden)
    rcases Nat.lt_or_eq_of_le hse with hse | rfl
    · have hround : roundHalfEven num (den * 2 ^ s) ≤ 2 ^ 53 := by
        refine roundHalfEven_le hpos (Nat.le_of_lt (Nat.lt_of_lt_of_eq hlt ?_))
        rw [Nat.pow_add, Nat.mul_assoc, Nat.mul_comm (2 ^ s)]
      have hmul : (s + 1) * exponentBit ≤ e * exponentBit := Nat.mul_le_mul_right _ hse
      rw [Nat.succ_mul] at hmul ⊢
      omega
    · have hround : roundHalfEven num (den * 2 ^ s) ≤ exponentBit + f := by
        refine roundHalfEven_le hpos (le_of_le_of_eq h ?_)
        rw [Nat.mul_assoc, Nat.mul_comm (2 ^ s)]
      rw [Nat.succ_mul]
      omega

/-- **A quotient from the value of a magnitude on is rounded to a magnitude from it on.** -/
theorem le_nearestMagnitude_of_le (h : unitsOf m * den ≤ num) (hm : m ≤ infiniteMagnitude) :
    m ≤ nearestMagnitude num den := by
  have hlt := lt_two_pow_excess num hden
  have hge := two_pow_excess_le num hden
  refine Nat.le_min.mpr ⟨?_, hm⟩
  rw [Nat.pow_eq]
  generalize Nat.log2 (num / den) - 52 = s at hlt hge ⊢
  have hpos : 0 < den * 2 ^ s := Nat.mul_pos hden (Nat.two_pow_pos s)
  have hbit : exponentBit = 2 ^ 52 := rfl
  by_cases hm : m < exponentBit
  · rw [unitsOf, if_pos hm] at h
    rcases Nat.eq_zero_or_pos s with rfl | hs
    · have := le_roundHalfEven hpos (n := m) (by simpa using h)
      omega
    · have := Nat.mul_le_mul_right exponentBit hs
      omega
  · obtain ⟨e, f, rfl, hf⟩ := exists_normal (Nat.not_lt.mp hm)
    rw [unitsOf_normal e hf] at h
    have hes : e ≤ s := exponent_le_of_lt (Nat.lt_of_mul_lt_mul_right (Nat.lt_of_le_of_lt h hlt))
    rcases Nat.lt_or_eq_of_le hes with hes | rfl
    · have hround : 2 ^ 52 ≤ roundHalfEven num (den * 2 ^ s) := by
        refine le_roundHalfEven hpos (le_of_eq_of_le ?_ (hge (by omega)))
        rw [Nat.pow_add, Nat.mul_assoc, Nat.mul_comm (2 ^ s)]
      have hmul : (e + 1) * exponentBit ≤ s * exponentBit := Nat.mul_le_mul_right _ hes
      omega
    · have hround : exponentBit + f ≤ roundHalfEven num (den * 2 ^ e) := by
        refine le_roundHalfEven hpos (le_of_eq_of_le ?_ h)
        rw [Nat.mul_assoc, Nat.mul_comm (2 ^ e)]
      rw [Nat.succ_mul]
      omega

end

/-- **The value of a magnitude is rounded to the magnitude.** -/
theorem nearestMagnitude_unitsOf {m : Nat} (h : m ≤ infiniteMagnitude) :
    nearestMagnitude (unitsOf m) 1 = m :=
  Nat.le_antisymm (nearestMagnitude_le_of_le Nat.one_pos (by simp))
    (le_nearestMagnitude_of_le Nat.one_pos (by simp) h)

/-! ## Units -/

theorem two_pow_eq_unitsPerOne {k : Nat} (h : k = 1074) : 2 ^ k = unitsPerOne := by
  unfold unitsPerOne
  rw [← h]
  rfl

theorem unitsPerOne_pos : 0 < unitsPerOne := by
  obtain ⟨k, hk⟩ : ∃ k, k = 1074 := ⟨_, rfl⟩
  rw [← two_pow_eq_unitsPerOne hk]
  exact Nat.two_pow_pos k

/-- The magnitude of a power of two that is no fraction. -/
theorem unitsOf_two_pow (k : Nat) : unitsOf ((1022 + k + 1) * exponentBit) = 2 ^ k * unitsPerOne := by
  have hbit : exponentBit = 2 ^ 52 := rfl
  have h := unitsOf_normal (1022 + k) (f := 0) (by decide)
  simp only [Nat.add_zero] at h
  obtain ⟨j, hj⟩ : ∃ j, j = 1074 := ⟨_, rfl⟩
  rw [h, hbit, ← Nat.pow_add, show 52 + (1022 + k) = k + j by omega, Nat.pow_add,
    two_pow_eq_unitsPerOne hj]

/-! ## Finite numbers -/

theorem isFinite_ofMagnitude {s : Bool} {m : Nat} (h : m < infiniteMagnitude) :
    (ofMagnitude s m).isFinite := by
  rw [isFinite, magnitude_ofMagnitude s (Nat.lt_trans h (by decide))]
  exact decide_eq_true h

theorem magnitude_lt_of_isFinite {x : Binary64} (h : x.isFinite) : x.magnitude < infiniteMagnitude :=
  of_decide_eq_true h

/-- A fraction that is not above a finite power of two is rounded to a finite number. -/
theorem isFinite_ofRatio (s : Bool) {num den k : Nat} (hden : 0 < den) (hk : k ≤ 1023)
    (h : num ≤ 2 ^ k * den) : (ofRatio s num den).isFinite := by
  refine isFinite_ofMagnitude (Nat.lt_of_le_of_lt
    (nearestMagnitude_le_of_le hden (m := (1022 + k + 1) * exponentBit) ?_) ?_)
  · rw [unitsOf_two_pow, Nat.mul_right_comm]
    exact Nat.mul_le_mul_right _ h
  · have hle : (1022 + k + 1) * exponentBit ≤ 2046 * exponentBit := Nat.mul_le_mul_right _ (by omega)
    have : infiniteMagnitude = 2047 * exponentBit := rfl
    have : 0 < exponentBit := by decide
    omega

theorem isFinite_ofInt {n : Int} {k : Nat} (hk : k ≤ 1023) (h : n.natAbs ≤ 2 ^ k) : (ofInt n).isFinite :=
  isFinite_ofRatio _ Nat.one_pos hk (by rwa [Nat.mul_one])

theorem isFinite_neg {x : Binary64} (h : x.isFinite) : x.neg.isFinite :=
  isFinite_ofMagnitude (magnitude_lt_of_isFinite h)

/-- A product is finite unless it is infinite. -/
theorem isFinite_mul {x y : Binary64} (h : (x.mul y).isInfinite = false) : (x.mul y).isFinite := by
  have hle := nearestMagnitude_le (x.units * y.units) unitsPerOne
  rw [mul] at h ⊢
  refine isFinite_ofMagnitude (Nat.lt_of_le_of_ne hle fun heq => ?_)
  rw [isInfinite, magnitude_ofMagnitude _ (by rw [heq]; decide), heq] at h
  cases h

/-- A finite number divided by one or more is finite. -/
theorem isFinite_div {x y : Binary64} (hx : x.isFinite) (hy : unitsPerOne ≤ y.units) :
    (x.div y).isFinite := by
  refine isFinite_ofMagnitude (Nat.lt_of_le_of_lt ?_ (magnitude_lt_of_isFinite hx))
  exact nearestMagnitude_le_of_le (Nat.lt_of_lt_of_le unitsPerOne_pos hy) (Nat.mul_le_mul_left _ hy)

/-- A positive whole number is rounded to one or more. -/
theorem unitsPerOne_le_units_ofInt {n : Nat} (h : 0 < n) : unitsPerOne ≤ (ofInt n).units := by
  have hone : unitsOf ((1022 + 0 + 1) * exponentBit) = unitsPerOne := by simp [unitsOf_two_pow 0]
  have hlt : nearestMagnitude (n * unitsPerOne) 1 < signBit :=
    Nat.lt_of_le_of_lt (nearestMagnitude_le _ _) (by decide)
  have hunits : (ofInt n).units = unitsOf (nearestMagnitude (n * unitsPerOne) 1) := by
    rw [ofInt, ofRatio, units, Int.natAbs_natCast, magnitude_ofMagnitude _ hlt]
  have hle : (1022 + 0 + 1) * exponentBit ≤ nearestMagnitude (n * unitsPerOne) 1 := by
    refine le_nearestMagnitude_of_le Nat.one_pos ?_ (by decide)
    rw [hone, Nat.mul_one]
    exact Nat.le_mul_of_pos_left _ h
  rw [hunits]
  exact le_of_eq_of_le hone.symm (strictMono_unitsOf.monotone hle)

end Binary64

end TracedIndex
