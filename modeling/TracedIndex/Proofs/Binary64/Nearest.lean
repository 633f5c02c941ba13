import Mathlib.Tactic.Ring
import TracedIndex.Proofs.Binary64.Rounding

/-!
# Halfway between two magnitudes

A quotient is rounded to a magnitude whose value is at most half the way to the next value apart from it. So
the points halfway between two values decide: below such a point the lower magnitude or one before it is the
nearest, above it the upper magnitude or one behind it. Only the quotient matters, not how it is written.

* `roundHalfEven_half`: rounding to whole numbers;
* `exists_significand`: the values of a magnitude and of the next one;
* **`nearestMagnitude_le_of_lt`**, **`lt_nearestMagnitude_of_lt`**: rounding to magnitudes;
* `nearestMagnitude_congr`: equal quotients.
-/

namespace TracedIndex

/-! ## Whole numbers -/

/-- A quotient is rounded to a whole number at most a half apart from it. -/
theorem roundHalfEven_half (num : Nat) {den : Nat} (hden : 0 < den) :
    2 * num ≤ 2 * (roundHalfEven num den * den) + den ∧ 2 * (roundHalfEven num den * den) ≤ 2 * num + den := by
  have hdiv := Nat.div_add_mod num den
  have hmod := Nat.mod_lt num hden
  unfold roundHalfEven
  dsimp only
  generalize num / den = q at hdiv ⊢
  generalize num % den = r at hdiv hmod ⊢
  have hsucc : (q + 1) * den = q * den + den := Nat.succ_mul q den
  rw [Nat.mul_comm] at hdiv
  split
  · next h =>
    have := Nat.compare_eq_lt.mp h
    omega
  · next h =>
    have := Nat.compare_eq_gt.mp h
    omega
  · next h =>
    have := Nat.compare_eq_eq.mp h
    split <;> omega

section

variable {num den n : Nat} (hden : 0 < den)

include hden

theorem roundHalfEven_le_of_lt (h : 2 * num < (2 * n + 1) * den) : roundHalfEven num den ≤ n := by
  have hhalf := (roundHalfEven_half num hden).2
  have hlt : 2 * (roundHalfEven num den * den) < 2 * ((n + 1) * den) := by
    rw [Nat.add_mul, Nat.mul_assoc, Nat.one_mul] at h
    rw [Nat.add_mul n 1, Nat.one_mul]
    omega
  exact Nat.lt_succ_iff.mp (Nat.lt_of_mul_lt_mul_right (Nat.lt_of_mul_lt_mul_left hlt))

theorem lt_roundHalfEven_of_lt (h : (2 * n + 1) * den < 2 * num) : n < roundHalfEven num den := by
  have hhalf := (roundHalfEven_half num hden).1
  have hlt : 2 * (n * den) < 2 * (roundHalfEven num den * den) := by
    rw [Nat.add_mul, Nat.mul_assoc, Nat.one_mul] at h
    omega
  exact Nat.lt_of_mul_lt_mul_right (Nat.lt_of_mul_lt_mul_left hlt)

end

theorem roundHalfEven_mul_left {k : Nat} (hk : 0 < k) (num den : Nat) :
    roundHalfEven (k * num) (k * den) = roundHalfEven num den := by
  have hcompare : compare (2 * (k * (num % den))) (k * den) = compare (2 * (num % den)) den := by
    rw [Nat.mul_left_comm]
    exact Binary64.compare_eq_compare (Nat.mul_lt_mul_left hk) (Nat.mul_lt_mul_left hk)
  rw [roundHalfEven, roundHalfEven, Nat.mul_div_mul_left _ _ hk, Nat.mul_mod_mul_left, hcompare]

namespace Binary64

/-! ## Significands -/

theorem unitsOf_significand {e r : Nat} (hr : r ≤ 2 ^ 53) (he : e = 0 ∨ 2 ^ 52 ≤ r) :
    unitsOf (e * exponentBit + r) = r * 2 ^ e := by
  have hbit : exponentBit = 2 ^ 52 := rfl
  by_cases hlow : r < exponentBit
  · obtain rfl : e = 0 := he.resolve_right (by omega)
    rw [unitsOf, if_pos (by omega)]
    omega
  by_cases htop : r < 2 ^ 53
  · have h := unitsOf_normal e (f := r - exponentBit) (by omega)
    rw [Nat.add_sub_cancel' (Nat.not_lt.mp hlow)] at h
    rw [← h]
    refine congrArg unitsOf ?_
    rw [Nat.succ_mul]
    omega
  · -- the significand is full, and the next exponent begins
    obtain rfl : r = 2 ^ 53 := by omega
    have h := unitsOf_normal (e + 1) (f := 0) (by decide)
    have hnext : e * exponentBit + 2 ^ 53 = (e + 1 + 1) * exponentBit + 0 := by
      rw [Nat.succ_mul, Nat.succ_mul]
      omega
    have hpow : 2 ^ (e + 1) = 2 * 2 ^ e := Nat.pow_succ'
    rw [hnext, h, hbit, hpow]
    omega

/-- **A magnitude has a significand of at most 53 places, and the next magnitude has the next one.** -/
theorem exists_significand (m : Nat) : ∃ e r, m = e * exponentBit + r ∧ r < 2 ^ 53 ∧ (e = 0 ∨ 2 ^ 52 ≤ r) ∧
    unitsOf m = r * 2 ^ e ∧ unitsOf (m + 1) = (r + 1) * 2 ^ e := by
  obtain ⟨e, r, rfl, hr, he⟩ : ∃ e r, m = e * exponentBit + r ∧ r < 2 ^ 53 ∧ (e = 0 ∨ 2 ^ 52 ≤ r) := by
    have hbit : exponentBit = 2 ^ 52 := rfl
    by_cases hm : m < exponentBit
    · exact ⟨0, m, by omega, by omega, .inl rfl⟩
    · obtain ⟨e, f, rfl, hf⟩ := exists_normal (Nat.not_lt.mp hm)
      refine ⟨e, exponentBit + f, ?_, by omega, .inr (by omega)⟩
      rw [Nat.succ_mul]
      omega
  have hnext := unitsOf_significand (r := r + 1) hr (he.imp_right Nat.le_succ_of_le)
  rw [← Nat.add_assoc] at hnext
  exact ⟨e, r, rfl, hr, he, unitsOf_significand hr.le he, hnext⟩

/-- Two magnitudes on, the significand has grown by two at least. -/
theorem le_unitsOf_add_two {e r : Nat} (hr : r < 2 ^ 53) (he : e = 0 ∨ 2 ^ 52 ≤ r) :
    (r + 2) * 2 ^ e ≤ unitsOf (e * exponentBit + r + 2) := by
  by_cases htop : r + 2 ≤ 2 ^ 53
  · rw [Nat.add_assoc, unitsOf_significand htop (he.imp_right (by omega))]
  · have hbit : exponentBit = 2 ^ 52 := rfl
    have hpow : 2 ^ (e + 1) = 2 * 2 ^ e := Nat.pow_succ'
    have hnext : e * exponentBit + r + 2 = (e + 1) * exponentBit + (2 ^ 52 + 1) := by
      rw [Nat.succ_mul]
      omega
    have hunits := unitsOf_significand (e := e + 1) (r := 2 ^ 52 + 1) (by omega) (.inr (by omega))
    have htop : r + 2 ≤ (2 ^ 52 + 1) * 2 := by omega
    rw [hnext, hunits, hpow, ← Nat.mul_assoc]
    exact Nat.mul_le_mul_right _ htop

/-! ## Halfway points -/

section

variable {num den m : Nat} (hden : 0 < den)

include hden

/-- The number of places in excess is the exponent of the value below the quotient. -/
theorem nearestMagnitude_eq {e r : Nat} (hr : r < 2 ^ 53) (he : e = 0 ∨ 2 ^ 52 ≤ r)
    (hlow : r * 2 ^ e * den ≤ num) (hhigh : num < (r + 1) * 2 ^ e * den) :
    nearestMagnitude num den = min (e * exponentBit + roundHalfEven num (den * 2 ^ e)) infiniteMagnitude := by
  have hquot : num / den < 2 ^ (53 + e) := by
    refine Nat.lt_of_lt_of_le ((Nat.div_lt_iff_lt_mul hden).mpr hhigh) ?_
    rw [Nat.pow_add]
    exact Nat.mul_le_mul_right _ hr
  have hlog : Nat.log2 (num / den) - 52 = e := by
    have hle : Nat.log2 (num / den) - 52 ≤ e := by
      by_cases hzero : num / den = 0
      · simp [hzero]
      · have := (Nat.log2_lt hzero).mpr hquot
        omega
    rcases he with rfl | he
    · omega
    · have hge : 2 ^ (52 + e) ≤ num / den := by
        refine Nat.le_trans ?_ ((Nat.le_div_iff_mul_le hden).mpr hlow)
        rw [Nat.pow_add]
        exact Nat.mul_le_mul_right _ he
      have hne : num / den ≠ 0 := (Nat.lt_of_lt_of_le (Nat.two_pow_pos _) hge).ne'
      have := (Nat.le_log2 hne).mpr hge
      omega
  rw [nearestMagnitude, hlog]
  rfl

/-- **Below the point halfway to the next value, no greater magnitude is the nearest.** -/
theorem nearestMagnitude_le_of_lt (h : 2 * num < (unitsOf m + unitsOf (m + 1)) * den) :
    nearestMagnitude num den ≤ m := by
  by_cases hlow : num ≤ unitsOf m * den
  · exact nearestMagnitude_le_of_le hden hlow
  obtain ⟨e, r, hm, hr, he, hunits, hnext⟩ := exists_significand m
  rw [hunits] at hlow
  rw [hunits, hnext, ← Nat.add_mul, show r + (r + 1) = 2 * r + 1 by omega, Nat.mul_right_comm, Nat.mul_assoc] at h
  have hhigh : num < (r + 1) * 2 ^ e * den := by
    have hsucc : 2 * ((r + 1) * 2 ^ e * den) = (2 * r + 1) * (den * 2 ^ e) + den * 2 ^ e := by ring
    omega
  have hround := roundHalfEven_le_of_lt (Nat.mul_pos hden (Nat.two_pow_pos e)) h
  rw [nearestMagnitude_eq hden hr he (Nat.le_of_not_le hlow) hhigh, hm]
  exact Nat.le_trans (Nat.min_le_left _ _) (Nat.add_le_add_left hround _)

/-- **Above the point halfway to the next value, a greater magnitude is the nearest.** -/
theorem lt_nearestMagnitude_of_lt (h : (unitsOf m + unitsOf (m + 1)) * den < 2 * num)
    (hm : m < infiniteMagnitude) : m < nearestMagnitude num den := by
  by_cases hhigh : unitsOf (m + 1) * den ≤ num
  · exact le_nearestMagnitude_of_le hden hhigh hm
  obtain ⟨e, r, hm', hr, he, hunits, hnext⟩ := exists_significand m
  rw [hnext] at hhigh
  rw [hunits, hnext, ← Nat.add_mul, show r + (r + 1) = 2 * r + 1 by omega, Nat.mul_right_comm, Nat.mul_assoc] at h
  have hlow : r * 2 ^ e * den ≤ num := by
    have hsucc : (2 * r + 1) * (den * 2 ^ e) = 2 * (r * 2 ^ e * den) + den * 2 ^ e := by ring
    omega
  have hround := lt_roundHalfEven_of_lt (Nat.mul_pos hden (Nat.two_pow_pos e)) h
  rw [nearestMagnitude_eq hden hr he hlow (Nat.lt_of_not_le hhigh)]
  refine Nat.lt_min.mpr ⟨?_, hm⟩
  rw [hm']
  exact Nat.add_lt_add_left hround _

end

/-! ## Quotients -/

theorem nearestMagnitude_mul_left {k : Nat} (hk : 0 < k) (num den : Nat) :
    nearestMagnitude (k * num) (k * den) = nearestMagnitude num den := by
  rw [nearestMagnitude, nearestMagnitude, Nat.mul_div_mul_left _ _ hk, Nat.mul_assoc, roundHalfEven_mul_left hk]

/-- **Equal quotients have the same nearest magnitude.** -/
theorem nearestMagnitude_congr {a b c d : Nat} (hb : 0 < b) (hd : 0 < d) (h : a * d = c * b) :
    nearestMagnitude a b = nearestMagnitude c d := by
  rw [← nearestMagnitude_mul_left hd a b, ← nearestMagnitude_mul_left hb c d, Nat.mul_comm d a, h,
    Nat.mul_comm c b, Nat.mul_comm d b]

end Binary64

end TracedIndex
