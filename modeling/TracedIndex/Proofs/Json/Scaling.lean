import TracedIndex.Json.Number
import TracedIndex.Proofs.Binary64.Whole
import TracedIndex.Proofs.Decimal.Shortest

/-!
# The value of a literal, and the nearest one

The digits of a literal are rounded, so is the power of ten, and then so is their product or quotient. Hence the
value of a literal may be two places away from the nearest number. An exponent below `-308` takes one more
division, but the power of ten `10 ^ 308` is so near to a number that this does not lead any further away.

* `scale_of_nonneg`, `scale_of_neg`, `scale_of_lt`: the steps;
* `close_units_ofInt`, `close_units_powerOfTen`, `units_powerOfTen`: the errors of the digits and the powers;
* `close_quotient`: the error of the additional division;
* **`exists_scaled`**: at most two places, and none where digits and power are exact.
-/

namespace TracedIndex

open Binary64

namespace Binary64

/-! ## Products and quotients -/

variable {x y : Binary64} {n : Nat}

theorem magnitude_mul (x y : Binary64) : (x.mul y).magnitude = nearestMagnitude (x.units * y.units) unitsPerOne :=
  magnitude_ofMagnitude _ (Nat.lt_of_le_of_lt (nearestMagnitude_le _ _) (by decide))

theorem magnitude_div (x y : Binary64) : (x.div y).magnitude = nearestMagnitude (x.units * unitsPerOne) y.units :=
  magnitude_ofMagnitude _ (Nat.lt_of_le_of_lt (nearestMagnitude_le _ _) (by decide))

theorem negative_mul (x y : Binary64) : (x.mul y).negative = false :=
  negative_ofMagnitude _ (Nat.lt_of_le_of_lt (nearestMagnitude_le _ _) (by decide))

theorem negative_div (x y : Binary64) : (x.div y).negative = false :=
  negative_ofMagnitude _ (Nat.lt_of_le_of_lt (nearestMagnitude_le _ _) (by decide))

/-! ## Whole numbers -/

theorem magnitude_ofInt (n : Nat) : (ofInt n).magnitude = nearestMagnitude (n * unitsPerOne) 1 := by
  rw [ofInt, ofRatio, Int.natAbs_natCast]
  exact magnitude_ofMagnitude _ (Nat.lt_of_le_of_lt (nearestMagnitude_le _ _) (by decide))

theorem units_ofInt (n : Nat) : (ofInt n).units = unitsOf (nearestMagnitude (n * unitsPerOne) 1) := by
  rw [units, magnitude_ofInt]

theorem units_ofInt_of_lt (h : n < 2 ^ 53) : (ofInt n).units = n * unitsPerOne := by
  obtain ⟨m, hm, hunits⟩ := exists_unitsOf_eq h
  rw [units_ofInt, ← hunits, nearestMagnitude_unitsOf hm.le]

theorem units_pos_ofInt (h : 0 < n) : 0 < (ofInt n).units :=
  Nat.lt_of_lt_of_le unitsPerOne_pos (unitsPerOne_le_units_ofInt h)

/-- What is the value of a magnitude bounds a whole number after rounding as before. -/
theorem le_units_ofInt {m : Nat} (hm : m ≤ infiniteMagnitude) (h : unitsOf m ≤ n * unitsPerOne) :
    unitsOf m ≤ (ofInt n).units := by
  rw [units_ofInt]
  exact strictMono_unitsOf.monotone (le_nearestMagnitude_of_le Nat.one_pos (by rwa [Nat.mul_one]) hm)

theorem units_ofInt_le {m : Nat} (h : n * unitsPerOne ≤ unitsOf m) : (ofInt n).units ≤ unitsOf m := by
  rw [units_ofInt]
  exact strictMono_unitsOf.monotone (nearestMagnitude_le_of_le Nat.one_pos (by rwa [Nat.mul_one]))

theorem mul_le_units_ofInt {a : Nat} (ha : a < 2 ^ 53) (h : a ≤ n) : a * unitsPerOne ≤ (ofInt n).units := by
  obtain ⟨m, hm, hunits⟩ := exists_unitsOf_eq ha
  rw [← hunits]
  refine le_units_ofInt hm.le ?_
  rw [hunits]
  exact Nat.mul_le_mul_right _ h

/-- Whole numbers up to `10 ^ 308` are finite. -/
theorem nearestMagnitude_lt_of_le_pow {k : Nat} (hk : k ≤ 308) (h : n ≤ 10 ^ k) :
    nearestMagnitude (n * unitsPerOne) 1 < infiniteMagnitude := by
  have htop : ∀ k < 309, 10 ^ k * unitsPerOne ≤ unitsOf (infiniteMagnitude - 1) * 1 := by decide +kernel
  have hle := (Nat.mul_le_mul_right unitsPerOne h).trans (htop k (Nat.lt_succ_of_le hk))
  exact Nat.lt_of_le_of_lt (nearestMagnitude_le_of_le Nat.one_pos hle) (by decide)

theorem close_units_ofInt {k : Nat} (hk : k ≤ 308) (hpos : 0 < n) (h : n ≤ 10 ^ k) :
    Close roundingFactor (ofInt n).units (n * unitsPerOne) := by
  have hnormal : 2 ^ 52 * 1 ≤ n * unitsPerOne := by
    have hone : 2 ^ 52 * 1 ≤ unitsPerOne := by decide +kernel
    exact hone.trans (Nat.le_mul_of_pos_left _ hpos)
  have hclose := close_nearestMagnitude Nat.one_pos hnormal (nearestMagnitude_lt_of_le_pow hk h)
  rwa [Nat.cast_mul, Nat.cast_one, div_one, ← units_ofInt] at hclose

/-- The error of a whole number that has more than the least significand. -/
theorem close_units_ofInt_of_le {c e k : Nat} (hk : k ≤ 308) (h : n ≤ 10 ^ k) (hc : 2 ^ 52 ≤ c)
    (hlow : c * 2 ^ e ≤ n) (hhigh : n < 2 ^ 53 * 2 ^ e) :
    Close (1 + 1 / (2 * c)) (ofInt n).units (n * unitsPerOne) := by
  obtain ⟨j, hj⟩ : ∃ j, j = 1074 := ⟨_, rfl⟩
  have hunits (r : Nat) : r * (1 * 2 ^ (e + j)) = r * 2 ^ e * unitsPerOne := by
    rw [Nat.one_mul, Nat.pow_add, two_pow_eq_unitsPerOne hj, Nat.mul_assoc]
  have hlow : c * (1 * 2 ^ (e + j)) ≤ n * unitsPerOne := by
    rw [hunits]
    exact Nat.mul_le_mul_right _ hlow
  have hhigh : n * unitsPerOne < 2 ^ 53 * (1 * 2 ^ (e + j)) := by
    rw [hunits]
    exact Nat.mul_lt_mul_of_pos_right hhigh unitsPerOne_pos
  have hclose := close_nearestMagnitude_of_le Nat.one_pos hc hlow hhigh (nearestMagnitude_lt_of_le_pow hk h)
  rwa [Nat.cast_mul, Nat.cast_one, div_one, ← units_ofInt] at hclose

/-- Whole numbers with a significand of 53 places are values of magnitudes. -/
theorem exists_unitsOf_shifted {r : Nat} (hr : 2 ^ 52 ≤ r) (hr' : r ≤ 2 ^ 53) (e : Nat) :
    ∃ m, unitsOf m = r * 2 ^ e * unitsPerOne ∧ (e ≤ 900 → m ≤ infiniteMagnitude) := by
  obtain ⟨k, hk⟩ : ∃ k, k = 1074 := ⟨_, rfl⟩
  refine ⟨(e + k) * exponentBit + r, ?_, fun he => ?_⟩
  · rw [unitsOf_significand hr' (.inr hr), Nat.pow_add, two_pow_eq_unitsPerOne hk, Nat.mul_assoc]
  · have hbit : exponentBit = 2 ^ 52 := rfl
    have htop : infiniteMagnitude = 2047 * exponentBit := rfl
    have hle : (e + k) * exponentBit ≤ 1974 * exponentBit := Nat.mul_le_mul_right _ (by omega)
    omega

theorem units_ofInt_le_shifted {r e : Nat} (hr : 2 ^ 52 ≤ r) (hr' : r ≤ 2 ^ 53) (h : n ≤ r * 2 ^ e) :
    (ofInt n).units ≤ r * 2 ^ e * unitsPerOne := by
  obtain ⟨m, hunits, -⟩ := exists_unitsOf_shifted hr hr' e
  rw [← hunits]
  refine units_ofInt_le ?_
  rw [hunits]
  exact Nat.mul_le_mul_right _ h

theorem shifted_le_units_ofInt {r e : Nat} (hr : 2 ^ 52 ≤ r) (hr' : r ≤ 2 ^ 53) (he : e ≤ 900)
    (h : r * 2 ^ e ≤ n) : r * 2 ^ e * unitsPerOne ≤ (ofInt n).units := by
  obtain ⟨m, hunits, hm⟩ := exists_unitsOf_shifted hr hr' e
  rw [← hunits]
  refine le_units_ofInt (hm he) ?_
  rw [hunits]
  exact Nat.mul_le_mul_right _ h

end Binary64

namespace Json.Literal

/-! ## Powers of ten -/

theorem units_powerOfTen_pos (k : Nat) : 0 < (powerOfTen k).units :=
  units_pos_ofInt (Nat.pow_pos (by decide))

theorem close_units_powerOfTen {k : Nat} (h : k ≤ 308) :
    Close roundingFactor (powerOfTen k).units (10 ^ k * unitsPerOne) := by
  have hclose := close_units_ofInt h (Nat.pow_pos (by decide)) (Nat.le_refl (10 ^ k))
  have hcast : ((10 ^ k : Nat) : ℚ) = 10 ^ k := by push_cast; rfl
  rwa [hcast] at hclose

/-- Small powers of ten are exact. -/
theorem units_powerOfTen {k : Nat} (h : k ≤ 22) : (powerOfTen k).units = 10 ^ k * unitsPerOne := by
  have hall : ∀ k < 23, (powerOfTen k).units = 10 ^ k * unitsPerOne := by decide +kernel
  exact hall k (Nat.lt_succ_of_le h)

/-! ## Steps -/

variable (x : Binary64) {e : Int}

theorem scale_of_nonneg (h : 0 ≤ e) (hle : e ≤ 308) (hfinite : (x.mul (powerOfTen e.natAbs)).isInfinite = false) :
    scale x e = some (x.mul (powerOfTen e.natAbs)) := by
  have habs : e.natAbs ≤ 308 := by omega
  rw [scale, if_pos habs, if_pos h]
  simp only [hfinite]
  rfl

theorem scale_of_neg (h : e < 0) (hle : -308 ≤ e) : scale x e = some (x.div (powerOfTen e.natAbs)) := by
  have habs : e.natAbs ≤ 308 := by omega
  have hneg : ¬ 0 ≤ e := by omega
  rw [scale, if_pos habs, if_neg hneg]

theorem scale_of_lt {x : Binary64} (hx : x.isZero = false) (h : e < -308) (hle : -616 ≤ e) :
    scale x e = some ((x.div (powerOfTen 308)).div (powerOfTen (e + 308).natAbs)) := by
  have habs : ¬ e.natAbs ≤ 308 := by omega
  have hneg : ¬ 0 ≤ e := by omega
  have hzero : ¬ x.isZero := by simp [hx]
  rw [scale, if_neg habs, if_neg hzero, if_neg hneg, scale_of_neg _ (by omega) (by omega)]

/-! ## The additional division -/

/-- The power of ten that is divided by first is so near to its number that the factor is a tenth of one. -/
theorem close_units_powerOfTen_308 {k : Nat} (hk : k = 308) :
    Close (1 + 1 / (10 * 2 ^ 53)) (powerOfTen k).units (10 ^ k * unitsPerOne) := by
  have hle : 10 * 2 ^ 53 * (powerOfTen 308).units ≤ (10 * 2 ^ 53 + 1) * (10 ^ 308 * unitsPerOne) := by
    decide +kernel
  have hge : 10 * 2 ^ 53 * (10 ^ 308 * unitsPerOne) ≤ (10 * 2 ^ 53 + 1) * (powerOfTen 308).units := by
    decide +kernel
  rw [← hk] at hle hge
  constructor
  · have hle : (10 * 2 ^ 53 * (powerOfTen k).units : ℚ) ≤ (10 * 2 ^ 53 + 1) * (10 ^ k * unitsPerOne) := by
      exact_mod_cast hle
    linarith
  · have hge : (10 * 2 ^ 53 * (10 ^ k * unitsPerOne) : ℚ) ≤ (10 * 2 ^ 53 + 1) * (powerOfTen k).units := by
      exact_mod_cast hge
    linarith

/-- The errors of the digits and of the division together, beside that of the power. -/
theorem close_quotient_of {n k : Nat} (hk : k = 308) {f g : ℚ} (hf : 0 ≤ f) (hg : 0 ≤ g)
    (hdigits : Close f (ofInt n).units (n * unitsPerOne))
    (hdivision : Close g ((ofInt n).div (powerOfTen k)).units
      (((ofInt n).units * unitsPerOne : Nat) / (powerOfTen k).units))
    (hfactors : g * (f * (1 + 1 / (10 * 2 ^ 53))) ≤ roundingFactor ^ 2) :
    Close (roundingFactor ^ 2) ((ofInt n).div (powerOfTen k)).units (n / 10 ^ k * unitsPerOne) := by
  have hvalue : (0 : ℚ) ≤ n / 10 ^ k := by positivity
  have hfactor : 0 ≤ f * (1 + 1 / (10 * 2 ^ 53)) := by positivity
  have hp : (0 : ℚ) < (powerOfTen k).units := Nat.cast_pos.mpr (units_powerOfTen_pos k)
  have hquotient := hdigits.div_units cast_unitsPerOne_pos hf (Nat.cast_nonneg _) (Nat.cast_nonneg n) hp
    (by positivity) (close_units_powerOfTen_308 hk)
  rw [Nat.cast_mul] at hdivision
  exact (hdivision.trans hg hfactor hquotient).mono hfactors (Nat.cast_nonneg _)
    (mul_nonneg hvalue cast_unitsPerOne_pos.le)

/-- A small significand of the digits makes a great one of the quotient. -/
theorem le_quotient {x k e : Nat} (hk : k = 308) (h : 2 ^ 52 * 2 ^ e * unitsPerOne ≤ x) :
    7 * 2 ^ 50 * ((powerOfTen k).units * 2 ^ (e + 50)) ≤ x * unitsPerOne := by
  have hleast : 7 * 2 ^ 50 * ((powerOfTen 308).units * 2 ^ 50) ≤ 2 ^ 52 * unitsPerOne * unitsPerOne := by
    decide +kernel
  rw [← hk] at hleast
  calc 7 * 2 ^ 50 * ((powerOfTen k).units * 2 ^ (e + 50))
      = 7 * 2 ^ 50 * ((powerOfTen k).units * 2 ^ 50) * 2 ^ e := by rw [Nat.pow_add]; ring
    _ ≤ 2 ^ 52 * unitsPerOne * unitsPerOne * 2 ^ e := Nat.mul_le_mul_right _ hleast
    _ = 2 ^ 52 * 2 ^ e * unitsPerOne * unitsPerOne := by
      rw [Nat.mul_right_comm _ unitsPerOne, Nat.mul_right_comm _ unitsPerOne]
    _ ≤ x * unitsPerOne := Nat.mul_le_mul_right _ h

theorem quotient_lt {x k e : Nat} (hk : k = 308) (h : x ≤ 569 * 2 ^ 43 * 2 ^ e * unitsPerOne) :
    x * unitsPerOne < 2 ^ 53 * ((powerOfTen k).units * 2 ^ (e + 50)) := by
  have hmost : 569 * 2 ^ 43 * unitsPerOne * unitsPerOne < 2 ^ 53 * ((powerOfTen 308).units * 2 ^ 50) := by
    decide +kernel
  rw [← hk] at hmost
  calc x * unitsPerOne ≤ 569 * 2 ^ 43 * 2 ^ e * unitsPerOne * unitsPerOne := Nat.mul_le_mul_right _ h
    _ = 569 * 2 ^ 43 * unitsPerOne * unitsPerOne * 2 ^ e := by
      rw [Nat.mul_right_comm _ unitsPerOne (2 ^ e), Nat.mul_right_comm _ unitsPerOne (2 ^ e)]
    _ < 2 ^ 53 * ((powerOfTen k).units * 2 ^ 50) * 2 ^ e := Nat.mul_lt_mul_of_pos_right hmost (Nat.two_pow_pos e)
    _ = 2 ^ 53 * ((powerOfTen k).units * 2 ^ (e + 50)) := by rw [Nat.pow_add]; ring

/-- **Both divisions together cost two factors**: the digits and their quotient do not both have a small
significand. -/
theorem close_quotient {n k : Nat} (hk : k = 308) (hthree : 3 ≤ n) (hn : n ≤ 10 ^ 17) :
    Close (roundingFactor ^ 2) ((ofInt n).div (powerOfTen k)).units (n / 10 ^ k * unitsPerOne) := by
  have hpos := units_powerOfTen_pos k
  have hfinite : nearestMagnitude ((ofInt n).units * unitsPerOne) (powerOfTen k).units < infiniteMagnitude := by
    have hx : (ofInt n).isFinite := Binary64.isFinite_ofInt (k := 57) (by decide) (by omega)
    have hone : unitsPerOne ≤ (powerOfTen k).units := unitsPerOne_le_units_ofInt (Nat.pow_pos (by decide))
    rw [← magnitude_div]
    exact magnitude_lt_of_isFinite (isFinite_div hx hone)
  have hdivision : Close roundingFactor ((ofInt n).div (powerOfTen k)).units
      (((ofInt n).units * unitsPerOne : Nat) / (powerOfTen k).units) := by
    have hleast : 2 ^ 52 * (powerOfTen 308).units ≤ 3 * unitsPerOne * unitsPerOne := by decide +kernel
    rw [← hk] at hleast
    rw [units, magnitude_div]
    exact close_nearestMagnitude hpos
      (hleast.trans (Nat.mul_le_mul_right _ (mul_le_units_ofInt (by decide) hthree))) hfinite
  by_cases hsmall : n < 2 ^ 53
  · -- the digits are exact
    refine close_quotient_of hk zero_le_one roundingFactor_pos.le (.of_eq ?_) hdivision ?_
    · rw [units_ofInt_of_lt hsmall, Nat.cast_mul]
    · norm_num [roundingFactor]
  obtain ⟨e, hlow, hhigh⟩ := exists_binade (q := n) (by omega)
  by_cases hlarge : 569 * 2 ^ 43 * 2 ^ e ≤ n
  · refine close_quotient_of hk (by positivity) roundingFactor_pos.le
      (close_units_ofInt_of_le (k := 17) (by decide) hn (by decide) hlarge hhigh) hdivision ?_
    norm_num [roundingFactor]
  · have he : e < 5 := (Nat.pow_lt_pow_iff_right (by decide : 1 < 2)).mp (by omega)
    have hquotient : Close (1 + 1 / (2 * (7 * 2 ^ 50 : Nat))) ((ofInt n).div (powerOfTen k)).units
        (((ofInt n).units * unitsPerOne : Nat) / (powerOfTen k).units) := by
      rw [units, magnitude_div]
      refine close_nearestMagnitude_of_le (e := e + 50) hpos (by decide) ?_ ?_ hfinite
      · exact le_quotient hk (shifted_le_units_ofInt (by decide) (by decide) (by omega) hlow)
      · exact quotient_lt hk (units_ofInt_le_shifted (by decide) (by decide) (Nat.le_of_not_le hlarge))
    refine close_quotient_of hk roundingFactor_pos.le (by positivity)
      (close_units_ofInt (k := 17) (by decide) (by omega) hn) hquotient ?_
    norm_num [roundingFactor]

/-! ## At most two places -/

/-- A number without sign that is at most two places away from a magnitude. -/
structure Near (m : Nat) (x : Binary64) : Prop where
  negative_eq : x.negative = false
  le : x.magnitude ≤ m + 2
  ge : m ≤ x.magnitude + 2

section

variable {d : Decimal} {f g : ℚ}

/-- The errors of the digits and of the power multiply up. -/
theorem close_mul (he : 0 ≤ d.exponent) (hf : 0 ≤ f)
    (hdigits : Close f (ofInt d.digits).units (d.digits * unitsPerOne))
    (hpower : Close g (powerOfTen d.exponent.natAbs).units (10 ^ d.exponent.natAbs * unitsPerOne)) :
    Close (f * g) (((ofInt d.digits).units * (powerOfTen d.exponent.natAbs).units : Nat) / unitsPerOne)
      d.value := by
  rw [Decimal.value_of_nonneg he, Nat.cast_mul]
  exact hdigits.mul_units cast_unitsPerOne_pos hf (Nat.cast_nonneg _) (Nat.cast_nonneg _) (Nat.cast_nonneg _)
    (by positivity) hpower

theorem close_div (he : d.exponent ≤ 0) (hf : 0 ≤ f)
    (hdigits : Close f (ofInt d.digits).units (d.digits * unitsPerOne))
    (hpower : Close g (powerOfTen d.exponent.natAbs).units (10 ^ d.exponent.natAbs * unitsPerOne)) :
    Close (f * g) (((ofInt d.digits).units * unitsPerOne : Nat) / (powerOfTen d.exponent.natAbs).units)
      d.value := by
  rw [Decimal.value_of_nonpos he, Nat.cast_mul]
  exact hdigits.div_units cast_unitsPerOne_pos hf (Nat.cast_nonneg _) (Nat.cast_nonneg _)
    (Nat.cast_pos.mpr (units_powerOfTen_pos _)) (by positivity) hpower

/-- Exact digits times or divided by an exact power are rounded once only. -/
theorem magnitude_mul_exact (he : 0 ≤ d.exponent) (hdigits : d.digits < 2 ^ 53)
    (hpower : d.exponent.natAbs ≤ 22) :
    ((ofInt d.digits).mul (powerOfTen d.exponent.natAbs)).magnitude = d.nearest := by
  have hclose := close_mul (f := 1) (g := 1) he zero_le_one
    (.of_eq (by rw [units_ofInt_of_lt hdigits, Nat.cast_mul]))
    (.of_eq (by rw [units_powerOfTen hpower, Nat.cast_mul, Nat.cast_pow, Nat.cast_ofNat]))
  rw [mul_one] at hclose
  rw [magnitude_mul, Decimal.nearest_eq unitsPerOne_pos hclose.eq.symm]

theorem magnitude_div_exact (he : d.exponent ≤ 0) (hdigits : d.digits < 2 ^ 53)
    (hpower : d.exponent.natAbs ≤ 22) :
    ((ofInt d.digits).div (powerOfTen d.exponent.natAbs)).magnitude = d.nearest := by
  have hclose := close_div (f := 1) (g := 1) he zero_le_one
    (.of_eq (by rw [units_ofInt_of_lt hdigits, Nat.cast_mul]))
    (.of_eq (by rw [units_powerOfTen hpower, Nat.cast_mul, Nat.cast_pow, Nat.cast_ofNat]))
  rw [mul_one] at hclose
  rw [magnitude_div, Decimal.nearest_eq (units_powerOfTen_pos _) hclose.eq.symm]

end

section

variable {d : Decimal} {m : Nat} (h : d.Identifies m) (hfinite : m < infiniteMagnitude)

include h

/-- One or two, at the end of the subnormal numbers. -/
theorem near_div_div_of_le_two (hlt : d.exponent < -308) (htwo : d.digits ≤ 2) :
    Near m (((ofInt d.digits).div (powerOfTen 308)).div (powerOfTen (d.exponent + 308).natAbs)) := by
  have hall : ∀ n < 3, ∀ k < 17, let x := ((ofInt (n : Nat)).div (powerOfTen 308)).div (powerOfTen k)
      x.magnitude ≤ (Decimal.mk n (-308 - k)).nearest + 2 ∧
        (Decimal.mk n (-308 - k)).nearest ≤ x.magnitude + 2 := by decide +kernel
  have hd : (Decimal.mk d.digits (-308 - (d.exponent + 308).natAbs)) = d :=
    congrArg (Decimal.mk d.digits) (by omega)
  have hle := h.le_exponent
  obtain ⟨hle, hge⟩ := hall d.digits (by omega) (d.exponent + 308).natAbs (by omega)
  rw [hd, h.nearest_eq] at hle hge
  exact ⟨negative_div _ _, hle, hge⟩

include hfinite

/-- A number without sign is near if it is rounded from a value that went through two roundings before. -/
theorem near_of_close {num den : Nat} {x : Binary64} (hden : 0 < den) (hnegative : x.negative = false)
    (hx : x.magnitude = nearestMagnitude num den) (hclose : Close (roundingFactor ^ 2) (num / den) d.value) :
    Near m x := by
  obtain ⟨hle, hge⟩ := nearestMagnitude_of_close hden hfinite.le (h.nearestTo hfinite) hclose
  rw [← hx] at hle hge
  exact ⟨hnegative, hle, hge⟩

theorem near_mul (he : 0 ≤ d.exponent) : Near m ((ofInt d.digits).mul (powerOfTen d.exponent.natAbs)) := by
  have hexponent : d.exponent.natAbs ≤ 308 := by
    have := h.exponent_le hfinite
    omega
  have hclose := close_mul he roundingFactor_pos.le (close_units_ofInt (k := 17) (by decide) h.pos h.le_pow)
    (close_units_powerOfTen hexponent)
  rw [← pow_two] at hclose
  exact near_of_close h hfinite unitsPerOne_pos (negative_mul _ _) (magnitude_mul _ _) hclose

theorem near_div (he : d.exponent ≤ 0) (hle : -308 ≤ d.exponent) :
    Near m ((ofInt d.digits).div (powerOfTen d.exponent.natAbs)) := by
  have hclose := close_div he roundingFactor_pos.le (close_units_ofInt (k := 17) (by decide) h.pos h.le_pow)
    (close_units_powerOfTen (by omega))
  rw [← pow_two] at hclose
  exact near_of_close h hfinite (units_powerOfTen_pos _) (negative_div _ _) (magnitude_div _ _) hclose

theorem near_div_div (hlt : d.exponent < -308) :
    Near m (((ofInt d.digits).div (powerOfTen 308)).div (powerOfTen (d.exponent + 308).natAbs)) := by
  by_cases htwo : d.digits ≤ 2
  · exact near_div_div_of_le_two h hlt htwo
  obtain ⟨k, hk⟩ : ∃ k, k = 308 := ⟨_, rfl⟩
  have hpower := units_powerOfTen_pos (d.exponent + 308).natAbs
  have hexact : (d.exponent + 308).natAbs ≤ 22 := by
    have := h.le_exponent
    omega
  have hvalue : d.value = d.digits / 10 ^ k / 10 ^ (d.exponent + 308).natAbs * unitsPerOne := by
    have hexponent : d.exponent.natAbs = k + (d.exponent + 308).natAbs := by omega
    rw [Decimal.value_of_nonpos (by omega), div_div, ← pow_add, hexponent]
  rw [← hk]
  refine near_of_close h hfinite hpower (negative_div _ _) (magnitude_div _ _) ?_
  rw [hvalue, Nat.cast_mul, ← mul_one (_ ^ 2)]
  refine (close_quotient hk (by omega) h.le_pow).div_units cast_unitsPerOne_pos (by positivity) (Nat.cast_nonneg _)
    (by positivity) (Nat.cast_pos.mpr hpower) (by positivity) (.of_eq ?_)
  rw [units_powerOfTen hexact, Nat.cast_mul, Nat.cast_pow, Nat.cast_ofNat]

/-- **The value of a literal is at most two places away from the nearest number**, and it is the nearest number if
the digits have at most 53 binary places and the exponent is at most 22 either way. -/
theorem exists_scaled (htop : m + 2 < infiniteMagnitude) :
    ∃ x, scale (ofInt d.digits) d.exponent = some x ∧ Near m x ∧
      (d.digits < 2 ^ 53 → d.exponent.natAbs ≤ 22 → x.magnitude = m) := by
  by_cases he : 0 ≤ d.exponent
  · have hnear := near_mul h hfinite he
    have hne : ((ofInt d.digits).mul (powerOfTen d.exponent.natAbs)).isInfinite = false := by
      have := hnear.le
      rw [isInfinite, beq_eq_false_iff_ne]
      omega
    refine ⟨_, scale_of_nonneg _ he (h.exponent_le hfinite) hne, hnear, fun hdigits hpower => ?_⟩
    rw [magnitude_mul_exact he hdigits hpower, h.nearest_eq]
  by_cases hle : -308 ≤ d.exponent
  · refine ⟨_, scale_of_neg _ (by omega) hle, near_div h hfinite (by omega) hle, fun hdigits hpower => ?_⟩
    rw [magnitude_div_exact (by omega) hdigits hpower, h.nearest_eq]
  · have hzero : (ofInt d.digits).isZero = false := Bool.eq_false_iff.mpr fun hzero =>
      (units_pos_ofInt h.pos).ne' (units_eq_zero_iff.mpr hzero)
    have := h.le_exponent
    exact ⟨_, scale_of_lt hzero (by omega) (by omega), near_div_div h hfinite (by omega), by omega⟩

end

end Json.Literal

end TracedIndex
