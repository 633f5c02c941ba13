import Mathlib.Algebra.Order.Field.Basic
import Mathlib.Algebra.Order.Field.Rat
import Mathlib.Algebra.Order.Ring.Cast
import Mathlib.Tactic.FieldSimp
import Mathlib.Tactic.Linarith
import Mathlib.Tactic.Positivity
import TracedIndex.Proofs.Binary64.Nearest

/-!
# Rounding errors

Rounding to a magnitude changes a value by a factor of at most `1 + 2 ^ -53` either way, unless the value is
below the normal ones, and by a lesser factor if its significand is greater than the least one. Such factors
multiply up through products and quotients, and each of them moves a value by less than the way from one
halfway point to the next. So a value that went through some roundings has a nearest magnitude at most as many
places away.

* `Close`: values up to a factor; `Close.mul`, `Close.div`: products and quotients;
* `halfway`, `NearestTo`: the points between two values, and the magnitudes nearest to a value;
* **`nearestMagnitude_of_close`**: each factor moves the nearest magnitude by one place at most;
* **`close_nearestMagnitude`**: one rounding costs one factor; `close_nearestMagnitude_of_le`: a lesser one.
-/

namespace TracedIndex.Binary64

/-! ## Factors -/

/-- The greatest factor by which rounding changes a value. -/
def roundingFactor : ℚ := 1 + 1 / 2 ^ 53

theorem roundingFactor_pos : 0 < roundingFactor := by norm_num [roundingFactor]

theorem cast_unitsPerOne_pos : (0 : ℚ) < unitsPerOne := Nat.cast_pos.mpr unitsPerOne_pos

/-- The values are the same up to a factor, either way. -/
structure Close (f a b : ℚ) : Prop where
  le : a ≤ f * b
  ge : b ≤ f * a

namespace Close

variable {f g a b c d : ℚ}

theorem of_eq (h : a = b) : Close 1 a b := by
  subst h
  constructor <;> simp

theorem eq (h : Close 1 a b) : a = b := le_antisymm (by simpa using h.le) (by simpa using h.ge)

theorem mono (h : Close f a b) (hfg : f ≤ g) (ha : 0 ≤ a) (hb : 0 ≤ b) : Close g a b where
  le := h.le.trans (mul_le_mul_of_nonneg_right hfg hb)
  ge := h.ge.trans (mul_le_mul_of_nonneg_right hfg ha)

theorem mul (hf : 0 ≤ f) (ha : 0 ≤ a) (hb : 0 ≤ b) (hc : 0 ≤ c) (hd : 0 ≤ d) (h : Close f a b)
    (h' : Close g c d) : Close (f * g) (a * c) (b * d) := by
  constructor
  · calc a * c ≤ f * b * (g * d) := mul_le_mul h.le h'.le hc (by positivity)
      _ = f * g * (b * d) := by ring
  · calc b * d ≤ f * a * (g * c) := mul_le_mul h.ge h'.ge hd (by positivity)
      _ = f * g * (a * c) := by ring

theorem inv (ha : 0 < a) (hb : 0 < b) (h : Close f a b) : Close f a⁻¹ b⁻¹ := by
  constructor
  · rw [← div_eq_mul_inv, le_div_iff₀ hb, inv_mul_le_iff₀ ha, mul_comm]
    exact h.ge
  · rw [← div_eq_mul_inv, le_div_iff₀ ha, inv_mul_le_iff₀ hb, mul_comm]
    exact h.le

theorem div (hf : 0 ≤ f) (ha : 0 ≤ a) (hb : 0 ≤ b) (hc : 0 < c) (hd : 0 < d) (h : Close f a b)
    (h' : Close g c d) : Close (f * g) (a / c) (b / d) := by
  rw [div_eq_mul_inv, div_eq_mul_inv]
  exact h.mul hf ha hb (inv_nonneg.mpr hc.le) (inv_nonneg.mpr hd.le) (h'.inv hc hd)

/-- The values may be counted in other units. -/
theorem mul_right (hc : 0 ≤ c) (h : Close f a b) : Close f (a * c) (b * c) where
  le := by
    rw [← mul_assoc]
    exact mul_le_mul_of_nonneg_right h.le hc
  ge := by
    rw [← mul_assoc]
    exact mul_le_mul_of_nonneg_right h.ge hc

theorem trans (hf : 0 ≤ f) (hg : 0 ≤ g) (h : Close f a b) (h' : Close g b c) : Close (f * g) a c := by
  constructor
  · calc a ≤ f * b := h.le
      _ ≤ f * (g * c) := mul_le_mul_of_nonneg_left h'.le hf
      _ = f * g * c := by ring
  · calc c ≤ g * b := h'.ge
      _ ≤ g * (f * a) := mul_le_mul_of_nonneg_left h.ge hg
      _ = f * g * a := by ring

/-- Products and quotients of values that are counted in units. -/
theorem mul_units {w : ℚ} (hw : 0 < w) (hf : 0 ≤ f) (ha : 0 ≤ a) (hb : 0 ≤ b) (hc : 0 ≤ c) (hd : 0 ≤ d)
    (h : Close f a (b * w)) (h' : Close g c (d * w)) : Close (f * g) (a * c / w) (b * d * w) := by
  have hexact : b * d * w = b * w * (d * w) / w := by field_simp
  rw [hexact, div_eq_mul_inv, div_eq_mul_inv]
  exact (h.mul hf ha (by positivity) hc (by positivity) h').mul_right (inv_nonneg.mpr hw.le)

theorem div_units {w : ℚ} (hw : 0 < w) (hf : 0 ≤ f) (ha : 0 ≤ a) (hb : 0 ≤ b) (hc : 0 < c) (hd : 0 < d)
    (h : Close f a (b * w)) (h' : Close g c (d * w)) : Close (f * g) (a * w / c) (b / d * w) := by
  have hexact : b / d * w = b * w / (d * w) * w := by field_simp
  rw [hexact, mul_div_right_comm]
  exact (h.div hf ha (by positivity) hc (by positivity) h').mul_right hw.le

end Close

/-! ## Halfway points -/

/-- The point halfway between the values of a magnitude and of the next one. -/
def halfway (m : Nat) : ℚ := (unitsOf m + unitsOf (m + 1)) / 2

/-- No other magnitude has a value nearer to `v`. -/
structure NearestTo (m : Nat) (v : ℚ) : Prop where
  le : v ≤ halfway m
  ge : ∀ k, m = k + 1 → halfway k ≤ v

variable {num den m : Nat} (hden : 0 < den)

include hden

/-- A quotient is rounded to a magnitude that is nearest to it. -/
theorem nearestTo_nearestMagnitude (h : nearestMagnitude num den < infiniteMagnitude) :
    NearestTo (nearestMagnitude num den) (num / den) where
  le := by
    have hle := mt (fun hlt => lt_nearestMagnitude_of_lt hden hlt h) (Nat.lt_irrefl _)
    generalize nearestMagnitude num den = m at hle ⊢
    have hcast : (2 * num : ℚ) ≤ (unitsOf m + unitsOf (m + 1)) * den := by exact_mod_cast Nat.not_lt.mp hle
    rw [halfway, div_le_iff₀ (Nat.cast_pos.mpr hden)]
    linarith
  ge := by
    intro k hk
    have hlt : ¬ nearestMagnitude num den ≤ k := by omega
    have hle := mt (nearestMagnitude_le_of_lt hden) hlt
    have hcast : ((unitsOf k + unitsOf (k + 1)) * den : ℚ) ≤ 2 * num := by exact_mod_cast Nat.not_lt.mp hle
    rw [halfway, le_div_iff₀ (Nat.cast_pos.mpr hden)]
    linarith

theorem nearestMagnitude_le_of_lt_halfway (h : (num / den : ℚ) < halfway m) : nearestMagnitude num den ≤ m := by
  refine nearestMagnitude_le_of_lt hden ?_
  rw [halfway, div_lt_iff₀ (Nat.cast_pos.mpr hden)] at h
  have hcast : (2 * num : ℚ) < (unitsOf m + unitsOf (m + 1)) * den := by linarith
  exact_mod_cast hcast

theorem lt_nearestMagnitude_of_halfway_lt (h : halfway m < (num / den : ℚ)) (hm : m < infiniteMagnitude) :
    m < nearestMagnitude num den := by
  refine lt_nearestMagnitude_of_lt hden ?_ hm
  rw [halfway, lt_div_iff₀ (Nat.cast_pos.mpr hden)] at h
  have hcast : ((unitsOf m + unitsOf (m + 1)) * den : ℚ) < 2 * num := by linarith
  exact_mod_cast hcast

omit hden

/-- **A factor moves less than from one halfway point to the next.** -/
theorem mul_halfway_lt (m : Nat) : roundingFactor * halfway m < halfway (m + 1) := by
  obtain ⟨e, r, hm, hr, he, hunits, hnext⟩ := exists_significand m
  have htwo : ((r + 2) * 2 ^ e : ℚ) ≤ unitsOf (m + 1 + 1) := by
    have := le_unitsOf_add_two hr he
    rw [← hm] at this
    exact_mod_cast this
  have hstep : roundingFactor * (2 * r + 1) < 2 * r + 3 := by
    have hr : (r + 1 : ℚ) ≤ 2 ^ 53 := by exact_mod_cast hr
    rw [roundingFactor]
    linarith
  rw [halfway, halfway, hunits, hnext]
  push_cast
  calc roundingFactor * ((r * 2 ^ e + (r + 1) * 2 ^ e) / 2) = roundingFactor * (2 * r + 1) * 2 ^ e / 2 := by ring
    _ < (2 * r + 3) * 2 ^ e / 2 := by gcongr
    _ ≤ ((r + 1) * 2 ^ e + unitsOf (m + 1 + 1)) / 2 := by linarith

theorem pow_mul_halfway_lt (j m : Nat) : roundingFactor ^ (j + 1) * halfway m < halfway (m + (j + 1)) := by
  induction j with
  | zero => simpa using mul_halfway_lt m
  | succ j ih =>
    calc roundingFactor ^ (j + 1 + 1) * halfway m = roundingFactor * (roundingFactor ^ (j + 1) * halfway m) := by ring
      _ < roundingFactor * halfway (m + (j + 1)) := mul_lt_mul_of_pos_left ih roundingFactor_pos
      _ < halfway (m + (j + 1) + 1) := mul_halfway_lt _

/-- **Each factor moves the nearest magnitude by one place at most.** -/
theorem nearestMagnitude_of_close {num den m j : Nat} (hden : 0 < den) (hm : m ≤ infiniteMagnitude) {v : ℚ}
    (h : NearestTo m v) (hclose : Close (roundingFactor ^ (j + 1)) (num / den) v) :
    nearestMagnitude num den ≤ m + (j + 1) ∧ m ≤ nearestMagnitude num den + (j + 1) := by
  have hpow : 0 < roundingFactor ^ (j + 1) := pow_pos roundingFactor_pos _
  constructor
  · refine nearestMagnitude_le_of_lt_halfway hden ?_
    calc (num / den : ℚ) ≤ roundingFactor ^ (j + 1) * v := hclose.le
      _ ≤ roundingFactor ^ (j + 1) * halfway m := mul_le_mul_of_nonneg_left h.le hpow.le
      _ < halfway (m + (j + 1)) := pow_mul_halfway_lt j m
  · by_cases hsmall : m ≤ j + 1
    · omega
    obtain ⟨k, rfl⟩ : ∃ k, m = k + (j + 1) + 1 := ⟨m - (j + 1) - 1, by omega⟩
    have hlt : k < nearestMagnitude num den := by
      refine lt_nearestMagnitude_of_halfway_lt hden ?_ (by omega)
      have hmul : roundingFactor ^ (j + 1) * halfway k < roundingFactor ^ (j + 1) * (num / den) :=
        calc roundingFactor ^ (j + 1) * halfway k < halfway (k + (j + 1)) := pow_mul_halfway_lt j k
          _ ≤ v := h.ge _ rfl
          _ ≤ roundingFactor ^ (j + 1) * (num / den) := hclose.ge
      exact lt_of_mul_lt_mul_left hmul hpow.le
    omega

/-! ## One rounding -/

/-- **A value with a significand of `c` or more is changed by half a place at most.** -/
theorem close_nearestMagnitude_of_le {num den c e : Nat} (hden : 0 < den) (hc : 2 ^ 52 ≤ c)
    (hlow : c * (den * 2 ^ e) ≤ num) (hhigh : num < 2 ^ 53 * (den * 2 ^ e))
    (hfinite : nearestMagnitude num den < infiniteMagnitude) :
    Close (1 + 1 / (2 * c)) (unitsOf (nearestMagnitude num den)) (num / den) := by
  have hstep : 0 < den * 2 ^ e := Nat.mul_pos hden (Nat.two_pow_pos e)
  have hcn : c ≤ roundHalfEven num (den * 2 ^ e) := le_roundHalfEven hstep hlow
  have hunits : unitsOf (nearestMagnitude num den) = roundHalfEven num (den * 2 ^ e) * 2 ^ e := by
    have hr : num / (den * 2 ^ e) < 2 ^ 53 := (Nat.div_lt_iff_lt_mul hstep).mpr hhigh
    have hcr : 2 ^ 52 ≤ num / (den * 2 ^ e) := hc.trans ((Nat.le_div_iff_mul_le hstep).mpr hlow)
    have hbelow : num / (den * 2 ^ e) * 2 ^ e * den ≤ num := by
      rw [Nat.mul_assoc, Nat.mul_comm (2 ^ e)]
      exact Nat.div_mul_le_self _ _
    have habove : num < (num / (den * 2 ^ e) + 1) * 2 ^ e * den := by
      rw [Nat.mul_assoc, Nat.mul_comm (2 ^ e)]
      exact Nat.lt_mul_of_div_lt (Nat.lt_succ_self _) hstep
    have heq := nearestMagnitude_eq hden hr (.inr hcr) hbelow habove
    rw [heq] at hfinite ⊢
    rw [Nat.min_eq_left (Nat.lt_of_not_le fun h => (Nat.min_eq_right h ▸ hfinite).false).le]
    exact unitsOf_significand (roundHalfEven_le hstep hhigh.le) (.inr (hc.trans hcn))
  obtain ⟨hup, hdown⟩ := roundHalfEven_half num hstep
  rw [hunits]
  generalize roundHalfEven num (den * 2 ^ e) = n at hcn hup hdown
  -- in steps of one place
  have hpos : (0 : ℚ) < 2 ^ e := by positivity
  have hd : (0 : ℚ) < den := Nat.cast_pos.mpr hden
  have hcpos : (0 : ℚ) < c := Nat.cast_pos.mpr (Nat.lt_of_lt_of_le (by decide) hc)
  have hcn : (c : ℚ) ≤ n := Nat.cast_le.mpr hcn
  obtain ⟨v, hv⟩ : ∃ v : ℚ, (num / den : ℚ) = v * 2 ^ e := ⟨num / den / 2 ^ e, by field_simp⟩
  have hnum : (num : ℚ) = v * (den * 2 ^ e) := by
    rw [div_eq_iff hd.ne'] at hv
    rw [hv]
    ring
  have hstep : (0 : ℚ) < den * 2 ^ e := mul_pos hd hpos
  have hlow : (c : ℚ) ≤ v := by
    have : (c * (den * 2 ^ e) : ℚ) ≤ num := by exact_mod_cast hlow
    rw [hnum] at this
    exact le_of_mul_le_mul_right this hstep
  have hup : 2 * v ≤ 2 * n + 1 := by
    have : (2 * num : ℚ) ≤ 2 * (n * (den * 2 ^ e)) + den * 2 ^ e := by exact_mod_cast hup
    rw [hnum] at this
    refine le_of_mul_le_mul_right ?_ hstep
    linarith
  have hdown : 2 * n ≤ 2 * v + 1 := by
    have : (2 * (n * (den * 2 ^ e)) : ℚ) ≤ 2 * num + den * 2 ^ e := by exact_mod_cast hdown
    rw [hnum] at this
    refine le_of_mul_le_mul_right ?_ hstep
    linarith
  rw [hv]
  push_cast
  have hhalf {x : ℚ} (hx : (c : ℚ) ≤ x) : x + 1 / 2 ≤ (1 + 1 / (2 * c)) * x := by
    have : 1 / 2 ≤ 1 / (2 * c) * x := by
      rw [one_div_mul_eq_div, le_div_iff₀ (by positivity)]
      linarith
    linarith
  constructor
  · rw [← mul_assoc]
    exact mul_le_mul_of_nonneg_right (by linarith [hhalf hlow]) hpos.le
  · rw [← mul_assoc]
    exact mul_le_mul_of_nonneg_right (by linarith [hhalf hcn]) hpos.le

/-- A whole number of at least 53 places is between two powers of two. -/
theorem exists_binade {q : Nat} (h : 2 ^ 52 ≤ q) : ∃ e, 2 ^ 52 * 2 ^ e ≤ q ∧ q < 2 ^ 53 * 2 ^ e := by
  have hne : q ≠ 0 := (Nat.lt_of_lt_of_le (by decide) h).ne'
  obtain ⟨e, he⟩ := Nat.exists_eq_add_of_le ((Nat.le_log2 hne).mpr h)
  have hlow := Nat.log2_self_le hne
  have hhigh := Nat.lt_log2_self (n := q)
  rw [he, Nat.pow_add] at hlow
  rw [he, Nat.add_right_comm, Nat.pow_add] at hhigh
  exact ⟨e, hlow, hhigh⟩

/-- **One rounding costs one factor**, from the least normal value on. -/
theorem close_nearestMagnitude {num den : Nat} (hden : 0 < den) (hnormal : 2 ^ 52 * den ≤ num)
    (hfinite : nearestMagnitude num den < infiniteMagnitude) :
    Close roundingFactor (unitsOf (nearestMagnitude num den)) (num / den) := by
  have hfactor : roundingFactor = 1 + 1 / (2 * (2 ^ 52 : Nat)) := by norm_num [roundingFactor]
  obtain ⟨e, hlow, hhigh⟩ := exists_binade ((Nat.le_div_iff_mul_le hden).mpr hnormal)
  rw [Nat.le_div_iff_mul_le hden, Nat.mul_assoc, Nat.mul_comm _ den] at hlow
  rw [Nat.div_lt_iff_lt_mul hden, Nat.mul_assoc, Nat.mul_comm _ den] at hhigh
  exact hfactor ▸ close_nearestMagnitude_of_le hden (Nat.le_refl _) hlow hhigh hfinite

end TracedIndex.Binary64
