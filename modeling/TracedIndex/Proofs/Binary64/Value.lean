import Mathlib.Algebra.Order.Field.Basic
import Mathlib.Algebra.Order.Field.Rat
import Mathlib.Algebra.Order.Ring.Cast
import Mathlib.Order.WithBot
import TracedIndex.Proofs.Binary64.Rounding

/-!
# The values of binary64 numbers

A finite number is a rational one, and the infinities are the ends of the number line. Whole units of
`2 ^ -1074` compare as these values do, since no finite number has as many units as an infinity is given.

* `value`: the value of a number other than NaN;
* `value_cases`: the three kinds of values, with their units;
* **`compare_value`**: comparison by values is comparison by units.
-/

namespace TracedIndex.Binary64

/-- The value of a number other than NaN. -/
def value (x : Binary64) : WithBot (WithTop ℚ) :=
  if x.isInfinite then if x.negative then ⊥ else ⊤
  else ((x.signedUnits / unitsPerOne : ℚ) : WithTop ℚ)

variable {x y : Binary64}

theorem units_of_isInfinite (h : x.isInfinite) : x.units = unitsOf infiniteMagnitude := by
  rw [units, beq_iff_eq.mp h]

theorem units_lt_of_isFinite (h : x.isFinite) : x.units < unitsOf infiniteMagnitude :=
  unitsOf_lt_unitsOf_iff.mpr (of_decide_eq_true h)

/-- A number other than NaN is one of the infinities, or it is between them. -/
theorem value_cases (hx : x.isNaN = false) :
    x.value = ⊥ ∧ x.signedUnits = -unitsOf infiniteMagnitude ∨
    x.value = ⊤ ∧ x.signedUnits = unitsOf infiniteMagnitude ∨
    x.value = ((x.signedUnits / unitsPerOne : ℚ) : WithTop ℚ) ∧
      -unitsOf infiniteMagnitude < x.signedUnits ∧ x.signedUnits < unitsOf infiniteMagnitude := by
  unfold value
  by_cases hinf : x.isInfinite
  · have hunits := units_of_isInfinite hinf
    rw [if_pos hinf, signedUnits, hunits]
    cases x.negative
    · exact .inr (.inl ⟨rfl, rfl⟩)
    · exact .inl ⟨rfl, rfl⟩
  · have hunits := units_lt_of_isFinite ((isFinite_iff_not_isInfinite hx).mpr hinf)
    rw [if_neg hinf]
    refine .inr (.inr ⟨rfl, ?_⟩)
    unfold signedUnits
    split <;> omega

theorem value_lt_value_iff (hx : x.isNaN = false) (hy : y.isNaN = false) :
    x.value < y.value ↔ x.signedUnits < y.signedUnits := by
  have hunits : (0 : ℚ) < unitsPerOne := Nat.cast_pos.mpr unitsPerOne_pos
  have hpos : 0 < unitsOf infiniteMagnitude :=
    Nat.pos_of_ne_zero (mt unitsOf_eq_zero_iff.mp (by decide))
  rcases value_cases hx with ⟨hxv, hx⟩ | ⟨hxv, hx⟩ | ⟨hxv, hxl, hxu⟩ <;>
    rcases value_cases hy with ⟨hyv, hy⟩ | ⟨hyv, hy⟩ | ⟨hyv, hyl, hyu⟩ <;> rw [hxv, hyv]
  -- minus infinity on the left
  · exact iff_of_false (lt_irrefl _) (by omega)
  · exact iff_of_true bot_lt_top (by omega)
  · exact iff_of_true (WithBot.bot_lt_coe _) (by omega)
  -- infinity on the left
  · exact iff_of_false not_lt_bot (by omega)
  · exact iff_of_false (lt_irrefl _) (by omega)
  · exact iff_of_false not_top_lt (by omega)
  -- a finite number on the left
  · exact iff_of_false not_lt_bot (by omega)
  · exact iff_of_true (WithBot.coe_lt_coe.mpr (WithTop.coe_lt_top _)) (by omega)
  · rw [WithBot.coe_lt_coe, WithTop.coe_lt_coe, div_lt_div_iff_of_pos_right hunits, Int.cast_lt]

/-- **Numbers compare by their values as by their units.** -/
theorem compare_value (hx : x.isNaN = false) (hy : y.isNaN = false) :
    compare x.value y.value = compare x.signedUnits y.signedUnits :=
  compare_eq_compare (value_lt_value_iff hx hy) (value_lt_value_iff hy hx)

end TracedIndex.Binary64
