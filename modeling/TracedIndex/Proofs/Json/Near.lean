import TracedIndex.Proofs.Json.Layout

/-!
# What is read of the text of a number

The text of a finite number has the shortest digits to which the number is the nearest one. But they are read in
rounded steps, so that another number may be read, at most two places away from the one that was written.

* `Number.exists_scaled_written`: the value of the text of a magnitude, at both ends of the range too;
* `Number.ReadNear`, **`Number.exists_readNear`**: what is read of the text of a finite number;
* `Number.reread`, `Number.readsAs_reread`: the number that is read.
-/

namespace TracedIndex.Json.Number

open Binary64

/-! ## Magnitudes -/

/-- The two least magnitudes do not become zero. -/
theorem scale_written_pos {m : Nat} (hm : 0 < m) (htwo : m ≤ 2) {x : Binary64}
    (h : Literal.scale (ofInt (written m).digits) (written m).exponent = some x) : 0 < x.magnitude := by
  have hall : ∀ m ∈ [1, 2], -616 ≤ (written m).exponent ∧ (written m).exponent < -308 ∧
      (ofInt (written m).digits).isZero = false ∧
      0 < (((ofInt (written m).digits).div (Literal.powerOfTen 308)).div
        (Literal.powerOfTen ((written m).exponent + 308).natAbs)).magnitude := by decide +kernel
  obtain ⟨hlow, hhigh, hzero, hpos⟩ := hall m (by simp; omega)
  rw [Literal.scale_of_lt hzero hhigh hlow] at h
  cases h
  exact hpos

/-- The two greatest finite magnitudes do not become infinite. -/
theorem exists_scale_written_top {m : Nat} (hm : m < infiniteMagnitude) (htop : infiniteMagnitude ≤ m + 2) :
    22 < (written m).exponent ∧ ∃ x, Literal.scale (ofInt (written m).digits) (written m).exponent = some x ∧
      x.magnitude < infiniteMagnitude ∧ Literal.Near m x := by
  have hall : ∀ m ∈ [infiniteMagnitude - 2, infiniteMagnitude - 1],
      let x := (ofInt (written m).digits).mul (Literal.powerOfTen (written m).exponent.natAbs)
      22 < (written m).exponent ∧ (written m).exponent ≤ 308 ∧ x.isInfinite = false ∧
        x.magnitude < infiniteMagnitude ∧ m ≤ x.magnitude + 2 := by decide +kernel
  obtain ⟨hlow, hhigh, hne, hfinite, hge⟩ := hall m (by simp; omega)
  exact ⟨hlow, _, Literal.scale_of_nonneg _ (by omega) hhigh hne, hfinite, negative_mul _ _, by omega, hge⟩

/-- **The text of a magnitude has a value at most two places away**, neither zero nor infinite. -/
theorem exists_scaled_written {m : Nat} (hm : 0 < m) (hfinite : m < infiniteMagnitude) :
    ∃ x, Literal.scale (ofInt (written m).digits) (written m).exponent = some x ∧ Literal.Near m x ∧
      0 < x.magnitude ∧ x.magnitude < infiniteMagnitude ∧
      ((written m).digits < 2 ^ 53 → (written m).exponent.natAbs ≤ 22 → x.magnitude = m) := by
  by_cases htop : infiniteMagnitude ≤ m + 2
  · obtain ⟨hlow, x, hx, hlt, hnear⟩ := exists_scale_written_top hfinite htop
    refine ⟨x, hx, hnear, ?_, hlt, fun _ hsmall => absurd hsmall (by omega)⟩
    have := hnear.ge
    have : 4 < infiniteMagnitude := by decide
    omega
  · obtain ⟨x, hx, hnear, hexact⟩ :=
      Literal.exists_scaled (identifies_written hm hfinite) hfinite (Nat.lt_of_not_le htop)
    refine ⟨x, hx, hnear, ?_, ?_, hexact⟩
    · by_cases htwo : m ≤ 2
      · exact scale_written_pos hm htwo hx
      · have := hnear.ge
        omega
    · have := hnear.le
      omega

/-! ## Signs -/

variable {x : Binary64}

theorem eq_of_parts {x y : Binary64} (hnegative : x.negative = y.negative) (hmagnitude : x.magnitude = y.magnitude) :
    x = y := by
  rw [← ofMagnitude_negative_magnitude x, hnegative, hmagnitude, ofMagnitude_negative_magnitude]

/-- A sign put in front changes no magnitude. -/
theorem parts_of_signed {y : Binary64} (h : y.negative = false) (negative : Bool) :
    (if negative then y.neg else y).negative = negative ∧
      (if negative then y.neg else y).magnitude = y.magnitude := by
  cases negative with
  | false => exact ⟨h, rfl⟩
  | true =>
    rw [if_pos rfl, neg, negative_ofMagnitude _ y.magnitude_lt, magnitude_ofMagnitude _ y.magnitude_lt, h]
    exact ⟨rfl, rfl⟩

theorem write_of_isFinite (hx : x.isFinite) (hzero : x.isZero = false) :
    (real x).write = (if x.negative then ['-'] else []) ++ style.writeMagnitude x.magnitude := by
  have hinf : x.isInfinite = false :=
    Bool.eq_false_iff.mpr ((isFinite_iff_not_isInfinite (isNaN_of_isFinite hx)).mp hx)
  rw [write, Decimal.Style.write, isNaN_of_isFinite hx, hinf, hzero]
  simp only [Bool.false_eq_true, if_false]
  split <;> simp

/-! ## Numbers -/

/-- The text of the number `x` is that of the literal `l`, and is read as `y`: a number of the same sign, at most
two places away. -/
structure ReadNear (x : Binary64) (l : Literal) (y : Binary64) : Prop where
  text : l.Text (real x).write
  digits_lt : l.decimal.digits < UInt64.size
  exponent_le : l.decimal.exponent ≤ 308
  nearest_eq : l.decimal.nearest = x.magnitude
  read_eq : ReadsAs x y
  isFinite : y.isFinite
  isZero_eq : y.isZero = x.isZero
  negative_eq : y.negative = x.negative
  le : y.magnitude ≤ x.magnitude + 2
  ge : x.magnitude ≤ y.magnitude + 2
  eq : l.decimal.digits < 2 ^ 53 → l.decimal.exponent.natAbs ≤ 22 → y = x

/-- The text of a zero, with a sign or without, is read as this zero. -/
theorem readNear_zero (negative : Bool) : ReadNear (ofMagnitude negative 0) ⟨negative, ['0'], some ['0'], none⟩
    (ofMagnitude negative 0) where
  text := by
    have hwrite : (real (ofMagnitude negative 0)).write = (if negative then ['-'] else []) ++ ['0', '.', '0'] := by
      cases negative <;> decide +kernel
    rw [hwrite]
    exact ⟨['.', '0'], [], by simp, Literal.digits_zero, fun _ => rfl, ⟨rfl, Literal.digits_zero⟩, rfl⟩
  digits_lt := show 0 < UInt64.size by decide
  exponent_le := show (-1 : Int) ≤ 308 by decide
  nearest_eq := by cases negative <;> decide +kernel
  read_eq := by cases negative <;> decide +kernel
  isFinite := by cases negative <;> decide
  isZero_eq := rfl
  negative_eq := rfl
  le := Nat.le_add_right _ _
  ge := Nat.le_add_right _ _
  eq := fun _ _ => rfl

theorem exists_readNear_of_pos (hx : x.isFinite) (hm : 0 < x.magnitude) : ∃ l y, ReadNear x l y := by
  have hzero : x.isZero = false := beq_eq_false_iff_ne.mpr hm.ne'
  have hfinite := magnitude_lt_of_isFinite hx
  obtain ⟨l, hl⟩ := exists_literal hm hfinite
  have hd := identifies_written hm hfinite
  obtain ⟨y, hy, hnear, hpos, hlt, hexact⟩ := exists_scaled_written hm hfinite
  rw [← hl.decimal_eq] at hd hy hexact
  have hdigits : l.decimal.digits < UInt64.size := Nat.lt_of_le_of_lt hd.le_pow (by decide)
  have htext := hl.text.signed hl.negative_eq x.negative
  have hvalue := Literal.value?_signed hl.real hdigits hy x.negative
  rw [← write_of_isFinite hx hzero] at htext
  obtain ⟨hnegative, hmagnitude⟩ := parts_of_signed hnear.negative_eq x.negative
  rw [← hmagnitude] at hpos hlt hexact
  have hle := hmagnitude ▸ hnear.le
  have hge := hmagnitude ▸ hnear.ge
  generalize (if x.negative then y.neg else y) = z at hvalue hnegative hle hge hpos hlt hexact
  exact ⟨l.signed x.negative, z, {
    text := htext
    digits_lt := hdigits
    exponent_le := hd.exponent_le hfinite
    nearest_eq := hd.nearest_eq
    read_eq := read_of_text htext hvalue
    isFinite := decide_eq_true hlt
    isZero_eq := by
      rw [hzero]
      exact beq_eq_false_iff_ne.mpr hpos.ne'
    negative_eq := hnegative
    le := hle
    ge := hge
    eq := fun hsmall hexponent => eq_of_parts hnegative (hexact hsmall hexponent) }⟩

/-- **The text of a finite number is read as a finite number of the same sign**, at most two places away. -/
theorem exists_readNear (hx : x.isFinite) : ∃ l y, ReadNear x l y := by
  by_cases hm : 0 < x.magnitude
  · exact exists_readNear_of_pos hx hm
  · have hzero : x = ofMagnitude x.negative 0 := by
      rw [← Nat.eq_zero_of_not_pos hm, ofMagnitude_negative_magnitude]
    rw [hzero]
    exact ⟨_, _, readNear_zero x.negative⟩

/-- Two places away. -/
example : read (real ⟨0x5f7bc8912d0df66c⟩).write = .ok (real ⟨0x5f7bc8912d0df66e⟩, []) := by decide +kernel

/-! ## Read again -/

/-- The number that the text of a finite number is read as. -/
def reread (x : Binary64) : Binary64 :=
  match read (real x).write with
  | .ok (n, _) => n.toBinary64
  | .error _ => x

theorem reread_eq {y : Binary64} (h : ReadsAs x y) : reread x = y := by
  rw [ReadsAs] at h
  rw [reread, h]
  rfl

/-- The text of a finite number is read as a number. -/
theorem readsAs_reread (hx : x.isFinite) : ReadsAs x (reread x) := by
  obtain ⟨l, y, h⟩ := exists_readNear hx
  exact (reread_eq h.read_eq).symm ▸ h.read_eq

end TracedIndex.Json.Number
