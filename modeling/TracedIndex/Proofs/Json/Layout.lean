import TracedIndex.Proofs.Json.Scaling
import TracedIndex.Proofs.Json.Written

/-!
# Numbers as literals

The text of a binary64 number is that of a literal with a fraction or an exponent. Its digits, taken together as one
whole number, and its exponent are the shortest decimal of the number, except that a whole number has one more
zero, which stands behind the point.

* `Literal.decimal`: the decimal that a literal writes;
* `Literal.value?_eq`: the value of a literal is this decimal scaled;
* `written`: the decimal in the text of a magnitude; `identifies_written`: it reads back;
* **`exists_literal`**: the text of a magnitude is that of a literal which writes this decimal.
-/

namespace TracedIndex.Json

open Binary64

namespace Literal

/-! ## Values -/

theorem natOf_append (ds es : List Char) :
    natOf (ds ++ es) = es.foldl (fun n c => n * 10 + digit c) (natOf ds) := List.foldl_append

theorem natOf_le_natOf_append (ds es : List Char) : natOf ds ≤ natOf (ds ++ es) := by
  rw [natOf_append]
  exact le_foldl_digits _ es

theorem natOf_append_zeros (ds : List Char) (k : Nat) :
    natOf (ds ++ List.replicate k '0') = natOf ds * 10 ^ k := by
  induction k with
  | zero => simp
  | succ k ih =>
    rw [List.replicate_succ', ← List.append_assoc, natOf_append, ih, Nat.pow_succ, ← Nat.mul_assoc]
    rfl

theorem natOf_zeros_append (k : Nat) (ds : List Char) : natOf (List.replicate k '0' ++ ds) = natOf ds := by
  induction k with
  | zero => rfl
  | succ k ih => exact ih

/-- The decimal that a literal writes: all its digits as one whole number, times a power of ten. -/
def decimal (l : Literal) : Decimal where
  digits := natOf (l.whole ++ l.fraction.getD [])
  exponent := l.exponentValue - (l.fraction.getD []).length

/-- **The value of a literal with a fraction or an exponent is its decimal scaled**, if its digits fit a word. -/
theorem value?_eq {l : Literal} (hreal : l.fraction.isSome ∨ l.exponent.isSome)
    (h : l.decimal.digits < UInt64.size) : l.value? =
      (scale (.ofInt l.decimal.digits) l.decimal.exponent).map
        fun x => .real (if l.negative then x.neg else x) := by
  have hwhole : absorb 0 l.whole = (natOf l.whole, 0) :=
    absorb_eq 0 (Nat.lt_of_le_of_lt (natOf_le_natOf_append _ _) h)
  have hall : absorb (natOf l.whole) (l.fraction.getD []) = (l.decimal.digits, 0) := by
    rw [decimal, natOf_append] at h ⊢
    exact absorb_eq _ h
  have hnot : ¬ (l.fraction.isNone ∧ l.exponent.isNone ∧ 0 = 0) := by
    rintro ⟨hfraction, hexponent, -⟩
    rcases hreal with hsome | hsome <;> simp_all
  have hexponent : ((0 : Nat) : Int) - ((l.fraction.getD []).length - 0 : Nat) + l.exponentValue =
      l.decimal.exponent := by
    simp only [decimal]
    omega
  rw [value?, hwhole]
  dsimp only
  rw [if_neg hnot, hall, hexponent]

/-! ## Signs -/

/-- The literal with a sign or without. -/
def signed (l : Literal) (negative : Bool) : Literal := { l with negative }

theorem decimal_signed (l : Literal) (negative : Bool) : (l.signed negative).decimal = l.decimal := rfl

theorem Text.signed {l : Literal} {text : List Char} (hl : l.negative = false) (h : l.Text text)
    (negative : Bool) : (l.signed negative).Text ((if negative then ['-'] else []) ++ text) := by
  obtain ⟨fraction, exponent, rfl, hwhole, hzero, hfraction, hexponent⟩ := h
  refine ⟨fraction, exponent, ?_, hwhole, hzero, hfraction, hexponent⟩
  rw [hl]
  rw [if_neg Bool.false_ne_true, List.nil_append, List.append_assoc, List.append_assoc, List.append_assoc]
  rfl

theorem value?_signed {l : Literal} (hreal : l.fraction.isSome ∨ l.exponent.isSome)
    (h : l.decimal.digits < UInt64.size) {x : Binary64}
    (hx : scale (.ofInt l.decimal.digits) l.decimal.exponent = some x) (negative : Bool) :
    (l.signed negative).value? = some (.real (if negative then x.neg else x)) := by
  rw [value?_eq (l := l.signed negative) hreal h, decimal_signed, hx]
  rfl

/-! ## Layouts -/

/-- The text is that of a literal without sign, with a fraction or an exponent, which writes the decimal. -/
structure Writes (l : Literal) (text : List Char) (d : Decimal) : Prop where
  negative_eq : l.negative = false
  text : l.Text text
  real : l.fraction.isSome ∨ l.exponent.isSome
  decimal_eq : l.decimal = d

variable {n : Nat}

theorem digits_zero : Digits ['0'] := ⟨nofun, List.forall_mem_singleton.mpr rfl⟩

theorem all_isDigit_replicate (k : Nat) : ∀ c ∈ List.replicate k '0', isDigit c := fun c hc => by
  rw [List.eq_of_mem_replicate hc]
  rfl

/-- A whole number, with one more zero behind the point. -/
theorem writes_whole (hn : 0 < n) (k : Nat) : (Literal.mk false (Nat.toDigits 10 n ++ List.replicate k '0')
    (some ['0']) none).Writes (Nat.toDigits 10 n ++ List.replicate k '0' ++ ['.', '0'])
      ⟨n * 10 ^ (k + 1), -1⟩ where
  negative_eq := rfl
  text := by
    refine ⟨['.', '0'], [], by simp, ⟨?_, ?_⟩, fun hhead => ?_, ⟨rfl, digits_zero⟩, rfl⟩
    · exact fun h => Nat.toDigits_ne_nil (List.append_eq_nil_iff.mp h).1
    · exact fun c hc => (List.mem_append.mp hc).elim (all_isDigit_toDigits n c) (all_isDigit_replicate k c)
    · rw [List.head?_append_of_ne_nil _ Nat.toDigits_ne_nil] at hhead
      exact absurd (head?_toDigits n hhead) hn.ne'
  real := .inl rfl
  decimal_eq := by
    have hdigits : natOf (Nat.toDigits 10 n ++ List.replicate k '0' ++ ['0']) = n * 10 ^ (k + 1) := by
      rw [List.append_assoc, ← List.replicate_succ', natOf_append_zeros, natOf_toDigits]
    exact congrArg (Decimal.mk · (-1)) hdigits

/-- The point among the digits. -/
theorem writes_point (hn : 0 < n) {places : Nat} (hpos : 0 < places) (h : places < (Nat.toDigits 10 n).length) :
    (Literal.mk false ((Nat.toDigits 10 n).take ((Nat.toDigits 10 n).length - places))
      (some ((Nat.toDigits 10 n).drop ((Nat.toDigits 10 n).length - places))) none).Writes
      ((Nat.toDigits 10 n).take ((Nat.toDigits 10 n).length - places) ++
        '.' :: (Nat.toDigits 10 n).drop ((Nat.toDigits 10 n).length - places)) ⟨n, -places⟩ where
  negative_eq := rfl
  text := by
    have htake : (Nat.toDigits 10 n).take ((Nat.toDigits 10 n).length - places) ≠ [] := by
      rw [← List.length_pos_iff, List.length_take]
      omega
    have hdrop : (Nat.toDigits 10 n).drop ((Nat.toDigits 10 n).length - places) ≠ [] := by
      rw [← List.length_pos_iff, List.length_drop]
      omega
    refine ⟨_, [], (by simp), ⟨htake, fun c hc => all_isDigit_toDigits n c (List.mem_of_mem_take hc)⟩,
      fun hhead => ?_, ⟨rfl, hdrop, fun c hc => all_isDigit_toDigits n c (List.mem_of_mem_drop hc)⟩, rfl⟩
    rw [List.head?_take, if_neg (by omega)] at hhead
    exact absurd (head?_toDigits n hhead) hn.ne'
  real := .inl rfl
  decimal_eq := by
    simp only [decimal, exponentValue, Option.getD_some, List.take_append_drop, natOf_toDigits, List.length_drop,
      Decimal.mk.injEq, true_and]
    omega

/-- The point before all digits, perhaps with zeros behind it. -/
theorem writes_zeros {places : Nat} (h : (Nat.toDigits 10 n).length ≤ places) :
    (Literal.mk false ['0'] (some (List.replicate (places - (Nat.toDigits 10 n).length) '0' ++ Nat.toDigits 10 n))
      none).Writes ('0' :: '.' :: (List.replicate (places - (Nat.toDigits 10 n).length) '0' ++ Nat.toDigits 10 n))
      ⟨n, -places⟩ where
  negative_eq := rfl
  text := by
    refine ⟨_, [], (by simp), digits_zero, fun _ => rfl, ⟨rfl, ?_, ?_⟩, rfl⟩
    · exact fun h => Nat.toDigits_ne_nil (List.append_eq_nil_iff.mp h).2
    · exact fun c hc => (List.mem_append.mp hc).elim (all_isDigit_replicate _ c) (all_isDigit_toDigits n c)
  real := .inl rfl
  decimal_eq := by
    have hdigits (k : Nat) : natOf (['0'] ++ (List.replicate k '0' ++ Nat.toDigits 10 n)) = n :=
      (natOf_zeros_append (k + 1) _).trans (natOf_toDigits n)
    simp only [decimal, exponentValue, Option.getD_some, hdigits, List.length_append, List.length_replicate,
      Decimal.mk.injEq, true_and]
    omega

theorem exponentText_writeExponent (first : Int) :
    ExponentText (some (decide (first < 0), Nat.toDigits 10 first.natAbs))
      ('e' :: (if first < 0 then '-' else '+') :: Nat.toDigits 10 first.natAbs) := by
  refine ⟨'e', [if first < 0 then '-' else '+'], rfl, .inl rfl, ?_, digits_toDigits _⟩
  by_cases h : first < 0 <;> simp [h]

theorem exponentValue_toDigits (negative : Bool) (whole : List Char) (fraction : Option (List Char))
    (first : Int) : exponentValue ⟨negative, whole, fraction,
      some (decide (first < 0), Nat.toDigits 10 first.natAbs)⟩ = first := by
  simp only [exponentValue, natOf_toDigits, decide_eq_true_eq]
  omega

/-- The point behind the first digit, if there are others, and an exponent. -/
theorem exists_writes_exponent {d : Decimal} (hn : 0 < d.digits) : ∃ l : Literal,
    l.Writes (Decimal.Style.writeExponent d ((Nat.toDigits 10 d.digits).length + d.exponent - 1)) d := by
  obtain ⟨c, cs, hcs⟩ := List.exists_cons_of_ne_nil (Nat.toDigits_ne_nil (b := 10) (n := d.digits))
  have hdigit : ∀ a ∈ c :: cs, isDigit a := hcs ▸ all_isDigit_toDigits d.digits
  have hnat : natOf (c :: cs) = d.digits := hcs ▸ natOf_toDigits d.digits
  have hzero : c ≠ '0' := by
    rintro rfl
    exact hn.ne' (head?_toDigits _ (hcs ▸ rfl))
  have hwhole : Digits [c] := ⟨nofun, List.forall_mem_singleton.mpr (hdigit c List.mem_cons_self)⟩
  obtain ⟨first, hfirst⟩ : ∃ first : Int, first = (c :: cs).length + d.exponent - 1 := ⟨_, rfl⟩
  unfold Decimal.Style.writeExponent
  rw [hcs, ← hfirst]
  refine ⟨⟨false, [c], if cs = [] then none else some cs, some (first < 0, Nat.toDigits 10 first.natAbs)⟩,
    rfl, ?_, .inr rfl, ?_⟩
  · cases cs with
    | nil =>
      exact ⟨[], _, rfl, hwhole, fun h => absurd (Option.some.inj h) hzero, rfl, exponentText_writeExponent first⟩
    | cons a cs =>
      refine ⟨'.' :: a :: cs, _, rfl, hwhole, fun h => absurd (Option.some.inj h) hzero, ⟨rfl, nofun, ?_⟩,
        exponentText_writeExponent first⟩
      exact fun b hb => hdigit b (List.mem_cons_of_mem c hb)
  · have hfraction : (if cs = [] then none else some cs).getD [] = cs := by
      cases cs <;> rfl
    simp only [decimal, hfraction, exponentValue_toDigits, List.singleton_append, hnat]
    refine congrArg (Decimal.mk d.digits) ?_
    rw [hfirst, List.length_cons]
    omega

end Literal

/-! ## Magnitudes -/

namespace Number

open Decimal

/-- The decimal in the text of a positive finite magnitude: the shortest one, but with one more zero if the point
stands behind all digits. -/
def written (m : Nat) : Decimal :=
  let d := shortest style.tie m
  if style.positional ((Nat.toDigits 10 d.digits).length + d.exponent - 1) ∧ 0 ≤ d.exponent then
    ⟨d.digits * 10 ^ (d.exponent.toNat + 1), -1⟩
  else d

theorem exists_writes_positional {d : Decimal} (hn : 0 < d.digits) : ∃ l : Literal,
    l.Writes (style.writePositional d)
      (if 0 ≤ d.exponent then ⟨d.digits * 10 ^ (d.exponent.toNat + 1), -1⟩ else d) := by
  unfold Style.writePositional
  dsimp only
  have hfraction : style.fraction := rfl
  by_cases hexponent : 0 ≤ d.exponent
  · rw [if_pos hexponent, if_pos hexponent, if_pos hfraction]
    exact ⟨_, Literal.writes_whole hn _⟩
  · obtain ⟨n, e⟩ := d
    obtain ⟨k, rfl⟩ : ∃ k : Nat, e = -k := ⟨(-e).toNat, by simp only at hexponent; omega⟩
    rw [if_neg hexponent, if_neg hexponent, Int.neg_neg, Int.toNat_natCast]
    by_cases hplaces : k < (Nat.toDigits 10 n).length
    · rw [if_pos hplaces]
      exact ⟨_, Literal.writes_point hn (by simp only at hexponent; omega) hplaces⟩
    · rw [if_neg hplaces]
      exact ⟨_, Literal.writes_zeros (Nat.le_of_not_lt hplaces)⟩

variable {m : Nat} (hm : 0 < m) (hfinite : m < infiniteMagnitude)

include hm hfinite

/-- **The text of a magnitude is that of a literal** which writes the same decimal. -/
theorem exists_literal : ∃ l : Literal, l.Writes (style.writeMagnitude m) (written m) := by
  have hpos := (identifies_shortest style.tie hm hfinite).pos
  unfold Style.writeMagnitude written
  dsimp only
  generalize shortest style.tie m = d at hpos ⊢
  by_cases hpositional : style.positional ((Nat.toDigits 10 d.digits).length + d.exponent - 1)
  · rw [if_pos hpositional]
    simpa only [hpositional, true_and] using exists_writes_positional hpos
  · rw [if_neg hpositional, if_neg (fun hboth => hpositional hboth.1)]
    exact Literal.exists_writes_exponent hpos

/-- **The decimal in the text reads back.** -/
theorem identifies_written : (written m).Identifies m := by
  have h := identifies_shortest style.tie hm hfinite
  unfold written
  dsimp only
  generalize shortest style.tie m = d at h ⊢
  split
  · next hpositional =>
    obtain ⟨hpositional, hexponent⟩ := hpositional
    have hlength : (Nat.toDigits 10 d.digits).length + d.exponent ≤ 16 := by
      simp only [style, Bool.and_eq_true, decide_eq_true_eq] at hpositional
      omega
    have hlt := lt_pow_length d.digits
    generalize (Nat.toDigits 10 d.digits).length = l at hlength hlt
    refine h.congr ?_ (Nat.mul_pos h.pos (Nat.pow_pos (by decide))) ?_ (show (-324 : Int) ≤ -1 by decide)
    · obtain ⟨k, hk⟩ : ∃ k : Nat, d.exponent = k := ⟨d.exponent.toNat, by omega⟩
      rw [Decimal.value, Decimal.value, hk, Int.toNat_natCast, zpow_natCast, zpow_neg_one]
      rw [Nat.cast_mul, Nat.cast_pow, Nat.cast_ofNat, pow_succ, ← mul_assoc, mul_inv_cancel_right₀ (by norm_num)]
    · calc d.digits * 10 ^ (d.exponent.toNat + 1) ≤ 10 ^ l * 10 ^ (d.exponent.toNat + 1) :=
            Nat.mul_le_mul_right _ hlt.le
        _ = 10 ^ (l + (d.exponent.toNat + 1)) := (Nat.pow_add ..).symm
        _ ≤ 10 ^ 17 := Nat.pow_le_pow_right (by decide) (by omega)
  · exact h

end Number

end TracedIndex.Json
