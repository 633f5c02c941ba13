import TracedIndex.Proofs.Json.Bounds
import TracedIndex.Proofs.Json.Broken
import TracedIndex.Proofs.Json.Layout

/-!
# Numbers that break off

What is left of a number that breaks off may still be a number. It has no more digits than before, and its exponent
has lost one, if anything is left of it. So it is not too large either, if the digits fit a word and the exponent is
one that a finite number can have.

* `Literal.CutOf`: what a literal may have of the parts of another one;
* **`Literal.Text.broken`**: what is left is too short, or a literal;
* `Literal.isSome_value?`, **`Literal.CutOf.isSome_value?`**: literals that are not too large.
-/

namespace TracedIndex.Json.Literal

open Binary64

variable {short : Defect} {l l' : Literal}

/-- The literal `l'` has what `l` has of its parts up to some place. -/
structure CutOf (l' l : Literal) : Prop where
  negative_eq : l'.negative = l.negative
  digits : l'.whole ++ l'.fraction.getD [] <+: l.whole ++ l.fraction.getD []
  fraction : l.fraction = none → l'.fraction = none
  exponent : l'.exponent = none ∨ l'.fraction = l.fraction ∧ ∃ negative ds ds',
    l.exponent = some (negative, ds) ∧ l'.exponent = some (negative, ds') ∧ Broken ds' ds

/-- The text is too short for a literal, or that of one that has the parts of `l` up to some place. -/
def Leaves (short : Defect) (l : Literal) (p : List Char) : Prop :=
  read short p = .error short ∨ ∃ l' : Literal, l'.Text p ∧ l'.CutOf l

theorem Digits.of_broken {ds p : List Char} (h : Digits ds) (hp : Broken p ds) (hne : p ≠ []) : Digits p :=
  ⟨hne, fun c hc => h.2 c (hp.1.subset hc)⟩

/-! ## Literals that are too short -/

/-- The sign of a literal, and what stands behind it. -/
theorem read_signed {negative : Bool} {q : List Char} (hq : ∀ c ∈ q.head?, c ≠ '-') :
    read short ((if negative then ['-'] else []) ++ q) = readUnsigned short negative q := by
  cases negative with
  | true => exact (read_cons short '-' q).trans (if_pos rfl)
  | false =>
    cases q with
    | nil => rfl
    | cons c q => exact (read_cons short c q).trans (if_neg (hq c rfl))

theorem Digits.head?_ne_minus {ds rest : List Char} (h : Digits ds) : ∀ c ∈ (ds ++ rest).head?, c ≠ '-' := by
  obtain ⟨d, ds, rfl⟩ := List.exists_cons_of_ne_nil h.1
  rintro c ⟨⟩ rfl
  exact absurd (h.2 '-' List.mem_cons_self) (by decide)

section

variable {negative : Bool} {whole : List Char} (hwhole : Digits whole)
  (hzero : whole.head? = some '0' → whole = ['0'])

include hwhole hzero

/-- Nothing stands behind the point. -/
theorem read_point : read short ((if negative then ['-'] else []) ++ (whole ++ ['.'])) = .error short := by
  have hpoint : ∀ c ∈ ['.'].head?, isDigit c = false := by rintro c ⟨⟩; rfl
  rw [read_signed hwhole.head?_ne_minus, readUnsigned, readWhole_of_digits hwhole hzero hpoint]
  rfl

/-- No digits stand behind the mark of the exponent and its sign. -/
theorem read_mark {fraction : Option (List Char)} {text : List Char} (hfraction : FractionText fraction text)
    {mark : Char} (hmark : mark = 'e' ∨ mark = 'E') {sign : List Char}
    (hsign : sign = [] ∨ sign = ['-'] ∨ sign = ['+']) :
    read short ((if negative then ['-'] else []) ++ (whole ++ (text ++ mark :: sign))) = .error short := by
  have hhead : ∀ c ∈ (mark :: sign).head?, isDigit c = false ∧ c ≠ '.' := by
    rintro c ⟨⟩
    rcases hmark with rfl | rfl <;> decide
  have hrest : ∀ c ∈ (text ++ mark :: sign).head?, isDigit c = false := by
    cases fraction with
    | none =>
      obtain rfl : text = [] := hfraction
      exact fun c hc => (hhead c hc).1
    | some ds =>
      obtain ⟨rfl, -⟩ := hfraction
      rintro c ⟨⟩
      rfl
  have hexponent : readExponent short (mark :: sign) = .error short := by
    rw [readExponent, if_pos hmark]
    rcases hsign with rfl | rfl | rfl <;> rfl
  rw [read_signed hwhole.head?_ne_minus, readUnsigned, readWhole_of_digits hwhole hzero hrest]
  simp only [bind, Except.bind, readFraction_of_text hfraction hhead, hexponent]

/-! ## What is left -/

variable {fraction : Option (List Char)} {exponent : Option (Bool × List Char)}

/-- A literal that breaks off in front of its point. -/
theorem leaves_whole {p : List Char} (hp : Broken p whole) :
    (Literal.mk negative whole fraction exponent).Leaves short ((if negative then ['-'] else []) ++ p) := by
  by_cases hne : p = []
  · subst hne
    exact Or.inl ((read_signed (by simp)).trans rfl)
  have htext : (Literal.mk negative p none none).Text ((if negative then ['-'] else []) ++ p) := by
    refine ⟨[], [], by simp, hwhole.of_broken hp hne, fun hhead => ?_, rfl, rfl⟩
    -- the only digits that start with zero are those of zero, and they are too short to break off
    obtain ⟨rest, rfl⟩ := hp.1
    rw [List.head?_append_of_ne_nil _ hne] at hzero
    have hds := hzero hhead
    cases p with
    | nil => exact absurd rfl hne
    | cons c p => simp_all
  exact Or.inr ⟨_, htext, rfl, by simpa using hp.1.trans (List.prefix_append ..), fun _ => rfl, Or.inl rfl⟩

/-- A literal that breaks off in front of the point or behind it. -/
theorem leaves_fraction {text p : List Char} (hfraction : FractionText fraction text) (hp : Broken p text) :
    (Literal.mk negative whole fraction exponent).Leaves short
      ((if negative then ['-'] else []) ++ (whole ++ p)) := by
  cases fraction with
  | none =>
    obtain rfl : text = [] := hfraction
    exact absurd hp Broken.of_nil
  | some ds =>
    obtain ⟨rfl, hds⟩ := hfraction
    rcases hp.cases_cons with rfl | ⟨d, rfl, hd⟩
    · exact Or.inr ⟨⟨negative, whole, none, none⟩, ⟨[], [], by simp, hwhole, hzero, rfl, rfl⟩, rfl, by simp,
        fun _ => rfl, Or.inl rfl⟩
    by_cases hne : d = []
    · subst hne
      exact Or.inl (read_point hwhole hzero)
    · exact Or.inr ⟨⟨negative, whole, some d, none⟩,
        ⟨'.' :: d, [], by simp, hwhole, hzero, ⟨rfl, hds.of_broken hd hne⟩, rfl⟩, rfl,
        (List.prefix_append_right_inj whole).mpr hd.1, nofun, Or.inl rfl⟩

/-- A literal that breaks off in front of the mark of its exponent or behind it. -/
theorem leaves_exponent {f text p : List Char} (hfraction : FractionText fraction f)
    (hexponent : ExponentText exponent text) (hp : Broken p text) :
    (Literal.mk negative whole fraction exponent).Leaves short
      ((if negative then ['-'] else []) ++ (whole ++ (f ++ p))) := by
  cases exponent with
  | none =>
    obtain rfl : text = [] := hexponent
    exact absurd hp Broken.of_nil
  | some mds =>
    obtain ⟨minus, ds⟩ := mds
    obtain ⟨mark, sign, rfl, hmark, hsign, hds⟩ := hexponent
    have hsigns : sign = [] ∨ sign = ['-'] ∨ sign = ['+'] := by
      cases minus with
      | true => exact Or.inr (Or.inl hsign)
      | false => exact hsign.imp_right Or.inr
    rcases hp.cases_cons with rfl | ⟨q, rfl, hq⟩
    · exact Or.inr ⟨⟨negative, whole, fraction, none⟩, ⟨f, [], by simp, hwhole, hzero, hfraction, rfl⟩, rfl,
        List.prefix_rfl, id, Or.inl rfl⟩
    rcases hq.cases_append with hq | ⟨d, rfl, hd⟩
    · obtain rfl : q = [] := by
        rcases hsigns with rfl | rfl | rfl
        · exact absurd hq Broken.of_nil
        · exact hq.eq_nil
        · exact hq.eq_nil
      exact Or.inl (read_mark hwhole hzero hfraction hmark (Or.inl rfl))
    by_cases hne : d = []
    · subst hne
      rw [List.append_nil]
      exact Or.inl (read_mark hwhole hzero hfraction hmark hsigns)
    · exact Or.inr ⟨⟨negative, whole, fraction, some (minus, d)⟩,
        ⟨f, mark :: (sign ++ d), by simp, hwhole, hzero, hfraction, mark, sign, rfl, hmark, hsign,
          hds.of_broken hd hne⟩, rfl, List.prefix_rfl, id, Or.inr ⟨rfl, minus, ds, d, rfl, rfl, hd⟩⟩

end

/-- **What is left of a literal that breaks off is too short, or a literal.** -/
theorem Text.broken {text p : List Char} (h : l.Text text) (hp : Broken p text) : l.Leaves short p := by
  obtain ⟨negative, whole, fraction, exponent⟩ := l
  obtain ⟨f, e, rfl, hwhole, hzero, hfraction, hexponent⟩ := h
  dsimp only at hwhole hzero hfraction hexponent hp
  rw [List.append_assoc, List.append_assoc] at hp
  rcases hp.cases_append with hsign | ⟨q, rfl, hq⟩
  · obtain rfl : p = [] := by
      cases negative with
      | true => exact hsign.eq_nil
      | false => exact absurd hsign Broken.of_nil
    exact Or.inl rfl
  rcases hq.cases_append with hq | ⟨r, rfl, hr⟩
  · exact leaves_whole hwhole hzero hq
  rcases hr.cases_append with hr | ⟨u, rfl, hu⟩
  · exact leaves_fraction hwhole hzero hfraction hr
  · exact leaves_exponent hwhole hzero hfraction hexponent hu

/-! ## Values of what is left -/

theorem natOf_le_of_isFront {ds es : List Char} (h : ds <+: es) : natOf ds ≤ natOf es := by
  obtain ⟨rest, rfl⟩ := h
  exact natOf_le_natOf_append ds rest

/-- Digits that break off lose the last one at least. -/
theorem natOf_of_broken {ds es : List Char} (h : Broken ds es) : natOf ds * 10 ≤ natOf es := by
  obtain ⟨⟨rest, rfl⟩, hne⟩ := h
  cases rest with
  | nil => exact absurd (List.append_nil ds).symm hne
  | cons c rest =>
    calc natOf ds * 10 ≤ natOf (ds ++ [c]) := by
          rw [natOf_append]
          exact Nat.le_add_right _ _
      _ ≤ natOf (ds ++ [c] ++ rest) := natOf_le_natOf_append _ _
      _ = natOf (ds ++ c :: rest) := by rw [List.append_assoc]; rfl

theorem units_ofInt_le_pow {n k : Nat} (h : n ≤ 2 ^ k) : (ofInt n).units ≤ 2 ^ k * unitsPerOne := by
  rw [← unitsOf_two_pow]
  apply units_ofInt_le
  rw [unitsOf_two_pow]
  exact Nat.mul_le_mul_right _ h

/-- The product of a word and a small power of ten is not too large. -/
theorem isFinite_mul_powerOfTen {n k : Nat} (hn : n < UInt64.size) (hk : k ≤ 30) :
    ((ofInt n).mul (powerOfTen k)).isFinite := by
  have hword : n ≤ 2 ^ 64 := Nat.le_of_lt hn
  have hpower : 10 ^ k ≤ 2 ^ 100 := (Nat.pow_le_pow_right (by decide) hk).trans (by decide)
  have hproduct : (ofInt n).units * (powerOfTen k).units ≤
      unitsOf ((1022 + 164 + 1) * exponentBit) * unitsPerOne :=
    calc (ofInt n).units * (powerOfTen k).units
        ≤ 2 ^ 64 * unitsPerOne * (2 ^ 100 * unitsPerOne) :=
          Nat.mul_le_mul (units_ofInt_le_pow hword) (units_ofInt_le_pow hpower)
      _ = unitsOf ((1022 + 164 + 1) * exponentBit) * unitsPerOne := by
          rw [unitsOf_two_pow, Nat.pow_add 2 64 100]
          ring
  apply isFinite_ofMagnitude
  exact Nat.lt_of_le_of_lt (nearestMagnitude_le_of_le unitsPerOne_pos hproduct) (by decide)

/-- A division never makes a number too large. -/
theorem isSome_scale_of_neg (x : Binary64) {e : Int} (he : e < 0) : (scale x e).isSome := by
  fun_induction scale x e with
  | case1 x e _ hpos => omega
  | case2 x e _ hpos => omega
  | case3 => rfl
  | case4 => rfl
  | case5 x e _ _ hpos => omega
  | case6 x e _ _ _ ih => exact ih (by omega)

theorem isSome_scale {n : Nat} (hn : n < UInt64.size) {e : Int} (he : e ≤ 30) : (scale (ofInt n) e).isSome := by
  by_cases hneg : e < 0
  · exact isSome_scale_of_neg _ hneg
  · have hfinite := isFinite_mul_powerOfTen hn (k := e.natAbs) (by omega)
    have hinf := (isFinite_iff_not_isInfinite (isNaN_of_isFinite hfinite)).mp hfinite
    rw [scale_of_nonneg _ (by omega) (by omega) (Bool.eq_false_iff.mpr hinf)]
    rfl

theorem isSome_value?_whole {negative : Bool} {whole : List Char} (h : natOf whole < UInt64.size) :
    (Literal.mk negative whole none none).value?.isSome := by
  cases negative with
  | false =>
    rw [value?_whole h]
    rfl
  | true =>
    have habsorb : absorb 0 whole = (natOf whole, 0) := absorb_eq 0 h
    simp only [value?, habsorb]
    by_cases hfits : 0 < natOf whole ∧ 2 * natOf whole ≤ UInt64.size <;> simp [hfits]

/-- **A literal is not too large** if its digits fit a word and its power of ten is small. -/
theorem isSome_value? (hdigits : l.decimal.digits < UInt64.size) (hexponent : l.decimal.exponent ≤ 30) :
    l.value?.isSome := by
  by_cases hreal : l.fraction.isSome ∨ l.exponent.isSome
  · rw [value?_eq hreal hdigits, Option.isSome_map]
    exact isSome_scale hdigits hexponent
  · obtain ⟨negative, whole, fraction, exponent⟩ := l
    obtain ⟨rfl, rfl⟩ : fraction = none ∧ exponent = none := by simpa using hreal
    rw [decimal, Option.getD_none, List.append_nil] at hdigits
    exact isSome_value?_whole hdigits

/-- **What is left of a literal that breaks off is not too large**: it has no more digits, and its exponent loses
a digit, if it is there at all. -/
theorem CutOf.isSome_value? (h : l'.CutOf l) (hdigits : l.decimal.digits < UInt64.size)
    (hexponent : l.decimal.exponent ≤ 308) : l'.value?.isSome := by
  apply Literal.isSome_value?
  · exact Nat.lt_of_le_of_lt (natOf_le_of_isFront h.digits) hdigits
  · rcases h.exponent with hnone | ⟨hfraction, minus, ds, ds', hds, hds', hbroken⟩
    · simp only [decimal, exponentValue, hnone]
      omega
    · have hlost := natOf_of_broken hbroken
      simp only [decimal, exponentValue, hds] at hexponent
      simp only [decimal, exponentValue, hds', hfraction]
      cases minus with
      | true =>
        simp only [if_true]
        omega
      | false =>
        simp only [Bool.false_eq_true, if_false] at hexponent ⊢
        omega

end TracedIndex.Json.Literal
