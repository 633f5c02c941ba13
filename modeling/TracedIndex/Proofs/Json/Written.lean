import Mathlib.Data.List.TakeWhile
import Mathlib.Tactic.IntervalCases
import TracedIndex.Proofs.Basic
import TracedIndex.Proofs.Json.Grammar

/-!
# What is written is read back

The text that a value is written as spells the value. Strings are read back whatever characters they
have, and whole numbers as long as they fit a machine word, with or without sign. Other numbers need not be
read back to the last place: the text of one spells the number that it is read as.

* `Quoted.text_write`: strings;
* `Number.read_append`: what stands behind a number does not matter;
* `Scalar.spelled_whole`: whole numbers; `Number.ReadsAs`, `Number.ReadsBack`: what other numbers are read as;
* `Value.spelled_array_map`, `Value.spelled_object_map`: values with parts.
-/

namespace TracedIndex.Json

/-! ## Strings -/

namespace Quoted

theorem hexNumber?_control : ∀ n < 0x20,
    hexNumber? '0' '0' (hexDigit (n / 16)) (hexDigit (n % 16)) = some n := by decide

/-- **What a character is written as is one of its texts.** -/
theorem charText_writeChar (c : Char) : CharText c (writeChar c) := by
  unfold writeChar
  split
  case h_8 hquote hbackslash _ _ _ _ _ =>
    split
    · next hlt => exact .code ((hexNumber?_control _ hlt).trans rfl)
    · next hge => exact .plain hquote hbackslash (Nat.not_lt.mp hge)
  all_goals exact .letter rfl

theorem charsText_flatMap_writeChar (cs : List Char) :
    CharsText cs (cs.flatMap writeChar ++ ['"']) := by
  induction cs with
  | nil => exact .nil
  | cons c cs ih =>
    rw [List.flatMap_cons, List.append_assoc]
    exact .cons (charText_writeChar c) ih

/-- **What a string is written as is one of its texts**, whatever characters it has. -/
theorem text_write (s : String) : Text s (s.toList.flatMap writeChar ++ ['"']) :=
  charsText_flatMap_writeChar s.toList

end Quoted

theorem Scalar.spelled_string (s : String) : (string s).Spelled (string s).write :=
  spelled_of_text (Quoted.text_write s)

theorem Scalar.spelled_null : null.Spelled null.write :=
  ⟨'n', ['u', 'l', 'l'], rfl, fun _ _ _ _ => rfl⟩

theorem Scalar.spelled_bool (b : Bool) : (bool b).Spelled (bool b).write := by
  cases b
  · exact ⟨'f', ['a', 'l', 's', 'e'], rfl, fun _ _ _ _ => rfl⟩
  · exact ⟨'t', ['r', 'u', 'e'], rfl, fun _ _ _ _ => rfl⟩

/-! ## Numbers -/

theorem Stops.not_digit {rest : List Char} (h : Stops rest) : ∀ c ∈ rest.head?, isDigit c = false := by
  intro c hc
  rcases h c hc with hspace | rfl | rfl | rfl
  · simp only [isSpace, Bool.or_eq_true, beq_iff_eq] at hspace
    rcases hspace with ((rfl | rfl) | rfl) | rfl <;> rfl
  all_goals rfl

theorem Stops.ne {rest : List Char} (h : Stops rest) {d : Char} (hd : d = '.' ∨ d = 'e' ∨ d = 'E') :
    ∀ c ∈ rest.head?, c ≠ d := by
  rintro c hc rfl
  rcases h c hc with hspace | hc | hc | hc
  · rcases hd with rfl | rfl | rfl <;> cases hspace
  all_goals rcases hd with rfl | rfl | rfl <;> cases hc

namespace Literal

theorem readSign_append (c : Char) (cs rest : List Char) :
    readSign (c :: cs ++ rest) = ((readSign (c :: cs)).1, (readSign (c :: cs)).2 ++ rest) := by
  by_cases hminus : c = '-'
  · subst hminus
    rfl
  by_cases hplus : c = '+'
  · subst hplus
    rfl
  have hnone : ∀ cs, readSign (c :: cs) = (false, c :: cs) := fun cs => by
    unfold readSign
    split <;> simp_all
  rw [List.cons_append, hnone, hnone, List.cons_append]

variable {short : Defect} {text rest t : List Char} (hrest : Stops rest)

include hrest

theorem takeWhile_isDigit_append (text : List Char) :
    (text ++ rest).takeWhile isDigit = text.takeWhile isDigit := by
  have hnone : rest.takeWhile isDigit = [] := by
    cases rest with
    | nil => rfl
    | cons c cs => exact List.takeWhile_cons_of_neg (by simp [hrest.not_digit c rfl])
  rw [List.takeWhile_append, hnone, List.append_nil]
  split
  · next h => exact ((List.takeWhile_prefix isDigit).eq_of_length h).symm
  · rfl

theorem dropWhile_isDigit_append (text : List Char) :
    (text ++ rest).dropWhile isDigit = text.dropWhile isDigit ++ rest := by
  have hall : rest.dropWhile isDigit = rest := by
    cases rest with
    | nil => rfl
    | cons c cs => exact List.dropWhile_cons_of_neg (by simp [hrest.not_digit c rfl])
  rw [List.dropWhile_append, hall]
  split
  · next h => rw [List.isEmpty_iff.mp h, List.nil_append]
  · rfl

theorem readDigits_append {ds : List Char} (h : readDigits short text = .ok (ds, t)) :
    readDigits short (text ++ rest) = .ok (ds, t ++ rest) := by
  cases text with
  | nil => cases h
  | cons c cs =>
    rw [readDigits] at h
    rw [List.cons_append, readDigits, ← List.cons_append, takeWhile_isDigit_append hrest,
      dropWhile_isDigit_append hrest]
    split at h
    · next hc =>
      obtain ⟨rfl, rfl⟩ := Prod.mk.inj (Except.ok.inj h)
      rw [if_pos hc]
    · cases h

theorem readWhole_append {ds : List Char} (h : readWhole short text = .ok (ds, t)) :
    readWhole short (text ++ rest) = .ok (ds, t ++ rest) := by
  obtain ⟨⟨ds', t'⟩, hdigits, h⟩ := bind_eq_ok_iff.mp h
  rw [readWhole, readDigits_append hrest hdigits]
  simp only [bind, Except.bind] at h ⊢
  split at h
  · cases h
  · next hzero =>
    obtain ⟨rfl, rfl⟩ := Prod.mk.inj (Except.ok.inj h)
    rw [if_neg hzero]
    rfl

theorem readFraction_append {ds : Option (List Char)} (h : readFraction short text = .ok (ds, t)) :
    readFraction short (text ++ rest) = .ok (ds, t ++ rest) := by
  unfold readFraction at h
  split at h
  · next cs =>
    obtain ⟨⟨ds', t'⟩, hdigits, h⟩ := bind_eq_ok_iff.mp h
    obtain ⟨rfl, rfl⟩ := Prod.mk.inj (Except.ok.inj h)
    simp only [List.cons_append, readFraction, readDigits_append hrest hdigits]
    rfl
  · next hpoint =>
    obtain ⟨rfl, rfl⟩ := Prod.mk.inj (Except.ok.inj h)
    unfold readFraction
    split
    · next cs heq =>
      cases text with
      | nil => exact absurd rfl (hrest.ne (.inl rfl) '.' (by rw [← List.nil_append rest, heq]; rfl))
      | cons c cs' => exact absurd (by rw [(List.cons.inj heq).1]) (hpoint cs')
    · rfl

theorem readExponent_append {e : Option (Bool × List Char)} (h : readExponent short text = .ok (e, t)) :
    readExponent short (text ++ rest) = .ok (e, t ++ rest) := by
  cases text with
  | nil =>
    obtain ⟨rfl, rfl⟩ := Prod.mk.inj (Except.ok.inj h)
    rw [List.nil_append]
    cases rest with
    | nil => rfl
    | cons c cs =>
      have hc : ¬ (c = 'e' ∨ c = 'E') := not_or.mpr
        ⟨hrest.ne (.inr (.inl rfl)) c rfl, hrest.ne (.inr (.inr rfl)) c rfl⟩
      rw [readExponent, if_neg hc]
  | cons c cs =>
    rw [readExponent] at h
    rw [List.cons_append, readExponent]
    split at h
    · next hc =>
      rw [if_pos hc]
      cases cs with
      | nil => cases h
      | cons d cs =>
        rw [readSign_append]
        generalize readSign (d :: cs) = p at h ⊢
        obtain ⟨⟨ds', t'⟩, hdigits, h⟩ := bind_eq_ok_iff.mp h
        obtain ⟨rfl, rfl⟩ := Prod.mk.inj (Except.ok.inj h)
        simp only [readDigits_append hrest hdigits]
        rfl
    · next hc =>
      obtain ⟨rfl, rfl⟩ := Prod.mk.inj (Except.ok.inj h)
      rw [if_neg hc]
      rfl

theorem readUnsigned_append {negative : Bool} {l : Literal}
    (h : readUnsigned short negative text = .ok (l, t)) :
    readUnsigned short negative (text ++ rest) = .ok (l, t ++ rest) := by
  obtain ⟨⟨whole, t₁⟩, hwhole, h⟩ := bind_eq_ok_iff.mp h
  obtain ⟨⟨fraction, t₂⟩, hfraction, h⟩ := bind_eq_ok_iff.mp h
  obtain ⟨⟨exponent, t₃⟩, hexponent, h⟩ := bind_eq_ok_iff.mp h
  obtain ⟨rfl, rfl⟩ := Prod.mk.inj (Except.ok.inj h)
  simp only [readUnsigned, readWhole_append hrest hwhole, bind, Except.bind,
    readFraction_append hrest hfraction, readExponent_append hrest hexponent]
  rfl

/-- **What stands behind a literal does not matter**, as long as it could not be a part of it. -/
theorem read_append {l : Literal} (h : read short text = .ok (l, t)) :
    read short (text ++ rest) = .ok (l, t ++ rest) := by
  cases text with
  | nil => cases h
  | cons c cs =>
    rw [read_cons] at h
    rw [List.cons_append, read_cons]
    split at h
    · next hc => rw [if_pos hc, readUnsigned_append hrest h]
    · next hc => rw [if_neg hc, ← List.cons_append, readUnsigned_append hrest h]

end Literal

namespace Number

theorem read_append {text t rest : List Char} (hrest : Stops rest) {n : Number}
    (h : read text = .ok (n, t)) : read (text ++ rest) = .ok (n, t ++ rest) := by
  obtain ⟨⟨l, t'⟩, hl, h⟩ := bind_eq_ok_iff.mp h
  rw [read, Literal.read_append hrest hl]
  simp only [bind, Except.bind] at h ⊢
  split at h
  · next m hm =>
    obtain ⟨rfl, rfl⟩ := Prod.mk.inj (Except.ok.inj h)
    rfl
  · cases h

/-- A number starts with a sign or a digit. -/
theorem exists_cons_of_read {text t : List Char} {n : Number} (h : read text = .ok (n, t)) :
    ∃ c cs, text = c :: cs ∧ (c = '-' ∨ isDigit c) := by
  cases text with
  | nil => cases h
  | cons c cs =>
    refine ⟨c, cs, rfl, ?_⟩
    by_cases hminus : c = '-'
    · exact .inl hminus
    by_cases hdigit : isDigit c
    · exact .inr hdigit
    · rw [read, Literal.read_cons, if_neg hminus, Literal.readUnsigned, Literal.readWhole,
        Literal.readDigits, if_neg hdigit] at h
      cases h

end Number

theorem Scalar.spelled_number {n : Number} {text : List Char} (h : Number.read text = .ok (n, [])) :
    (number n).Spelled text := by
  obtain ⟨c, cs, rfl, hc⟩ := Number.exists_cons_of_read h
  refine ⟨c, cs, rfl, fun fuel rest _ hrest => ?_⟩
  have hquote : c ≠ '"' := by rintro rfl; revert hc; decide
  rw [readFrom, if_neg hquote, if_pos hc, ← List.cons_append, Number.read_append hrest h]
  rfl

/-! ## Whole numbers -/

namespace Literal

theorem all_isDigit_toDigits (n : Nat) : ∀ c ∈ Nat.toDigits 10 n, isDigit c := fun c hc => by
  have := Nat.isDigit_of_mem_toDigits (by decide) (by decide) hc
  simpa [isDigit, Char.isDigit, Char.le_def] using this

theorem digits_toDigits (n : Nat) : Digits (Nat.toDigits 10 n) := ⟨Nat.toDigits_ne_nil, all_isDigit_toDigits n⟩

/-- Only the digits of zero start with zero. -/
theorem head?_toDigits (n : Nat) (h : (Nat.toDigits 10 n).head? = some '0') : n = 0 := by
  induction n using Nat.strongRecOn with
  | ind n ih =>
    rw [Nat.toDigits_eq_if (by decide)] at h
    split at h
    · next hlt =>
      revert h
      interval_cases n <;> decide
    · next hge =>
      have hfirst : (Nat.toDigits 10 (n / 10)).head? = some '0' := by
        cases hds : Nat.toDigits 10 (n / 10) with
        | nil => exact absurd hds Nat.toDigits_ne_nil
        | cons c cs => rwa [hds] at h
      have := ih (n / 10) (by omega) hfirst
      omega

/-- The digits of a whole number, perhaps behind a minus sign, are the text of a literal. -/
theorem text_toDigits (negative : Bool) (n : Nat) : (Literal.mk negative (Nat.toDigits 10 n) none none).Text
    ((if negative then ['-'] else []) ++ Nat.toDigits 10 n) := by
  refine ⟨[], [], by simp, digits_toDigits n, fun hhead => ?_, rfl, rfl⟩
  rw [head?_toDigits n hhead]
  rfl

theorem le_foldl_digits (n : Nat) (ds : List Char) :
    n ≤ ds.foldl (fun n c => n * 10 + digit c) n := by
  induction ds generalizing n with
  | nil => exact Nat.le_refl n
  | cons c ds ih =>
    refine Nat.le_trans ?_ (ih (n * 10 + digit c))
    omega

/-- Digits that fit a word are absorbed. -/
theorem absorb_eq (n : Nat) {ds : List Char}
    (h : ds.foldl (fun n c => n * 10 + digit c) n < UInt64.size) :
    absorb n ds = (ds.foldl (fun n c => n * 10 + digit c) n, 0) := by
  induction ds generalizing n with
  | nil => rfl
  | cons c ds ih =>
    rw [absorb, if_pos (Nat.lt_of_le_of_lt (le_foldl_digits _ ds) h)]
    exact ih _ h

theorem natOf_toDigits (n : Nat) : natOf (Nat.toDigits 10 n) = n := by
  have h := @Nat.ofDigitChars_ten_toDigits n
  rw [Nat.ofDigitChars_eq_foldl] at h
  simpa only [natOf, digit, Nat.mul_comm 10] using h

end Literal

/-- The text of a whole number that fits a machine word with or without sign stands for this number. -/
theorem Number.text_writeInt {n : Int} (hmin : -2 ^ 63 ≤ n) (hmax : n < 2 ^ 64) :
    ∃ l : Literal, l.Text (writeInt n) ∧ l.value? = some (whole n) := by
  have habsorb : Literal.absorb 0 (Nat.toDigits 10 n.natAbs) = (n.natAbs, 0) := by
    have hfold : (Nat.toDigits 10 n.natAbs).foldl (fun n c => n * 10 + Literal.digit c) 0 = n.natAbs :=
      Literal.natOf_toDigits n.natAbs
    have hsize : UInt64.size = 2 ^ 64 := rfl
    rw [Literal.absorb_eq 0 (by omega), hfold]
  by_cases hn : n < 0
  · have hsize : 0 < n.natAbs ∧ 2 * n.natAbs ≤ UInt64.size := by
      have : UInt64.size = 2 ^ 64 := rfl
      omega
    have habs : -(n.natAbs : Int) = n := by omega
    refine ⟨⟨true, Nat.toDigits 10 n.natAbs, none, none⟩, ?_, ?_⟩
    · rw [writeInt, if_pos hn]
      exact Literal.text_toDigits true n.natAbs
    · simp only [Literal.value?, habsorb, hsize, habs]
      rfl
  · have habs : (n.natAbs : Int) = n := by omega
    refine ⟨⟨false, Nat.toDigits 10 n.natAbs, none, none⟩, ?_, ?_⟩
    · rw [writeInt, if_neg hn]
      exact Literal.text_toDigits false n.natAbs
    · simp only [Literal.value?, habsorb, habs]
      rfl

/-- **A whole number is read back**, if it fits a machine word with or without sign. -/
theorem Number.read_writeInt {n : Int} (hmin : -2 ^ 63 ≤ n) (hmax : n < 2 ^ 64) :
    read (writeInt n) = .ok (whole n, []) := by
  obtain ⟨l, htext, hvalue⟩ := text_writeInt hmin hmax
  exact read_of_text htext hvalue

theorem Scalar.spelled_whole {n : Int} (hmin : -2 ^ 63 ≤ n) (hmax : n < 2 ^ 64) :
    (number (.whole n)).Spelled (number (.whole n)).write :=
  spelled_number (Number.read_writeInt hmin hmax)

/-- The text of the number `x` is read as the number `y`. -/
def Number.ReadsAs (x y : Binary64) : Prop := read (real x).write = .ok (real y, [])

instance (x y : Binary64) : Decidable (Number.ReadsAs x y) := by unfold Number.ReadsAs; infer_instance

/-- The text of the number is read as the same number, to the last place. -/
def Number.ReadsBack (x : Binary64) : Prop := ReadsAs x x

instance (x : Binary64) : Decidable (Number.ReadsBack x) := by unfold Number.ReadsBack; infer_instance

theorem Scalar.spelled_real {x y : Binary64} (h : Number.ReadsAs x y) :
    (number (.real y)).Spelled (number (.real x)).write := spelled_number h

/-! ## Values with parts -/

namespace Value

theorem spelled_scalar {s t : Scalar} (h : t.Spelled s.write) : (scalar t).Spelled (scalar s).write :=
  ⟨[], s.write, rfl, blank_nil, h⟩

/-- What is written between the brackets of an array are the written elements. -/
theorem elementsText_writeElements (vs : List Value) : ElementsText (vs.map write) (writeElements vs) := by
  induction vs with
  | nil => exact ⟨[], rfl, blank_nil⟩
  | cons v vs ih =>
    cases vs with
    | nil => exact ⟨[], rfl, blank_nil⟩
    | cons w vs => exact ⟨[], _, rfl, blank_nil, ih⟩

theorem nameText_write (k : String) : NameText (Quoted.Text k) (Quoted.write k ++ [':']) :=
  ⟨[], k.toList.flatMap Quoted.writeChar ++ ['"'], [], by simp [Quoted.write], blank_nil, blank_nil,
    Quoted.text_write k⟩

/-- What is written between the braces of an object are the names and the written values. -/
theorem membersText_writeMembers (ms : List (String × Value)) :
    MembersText Quoted.Text (ms.map fun m => (m.1, m.2.write)) (writeMembers ms) := by
  induction ms with
  | nil => exact ⟨[], rfl, blank_nil⟩
  | cons m ms ih =>
    obtain ⟨k, v⟩ := m
    cases ms with
    | nil => exact ⟨Quoted.write k ++ [':'], [], by simp [writeMembers], nameText_write k, blank_nil⟩
    | cons m ms =>
      exact ⟨Quoted.write k ++ [':'], [], _, by simp [writeMembers], nameText_write k, blank_nil, ih⟩

/-- **A written array spells an array**, if its elements spell the elements of that one. -/
theorem spelled_array_map {g : Value → Value} {vs : List Value} (h : ∀ v ∈ vs, (g v).Spelled v.write) :
    (array (vs.map g)).Spelled (array vs).write :=
  ⟨[], _, rfl, blank_nil, elementsSpelled_of_texts (elementsText_writeElements vs)
    (List.forall₂_map_left_iff.mpr (List.forall₂_map_right_iff.mpr (List.forall₂_same.mpr h)))⟩

theorem spelled_array {vs : List Value} (h : ∀ v ∈ vs, v.Spelled v.write) :
    (array vs).Spelled (array vs).write := by
  simpa using spelled_array_map (g := id) h

/-- **A written object spells an object**, if the values of its members spell those of that one. -/
theorem spelled_object_map {g : Value → Value} {ms : List (String × Value)}
    (h : ∀ m ∈ ms, (g m.2).Spelled m.2.write) :
    (object (ms.map fun m => (m.1, g m.2))).Spelled (object ms).write :=
  ⟨[], _, rfl, blank_nil, membersSpelled_of_texts Quoted.spelled_of_text (membersText_writeMembers ms)
    (List.forall₂_map_left_iff.mpr (List.forall₂_map_right_iff.mpr
      (List.forall₂_same.mpr fun m hm => ⟨rfl, h m hm⟩)))⟩

theorem spelled_object {ms : List (String × Value)} (h : ∀ m ∈ ms, m.2.Spelled m.2.write) :
    (object ms).Spelled (object ms).write := by
  simpa using spelled_object_map (g := id) h

end Value

end TracedIndex.Json
