import TracedIndex.Proofs.Json.Spelling

/-!
# The grammar of strings and numbers

A character may stand in a string as it is, or be written by a letter, by its code, or by the two codes of a
surrogate pair. A number has a sign or none, digits, and perhaps a fraction and an exponent. Each text that
keeps to this is read.

* `Quoted.CharText`, `Quoted.Text`: the texts of a character and of a string;
* **`Quoted.spelled_of_text`**: they are read as the string;
* `Literal.Text`: the texts of a number, taken apart; **`Literal.read_of_text`**: they are read as its parts;
* `Number.read_of_text`: and as the number, unless it is too large.
-/

namespace TracedIndex.Json

/-! ## Strings -/

namespace Quoted

/-- The text is one of those that may stand for the character inside a string. -/
inductive CharText : Char → List Char → Prop
  | plain {c : Char} (quote : c ≠ '"') (backslash : c ≠ '\\') (control : 0x20 ≤ c.toNat) : CharText c [c]
  | letter {c e : Char} (escape : escape? e = some c) : CharText c ['\\', e]
  | code {c h₁ h₂ h₃ h₄ : Char} (number : hexNumber? h₁ h₂ h₃ h₄ = some c.toNat) :
    CharText c ['\\', 'u', h₁, h₂, h₃, h₄]
  | pair {h₁ h₂ h₃ h₄ l₁ l₂ l₃ l₄ : Char} {high low : Nat} (first : hexNumber? h₁ h₂ h₃ h₄ = some high)
    (second : hexNumber? l₁ l₂ l₃ l₄ = some low) (isHigh : isHighSurrogate high)
    (isLow : isLowSurrogate low) :
    CharText (joinSurrogates high low) ['\\', 'u', h₁, h₂, h₃, h₄, '\\', 'u', l₁, l₂, l₃, l₄]

/-- The texts of some characters, one behind another, and a closing quote. -/
inductive CharsText : List Char → List Char → Prop
  | nil : CharsText [] ['"']
  | cons {c : Char} {cs t text : List Char} (char : CharText c t) (chars : CharsText cs text) :
    CharsText (c :: cs) (t ++ text)

/-- The text is one of those of the string, behind its opening quote. -/
def Text (s : String) (text : List Char) : Prop := CharsText s.toList text

/-- The code of a character is none of a pair. -/
theorem not_surrogate (c : Char) : isLowSurrogate c.toNat = false ∧ isHighSurrogate c.toNat = false := by
  have hvalid : c.toNat.isValidChar := c.valid
  unfold Nat.isValidChar at hvalid
  simp only [isLowSurrogate, isHighSurrogate, Bool.and_eq_false_iff, decide_eq_false_iff_not]
  omega

theorem readEscape_letter {c e : Char} (h : escape? e = some c) (text : List Char) :
    readEscape (e :: text) = .ok (c, text) := by
  rw [readEscape, h]

/-- A character that is written by its code. -/
theorem readEscape_code {c h₁ h₂ h₃ h₄ : Char} (h : hexNumber? h₁ h₂ h₃ h₄ = some c.toNat)
    (text : List Char) : readEscape ('u' :: h₁ :: h₂ :: h₃ :: h₄ :: text) = .ok (c, text) := by
  have hcode : readCode (h₁ :: h₂ :: h₃ :: h₄ :: text) = .ok (c, text) := by
    simp only [readCode, readHex, h, bind, Except.bind, not_surrogate c, Char.ofNat_toNat]
    rfl
  exact hcode

theorem not_low_of_high {n : Nat} (h : isHighSurrogate n) : isLowSurrogate n = false := by
  simp only [isHighSurrogate, Bool.and_eq_true, decide_eq_true_eq] at h
  simp only [isLowSurrogate, Bool.and_eq_false_iff, decide_eq_false_iff_not]
  omega

/-- A character that is written by a surrogate pair. -/
theorem readEscape_pair {h₁ h₂ h₃ h₄ l₁ l₂ l₃ l₄ : Char} {high low : Nat}
    (first : hexNumber? h₁ h₂ h₃ h₄ = some high) (second : hexNumber? l₁ l₂ l₃ l₄ = some low)
    (isHigh : isHighSurrogate high) (isLow : isLowSurrogate low) (text : List Char) :
    readEscape ('u' :: h₁ :: h₂ :: h₃ :: h₄ :: '\\' :: 'u' :: l₁ :: l₂ :: l₃ :: l₄ :: text) =
      .ok (joinSurrogates high low, text) := by
  have hlow := not_low_of_high isHigh
  have hcode : readCode (h₁ :: h₂ :: h₃ :: h₄ :: '\\' :: 'u' :: l₁ :: l₂ :: l₃ :: l₄ :: text) =
      .ok (joinSurrogates high low, text) := by
    simp only [readCode, readHex, first, bind, Except.bind, hlow, isHigh, readLow, second, isLow]
    rfl
  exact hcode

theorem readChars_escape {text rest : List Char} {c : Char} (h : readEscape text = .ok (c, rest))
    (steps : Nat) : readChars (steps + 1) ('\\' :: text) =
      (readChars steps rest).map fun p => (c :: p.1, p.2) := by
  rw [readChars, if_neg (by decide), if_pos rfl, h]
  simp only [bind, Except.bind]
  cases readChars steps rest <;> rfl

/-- **Each text of a character is read as this character.** -/
theorem readChars_charText {c : Char} {t : List Char} (h : CharText c t) (steps : Nat) (text : List Char) :
    readChars (steps + 1) (t ++ text) = (readChars steps text).map fun p => (c :: p.1, p.2) := by
  cases h with
  | plain quote backslash control =>
    rw [List.singleton_append, readChars, if_neg quote, if_neg backslash,
      if_neg (Nat.not_lt.mpr control)]
    cases readChars steps text <;> rfl
  | letter escape => exact readChars_escape (readEscape_letter escape text) steps
  | code number => exact readChars_escape (readEscape_code number text) steps
  | pair first second isHigh isLow =>
    exact readChars_escape (readEscape_pair first second isHigh isLow text) steps

theorem readChars_charsText {cs text : List Char} (h : CharsText cs text) {steps : Nat}
    (hsteps : cs.length < steps) (rest : List Char) :
    readChars steps (text ++ rest) = .ok (cs, rest) := by
  induction h generalizing steps with
  | nil =>
    obtain ⟨steps, rfl⟩ := Nat.exists_eq_add_one_of_ne_zero (Nat.ne_zero_of_lt hsteps)
    rfl
  | cons char _ ih =>
    obtain ⟨steps, rfl⟩ := Nat.exists_eq_add_one_of_ne_zero (Nat.ne_zero_of_lt hsteps)
    rw [List.append_assoc, readChars_charText char, ih (Nat.lt_of_succ_lt_succ hsteps)]
    rfl

theorem length_lt_of_charsText {cs text : List Char} (h : CharsText cs text) :
    cs.length < text.length := by
  induction h with
  | nil => exact Nat.one_pos
  | @cons c cs t text char _ ih =>
    have hpos : 0 < t.length := by cases char <;> exact Nat.succ_pos _
    rw [List.length_cons, List.length_append]
    omega

/-- **Each text of a string is read as this string.** -/
theorem spelled_of_text {s : String} {text : List Char} (h : Text s text) : Spelled s text := by
  intro fuel rest hfuel
  rw [read, readChars_charsText h (Nat.lt_of_lt_of_le (length_lt_of_charsText h) hfuel) rest]
  simp [bind, Except.bind, pure, Except.pure]

end Quoted

theorem Scalar.spelled_of_text {s : String} {text : List Char} (h : Quoted.Text s text) :
    (string s).Spelled ('"' :: text) := by
  refine ⟨'"', text, rfl, fun fuel rest hfuel _ => ?_⟩
  rw [readFrom, if_pos rfl, Quoted.spelled_of_text h fuel rest hfuel]
  rfl

/-! ## Numbers -/

namespace Literal

/-- One digit or more. -/
def Digits (ds : List Char) : Prop := ds ≠ [] ∧ ∀ c ∈ ds, isDigit c

def FractionText : Option (List Char) → List Char → Prop
  | none, text => text = []
  | some ds, text => text = '.' :: ds ∧ Digits ds

def ExponentText : Option (Bool × List Char) → List Char → Prop
  | none, text => text = []
  | some (negative, ds), text => ∃ mark sign, text = mark :: (sign ++ ds) ∧ (mark = 'e' ∨ mark = 'E') ∧
      (if negative then sign = ['-'] else sign = [] ∨ sign = ['+']) ∧ Digits ds

/-- The text is one of those of the literal. Only a single zero starts with zero. -/
def Text (l : Literal) (text : List Char) : Prop :=
  ∃ fraction exponent, text = (if l.negative then ['-'] else []) ++ l.whole ++ fraction ++ exponent ∧
    Digits l.whole ∧ (l.whole.head? = some '0' → l.whole = ['0']) ∧
    FractionText l.fraction fraction ∧ ExponentText l.exponent exponent

variable {short : Defect}

theorem readDigits_of_digits {ds rest : List Char} (h : Digits ds)
    (hrest : ∀ c ∈ rest.head?, isDigit c = false) : readDigits short (ds ++ rest) = .ok (ds, rest) := by
  obtain ⟨hne, hall⟩ := h
  obtain ⟨d, ds, rfl⟩ := List.exists_cons_of_ne_nil hne
  have hstop : rest.takeWhile isDigit = [] ∧ rest.dropWhile isDigit = rest := by
    cases rest with
    | nil => exact ⟨rfl, rfl⟩
    | cons c cs => simp [hrest c rfl]
  rw [List.cons_append, readDigits, if_pos (hall d List.mem_cons_self), ← List.cons_append,
    List.takeWhile_append_of_pos hall, List.dropWhile_append_of_pos hall, hstop.1, hstop.2,
    List.append_nil]

/-- A text in front of a point, a mark of an exponent, or nothing. -/
theorem readWhole_of_digits {ds rest : List Char} (h : Digits ds) (hzero : ds.head? = some '0' → ds = ['0'])
    (hrest : ∀ c ∈ rest.head?, isDigit c = false) : readWhole short (ds ++ rest) = .ok (ds, rest) := by
  have hnot : ¬ (ds.head? = some '0' ∧ ds ≠ ['0']) := fun hds => hds.2 (hzero hds.1)
  simp only [readWhole, readDigits_of_digits h hrest, bind, Except.bind, if_neg hnot]
  rfl

theorem readFraction_of_text {fraction : Option (List Char)} {text rest : List Char}
    (h : FractionText fraction text) (hrest : ∀ c ∈ rest.head?, isDigit c = false ∧ c ≠ '.') :
    readFraction short (text ++ rest) = .ok (fraction, rest) := by
  cases fraction with
  | none =>
    obtain rfl : text = [] := h
    rw [List.nil_append]
    unfold readFraction
    split
    · exact absurd rfl (hrest '.' rfl).2
    · rfl
  | some ds =>
    obtain ⟨rfl, hds⟩ := h
    simp only [List.cons_append, readFraction, readDigits_of_digits hds fun c hc => (hrest c hc).1]
    rfl

theorem readExponent_of_text {exponent : Option (Bool × List Char)} {text : List Char}
    (h : ExponentText exponent text) : readExponent short text = .ok (exponent, []) := by
  cases exponent with
  | none =>
    obtain rfl : text = [] := h
    rfl
  | some e =>
    obtain ⟨negative, ds⟩ := e
    obtain ⟨mark, sign, rfl, hmark, hsign, hds⟩ := h
    have hread : readDigits short (ds ++ []) = .ok (ds, []) := readDigits_of_digits hds nofun
    rw [List.append_nil] at hread
    have hnone : readSign ds = (false, ds) := by
      obtain ⟨d, ds, rfl⟩ := List.exists_cons_of_ne_nil hds.1
      have hd := hds.2 d List.mem_cons_self
      unfold readSign
      split <;> simp_all [isDigit]
    have hsigned : readSign (sign ++ ds) = (negative, ds) := by
      cases negative with
      | true =>
        obtain rfl : sign = ['-'] := hsign
        rfl
      | false =>
        rcases hsign with rfl | rfl
        · exact hnone
        · rfl
    rw [readExponent, if_pos hmark, hsigned]
    simp only [hread, bind, Except.bind]
    rfl

/-- A literal from behind its sign on. -/
def readUnsigned (short : Defect) (negative : Bool) (text : List Char) :
    Except Defect (Literal × List Char) := do
  let (whole, text) ← readWhole short text
  let (fraction, text) ← readFraction short text
  let (exponent, text) ← readExponent short text
  pure (⟨negative, whole, fraction, exponent⟩, text)

theorem read_cons (short : Defect) (c : Char) (cs : List Char) : read short (c :: cs) =
    if c = '-' then readUnsigned short true cs else readUnsigned short false (c :: cs) := by
  by_cases hc : c = '-'
  · subst hc
    rfl
  · rw [if_neg hc, read]
    · rfl
    · exact fun rest h => hc (List.cons.inj h).1

/-- **Each text of a literal is read as its parts.** -/
theorem read_of_text {l : Literal} {text : List Char} (h : l.Text text) :
    read short text = .ok (l, []) := by
  obtain ⟨fraction, exponent, rfl, hwhole, hzero, hfraction, hexponent⟩ := h
  have hmark : ∀ c ∈ exponent.head?, isDigit c = false ∧ c ≠ '.' := by
    cases hl : l.exponent with
    | none =>
      rw [hl] at hexponent
      obtain rfl : exponent = [] := hexponent
      nofun
    | some e =>
      rw [hl] at hexponent
      obtain ⟨mark, sign, rfl, hmark, -⟩ := hexponent
      rintro c ⟨⟩
      rcases hmark with rfl | rfl <;> decide
  have hpoint : ∀ c ∈ (fraction ++ exponent).head?, isDigit c = false := by
    cases hl : l.fraction with
    | none =>
      rw [hl] at hfraction
      obtain rfl : fraction = [] := hfraction
      exact fun c hc => (hmark c hc).1
    | some ds =>
      rw [hl] at hfraction
      obtain ⟨rfl, -⟩ := hfraction
      rintro c ⟨⟩
      rfl
  have hunsigned : readUnsigned short l.negative (l.whole ++ (fraction ++ exponent)) = .ok (l, []) := by
    simp only [readUnsigned, readWhole_of_digits hwhole hzero hpoint, bind, Except.bind,
      readFraction_of_text hfraction hmark, readExponent_of_text hexponent]
    rfl
  rw [List.append_assoc, List.append_assoc]
  cases hnegative : l.negative with
  | true =>
    rw [hnegative] at hunsigned
    rw [if_pos rfl, List.singleton_append, read_cons, if_pos rfl, hunsigned]
  | false =>
    rw [hnegative] at hunsigned
    obtain ⟨d, ds, hds⟩ := List.exists_cons_of_ne_nil hwhole.1
    have hminus : d ≠ '-' := by
      rintro rfl
      exact absurd (hwhole.2 '-' (hds ▸ List.mem_cons_self)) (by decide)
    rw [hds, List.cons_append] at hunsigned ⊢
    rw [if_neg (by decide), List.nil_append, read_cons, if_neg hminus, hunsigned]

end Literal

/-- **Each text of a literal is read as the number that it stands for**, unless this is too large. -/
theorem Number.read_of_text {l : Literal} {text : List Char} (h : l.Text text) {n : Number}
    (hn : l.value? = some n) : read text = .ok (n, []) := by
  rw [read, Literal.read_of_text h]
  simp only [bind, Except.bind, hn]
  rfl

end TracedIndex.Json
