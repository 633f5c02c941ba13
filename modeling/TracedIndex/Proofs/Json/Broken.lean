import TracedIndex.Proofs.Json.Grammar

/-!
# Texts that break off

A text may end before what is written there does. Words and strings always show this: wherever one breaks off,
its reader finds that the text ends too early.

* `Broken`: a text that is another one broken off before its end; `Broken.cases_append`: in which part;
* `readWord_broken`: words; `Quoted.readEscape_broken`: escapes, half of a surrogate pair among them;
* **`Quoted.read_broken`**: strings, with any escapes.
-/

namespace TracedIndex.Json

/-- The text `p` is `t` broken off before its end. -/
def Broken (p t : List Char) : Prop := p <+: t ∧ p ≠ t

namespace Broken

variable {p t u : List Char} {c : Char}

theorem of_nil : ¬ Broken p [] := fun h => h.2 (List.prefix_nil.mp h.1)

/-- The text breaks off at once, or behind its first character. -/
theorem cases_cons (h : Broken p (c :: t)) : p = [] ∨ ∃ q, p = c :: q ∧ Broken q t := by
  cases p with
  | nil => exact Or.inl rfl
  | cons d q =>
    obtain ⟨rfl, hq⟩ := List.cons_prefix_cons.mp h.1
    exact Or.inr ⟨q, rfl, hq, fun heq => h.2 (congrArg _ heq)⟩

/-- The text breaks off in its first part, or behind it. -/
theorem cases_append (h : Broken p (t ++ u)) : Broken p t ∨ ∃ q, p = t ++ q ∧ Broken q u := by
  induction t generalizing p with
  | nil => exact Or.inr ⟨p, rfl, h⟩
  | cons c t ih =>
    rcases h.cases_cons with rfl | ⟨q, rfl, hq⟩
    · exact Or.inl ⟨List.nil_prefix, nofun⟩
    · rcases ih hq with hq | ⟨q, rfl, hu⟩
      · exact Or.inl ⟨List.cons_prefix_cons.mpr ⟨rfl, hq.1⟩, fun heq => hq.2 (List.cons.inj heq).2⟩
      · exact Or.inr ⟨q, rfl, hu⟩

theorem eq_nil (h : Broken p [c]) : p = [] := by
  rcases h.cases_cons with rfl | ⟨q, rfl, hq⟩
  · rfl
  · exact absurd hq of_nil

theorem length_lt (h : Broken p t) : p.length < t.length :=
  Nat.lt_of_le_of_ne h.1.length_le fun heq => h.2 (h.1.eq_of_length heq)

theorem stops (h : Broken p t) (ht : Stops t) : Stops p := by
  intro c hc
  obtain ⟨u, rfl⟩ := h.1
  cases p with
  | nil => cases hc
  | cons d p => exact ht c hc

end Broken

theorem readWord_broken {p word : List Char} (h : Broken p word) : readWord word p = .error .truncated := by
  induction word generalizing p with
  | nil => exact absurd h Broken.of_nil
  | cons w word ih =>
    rcases h.cases_cons with rfl | ⟨q, rfl, hq⟩
    · rfl
    · rw [readWord, if_pos rfl, ih hq]

namespace Quoted

/-! ## Escapes -/

theorem utf8Size_of_hexValue? {c : Char} {n : Nat} (h : hexValue? c = some n) : c.utf8Size = 1 := by
  have hle : c.toNat ≤ 0x7f := by
    unfold hexValue? at h
    split at h
    · next hc => exact Nat.le_trans hc.2 (by decide)
    split at h
    · next hc => exact Nat.le_trans hc.2 (by decide)
    split at h
    · next hc => exact Nat.le_trans hc.2 (by decide)
    · cases h
  exact if_pos hle

theorem utf8ByteSize_ofList_of_hex {cs : List Char} (h : ∀ c ∈ cs, ∃ n, hexValue? c = some n) :
    (String.ofList cs).utf8ByteSize = cs.length := by
  induction cs with
  | nil => rfl
  | cons c cs ih =>
    obtain ⟨⟨n, hn⟩, hcs⟩ := List.forall_mem_cons.mp h
    rw [String.ofList_cons, String.utf8ByteSize_append, String.utf8ByteSize_singleton, ih hcs,
      utf8Size_of_hexValue? hn, List.length_cons, Nat.add_comm]

/-- Less than four hexadecimal digits take up less than four bytes. -/
theorem readHex_broken {h₁ h₂ h₃ h₄ : Char} {n : Nat} (h : hexNumber? h₁ h₂ h₃ h₄ = some n) {p : List Char}
    (hp : Broken p [h₁, h₂, h₃, h₄]) : readHex p = .error .truncated := by
  have hlen : p.length < 4 := hp.length_lt
  have hhex : ∀ c ∈ [h₁, h₂, h₃, h₄], ∃ n, hexValue? c = some n := by
    simp only [hexNumber?, bind, Option.bind_eq_some_iff] at h
    obtain ⟨_, h₁, _, h₂, _, h₃, _, h₄, -⟩ := h
    simp [h₁, h₂, h₃, h₄]
  have hbytes := utf8ByteSize_ofList_of_hex fun c hc => hhex c (hp.1.subset hc)
  unfold readHex
  split
  · simp only [List.length_cons] at hlen
    omega
  · rw [if_pos (by rwa [hbytes])]

theorem readLow_broken {l₁ l₂ l₃ l₄ : Char} {low : Nat} (h : hexNumber? l₁ l₂ l₃ l₄ = some low) {p : List Char}
    (hp : Broken p ['\\', 'u', l₁, l₂, l₃, l₄]) : readLow p = .error .truncated := by
  rcases hp.cases_cons with rfl | ⟨q, rfl, hq⟩
  · rfl
  rcases hq.cases_cons with rfl | ⟨r, rfl, hr⟩
  · rfl
  simp only [readLow, ne_eq, not_true_eq_false, if_false, readHex_broken h hr]
  rfl

theorem readEscape_broken_code {h₁ h₂ h₃ h₄ : Char} {n : Nat} (h : hexNumber? h₁ h₂ h₃ h₄ = some n)
    {p : List Char} (hp : Broken p ['u', h₁, h₂, h₃, h₄]) : readEscape p = .error .truncated := by
  rcases hp.cases_cons with rfl | ⟨q, rfl, hq⟩
  · rfl
  · simp only [readEscape, readCode, readHex_broken h hq]
    rfl

/-- **An escape that breaks off behind its backslash is found to do so**, also between the two halves of a
surrogate pair. -/
theorem readEscape_broken {c : Char} {t p : List Char} (h : CharText c ('\\' :: t)) (hp : Broken p t) :
    readEscape p = .error .truncated := by
  cases h with
  | plain _ backslash => exact absurd rfl backslash
  | letter escape =>
    rw [hp.eq_nil]
    rfl
  | code number => exact readEscape_broken_code number hp
  | @pair h₁ h₂ h₃ h₄ l₁ l₂ l₃ l₄ high low first second isHigh isLow =>
    rcases Broken.cases_append (t := ['u', h₁, h₂, h₃, h₄]) hp with hp | ⟨q, rfl, hq⟩
    · exact readEscape_broken_code first hp
    · have hcode : readCode (h₁ :: h₂ :: h₃ :: h₄ :: q) = .error .truncated := by
        simp only [readCode, readHex, first, bind, Except.bind, not_low_of_high isHigh, isHigh,
          readLow_broken second hq]
        rfl
      exact hcode

/-! ## Strings -/

theorem readChars_broken_escape {c : Char} {t p : List Char} (h : CharText c ('\\' :: t))
    (hp : Broken p ('\\' :: t)) (steps : Nat) : readChars steps p = .error .truncated := by
  rcases hp.cases_cons with rfl | ⟨q, rfl, hq⟩
  · cases steps <;> rfl
  cases steps with
  | zero => rfl
  | succ steps =>
    rw [readChars, if_neg (by decide), if_pos rfl, readEscape_broken h hq]
    rfl

theorem readChars_broken_char {c : Char} {t p : List Char} (h : CharText c t) (hp : Broken p t) (steps : Nat) :
    readChars steps p = .error .truncated := by
  cases id h with
  | plain =>
    rw [hp.eq_nil]
    cases steps <;> rfl
  | letter | code | pair => exact readChars_broken_escape h hp steps

theorem readChars_broken {cs text p : List Char} (h : CharsText cs text) (hp : Broken p text) (steps : Nat) :
    readChars steps p = .error .truncated := by
  induction h generalizing p steps with
  | nil =>
    rw [hp.eq_nil]
    cases steps <;> rfl
  | @cons c cs t text char chars ih =>
    rcases hp.cases_append with hp | ⟨q, rfl, hq⟩
    · exact readChars_broken_char char hp steps
    · cases steps with
      | zero => cases t ++ q <;> rfl
      | succ steps =>
        rw [readChars_charText char, ih hq]
        rfl

/-- **A string that breaks off is found to do so**, wherever that may be. -/
theorem read_broken {s : String} {text p : List Char} (h : Text s text) (hp : Broken p text) (fuel : Nat) :
    read fuel p = .error .truncated := by
  rw [read, readChars_broken h hp]
  rfl

end Quoted

end TracedIndex.Json
