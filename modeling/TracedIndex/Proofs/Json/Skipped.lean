import TracedIndex.Proofs.Json.Reading
import TracedIndex.Proofs.Json.Written

/-!
# Texts that are read over

Where a value does not matter, every well-formed text will do: it may nest as many arrays and objects as it
likes, its numbers may be too large, and its strings may hold half of a surrogate pair. What is read over
ends where the text does.

* `Quoted.LooseText`, `Scalar.LooseText`: the texts of some string and of some scalar;
* `WellFormed`: the texts of some value;
* `skipWithin_reads`: a text is read over, if it is no longer than it may nest;
* **`skipValue_reads`**: every well-formed text is read over.
-/

namespace TracedIndex.Json

/-! ## Strings -/

/-- The text of some characters and a closing quote; the codes may be those of no character. -/
inductive Quoted.LooseText : List Char → Prop
  | close : LooseText ['"']
  | plain {c : Char} {text : List Char} (quote : c ≠ '"') (backslash : c ≠ '\\') (control : 0x20 ≤ c.toNat)
    (chars : LooseText text) : LooseText (c :: text)
  | letter {c e : Char} {text : List Char} (escape : escape? e = some c) (chars : LooseText text) :
    LooseText ('\\' :: e :: text)
  | code {h₁ h₂ h₃ h₄ : Char} {n : Nat} {text : List Char} (number : hexNumber? h₁ h₂ h₃ h₄ = some n)
    (chars : LooseText text) : LooseText ('\\' :: 'u' :: h₁ :: h₂ :: h₃ :: h₄ :: text)

theorem Quoted.skipChars_of_text {text : List Char} (h : LooseText text) {steps : Nat}
    (hsteps : text.length ≤ steps) (rest : List Char) : skipChars steps (text ++ rest) = .ok rest := by
  induction h generalizing steps with
  | close =>
    obtain ⟨steps, rfl⟩ := Nat.exists_eq_add_one_of_ne_zero (Nat.ne_zero_of_lt hsteps)
    rfl
  | plain quote backslash control _ ih =>
    obtain ⟨steps, rfl⟩ := Nat.exists_eq_add_one_of_ne_zero (Nat.ne_zero_of_lt hsteps)
    rw [List.cons_append, skipChars, if_neg quote, if_neg backslash, if_neg (Nat.not_lt.mpr control)]
    exact ih (Nat.le_of_succ_le_succ hsteps)
  | @letter c e text escape _ ih =>
    obtain ⟨steps, rfl⟩ := Nat.exists_eq_add_one_of_ne_zero (Nat.ne_zero_of_lt hsteps)
    have hskip : skipEscape (e :: (text ++ rest)) = .ok (text ++ rest) := by rw [skipEscape, escape]
    simp only [List.length_cons] at hsteps
    rw [List.cons_append, List.cons_append, skipChars, if_neg (by decide), if_pos rfl, hskip]
    exact ih (by omega)
  | @code h₁ h₂ h₃ h₄ n text number _ ih =>
    obtain ⟨steps, rfl⟩ := Nat.exists_eq_add_one_of_ne_zero (Nat.ne_zero_of_lt hsteps)
    have hskip : skipEscape ('u' :: h₁ :: h₂ :: h₃ :: h₄ :: (text ++ rest)) = .ok (text ++ rest) := by
      have hletter : escape? 'u' = none := rfl
      simp only [skipEscape, hletter, readHex, number, if_true, Except.map]
    simp only [List.length_cons] at hsteps
    simp only [List.cons_append]
    rw [skipChars, if_neg (by decide), if_pos rfl, hskip]
    exact ih (by omega)

/-- **The rest of a string is read over**, whatever codes it has. -/
theorem Quoted.skip_of_text (k : Unit) (q : List Char) (fuel : Nat) (rest : List Char) (h : LooseText q)
    (hfuel : q.length ≤ fuel) : skip fuel (q ++ rest) = .ok (k, rest) := by
  rw [skip, skipChars_of_text h hfuel rest]
  rfl

/-! ## Scalars -/

/-- The text of some scalar. -/
inductive Scalar.LooseText : List Char → Prop
  | null : LooseText null.write
  | bool (b : Bool) : LooseText (bool b).write
  | number {l : Literal} {text : List Char} (literal : l.Text text) : LooseText text
  | string {text : List Char} (chars : Quoted.LooseText text) : LooseText ('"' :: text)

/-- A literal starts with a sign or a digit. -/
theorem Literal.Text.exists_cons {l : Literal} {text : List Char} (h : l.Text text) :
    ∃ c cs, text = c :: cs ∧ (c = '-' ∨ isDigit c) := by
  obtain ⟨fraction, exponent, rfl, ⟨hne, hall⟩, -⟩ := h
  obtain ⟨d, ds, hds⟩ := List.exists_cons_of_ne_nil hne
  have hd : isDigit d := hall d (hds ▸ List.mem_cons_self)
  rw [hds]
  cases l.negative with
  | true => exact ⟨'-', _, rfl, .inl rfl⟩
  | false => exact ⟨d, _, rfl, .inr hd⟩

/-- The text of a scalar starts with no white space and with no bracket. -/
theorem Scalar.LooseText.exists_cons {text : List Char} (h : LooseText text) :
    ∃ c cs, text = c :: cs ∧ isSpace c = false ∧ c ≠ '[' ∧ c ≠ '\x7b' ∧ c ≠ ']' := by
  cases h with
  | null => exact ⟨'n', _, rfl, by decide⟩
  | bool b => cases b <;> exact ⟨_, _, rfl, by decide⟩
  | string chars => exact ⟨'"', _, rfl, by decide⟩
  | number literal =>
    obtain ⟨c, cs, rfl, hc⟩ := literal.exists_cons
    have hstart : ∀ d, d ≠ '-' → isDigit d = false → c ≠ d := by
      rintro _ hminus hdigit rfl
      exact hc.elim hminus fun hc => absurd hc (by simp [hdigit])
    refine ⟨c, cs, rfl, ?_, hstart _ (by decide) rfl, hstart _ (by decide) rfl, hstart _ (by decide) rfl⟩
    simp only [isSpace, Bool.or_eq_false_iff, beq_eq_false_iff_ne]
    exact ⟨⟨⟨hstart _ (by decide) rfl, hstart _ (by decide) rfl⟩, hstart _ (by decide) rfl⟩,
      hstart _ (by decide) rfl⟩

theorem skipScalarFrom_of_text {c : Char} {cs : List Char} (h : Scalar.LooseText (c :: cs)) {fuel : Nat}
    (hfuel : cs.length ≤ fuel) {rest : List Char} (hrest : Stops rest) :
    skipScalarFrom c fuel (cs ++ rest) = .ok ((), rest) := by
  generalize htext : c :: cs = text at h
  cases h with
  | null =>
    obtain ⟨rfl, rfl⟩ := List.cons.inj htext
    rfl
  | bool b =>
    cases b <;> obtain ⟨rfl, rfl⟩ := List.cons.inj htext <;> rfl
  | string chars =>
    obtain ⟨rfl, rfl⟩ := List.cons.inj htext
    rw [skipScalarFrom, if_pos rfl]
    exact Quoted.skip_of_text () _ fuel rest chars hfuel
  | number literal =>
    subst htext
    obtain ⟨c, cs, hcs, hc⟩ := literal.exists_cons
    obtain ⟨rfl, rfl⟩ := List.cons.inj hcs
    have hquote : c ≠ '"' := by rintro rfl; revert hc; decide
    rw [skipScalarFrom, if_neg hquote, if_pos hc, ← List.cons_append,
      Literal.read_append hrest (Literal.read_of_text literal)]
    rfl

/-! ## Values -/

/-- The text of some value. -/
inductive WellFormed : List Char → Prop
  | scalar {sp t : List Char} (blank : Blank sp) (text : Scalar.LooseText t) : WellFormed (sp ++ t)
  | array {sp t : List Char} {ts : List (List Char)} (blank : Blank sp) (text : ElementsText ts t)
    (elements : ∀ u ∈ ts, WellFormed u) : WellFormed (sp ++ '[' :: t)
  | object {sp t : List Char} {ms : List (Unit × List Char)} (blank : Blank sp)
    (text : MembersText (fun _ => Quoted.LooseText) ms t) (values : ∀ m ∈ ms, WellFormed m.2) :
    WellFormed (sp ++ '\x7b' :: t)

/-- The white space in front may go; what is left starts with no closing bracket. -/
theorem WellFormed.starts {text : List Char} (h : WellFormed text) : Starts WellFormed text := by
  cases h with
  | scalar blank htext =>
    obtain ⟨c, cs, rfl, hspace, -, -, hclose⟩ := htext.exists_cons
    exact ⟨_, c, cs, rfl, blank, hspace, hclose, .scalar blank_nil htext⟩
  | array blank htext elements =>
    exact ⟨_, '[', _, rfl, blank, rfl, by decide, .array blank_nil htext elements⟩
  | object blank htext values =>
    exact ⟨_, '\x7b', _, rfl, blank, rfl, by decide, .object blank_nil htext values⟩

theorem length_le_of_mem_elements {ts : List (List Char)} {text : List Char} (h : ElementsText ts text) :
    ∀ t ∈ ts, t.length ≤ text.length := by
  induction ts generalizing text with
  | nil => nofun
  | cons t ts ih =>
    cases ts with
    | nil =>
      obtain ⟨sp, rfl, -⟩ := h
      simp
    | cons u ts =>
      obtain ⟨sp, more, rfl, -, hmore⟩ := h
      have := ih hmore
      refine List.forall_mem_cons.mpr ⟨by simp, fun v hv => Nat.le_trans (this v hv) ?_⟩
      simp only [List.length_append, List.length_cons]
      omega

theorem length_le_of_mem_members {κ : Type} {quoted : κ → List Char → Prop} {ms : List (κ × List Char)}
    {text : List Char} (h : MembersText quoted ms text) : ∀ m ∈ ms, m.2.length ≤ text.length := by
  induction ms generalizing text with
  | nil => nofun
  | cons m ms ih =>
    cases ms with
    | nil =>
      obtain ⟨name, sp, rfl, -⟩ := h
      simp only [List.forall_mem_singleton, List.length_append]
      omega
    | cons m' ms =>
      obtain ⟨name, sp, more, rfl, -, -, hmore⟩ := h
      have := ih hmore
      refine List.forall_mem_cons.mpr ⟨?_, fun m hm => Nat.le_trans (this m hm) ?_⟩
      all_goals
        simp only [List.length_append, List.length_cons]
        omega

section

variable {depth : Nat} (ih : ∀ {u : List Char}, WellFormed u → u.length ≤ depth →
  (skipWithin depth).Reads u (.ok ()))

include ih

theorem readArray_skipWithin {ts : List (List Char)} {text : List Char} (htext : ElementsText ts text)
    (helements : ∀ u ∈ ts, WellFormed u) (hdepth : text.length ≤ depth) {fuel : Nat}
    (hfuel : text.length ≤ fuel) (rest : List Char) :
    readArray (skipWithin depth) fuel (text ++ rest) = .ok (ts.map fun _ => (), rest) := by
  let S (_ : List Char) (u : List Char) : Prop := WellFormed u ∧ u.length ≤ depth
  have hS : ∀ i u, S i u → Starts (S i) u := by
    rintro i u ⟨hu, hlen⟩
    obtain ⟨sp, c, cs, rfl, hsp, hspace, hclose, hu⟩ := hu.starts
    rw [List.length_append] at hlen
    exact ⟨sp, c, cs, rfl, hsp, hspace, hclose, hu, by omega⟩
  have hts : List.Forall₂ S ts ts := List.forall₂_same.mpr fun u hu =>
    ⟨helements u hu, Nat.le_trans (length_le_of_mem_elements htext u hu) hdepth⟩
  have hread := readArray_of_texts (f := fun _ => .ok ()) (fun _ u hu => ih hu.1 hu.2) rest hS hts htext hfuel
  exact hread.trans (congrArg (Except.map _) (List.mapM_pure (m := Except Defect)))

theorem readObject_skipWithin {ms : List (Unit × List Char)} {text : List Char}
    (htext : MembersText (fun _ => Quoted.LooseText) ms text) (hvalues : ∀ m ∈ ms, WellFormed m.2)
    (hdepth : text.length ≤ depth) {fuel : Nat} (hfuel : text.length ≤ fuel) (rest : List Char) :
    readObject Quoted.skip (fun _ _ => (skipWithin depth).afterColon) () fuel (text ++ rest) =
      .ok ((), rest) := by
  let S (_ : Unit × List Char) (u : List Char) : Prop := WellFormed u ∧ u.length ≤ depth
  have hts : List.Forall₂ (fun i t => t.1 = i.1 ∧ S i t.2) ms ms := List.forall₂_same.mpr fun m hm =>
    ⟨rfl, hvalues m hm, Nat.le_trans (length_le_of_mem_members htext m hm) hdepth⟩
  refine (readObject_of_texts (f := fun _ _ => .ok ()) Quoted.skip_of_text rest ?_ hts htext hfuel ()).trans
    (congrArg (Except.map _) (List.foldlM_pure (m := Except Defect)))
  exact fun _ _ _ u hu => (ih hu.1 hu.2).afterColon

end

/-- **A well-formed text is read over**, if it is no longer than it may nest. -/
theorem skipWithin_reads (depth : Nat) {text : List Char} (h : WellFormed text)
    (hdepth : text.length ≤ depth) : (skipWithin depth).Reads text (.ok ()) := by
  induction depth generalizing text with
  | zero =>
    obtain ⟨sp, c, cs, rfl, -⟩ := h.starts
    simp at hdepth
  | succ depth ih =>
    intro fuel rest hfuel hrest
    cases h with
    | scalar blank htext =>
      obtain ⟨c, cs, rfl, hspace, harray, hobject, -⟩ := htext.exists_cons
      simp only [List.length_append, List.length_cons] at hfuel
      rw [skipWithin.eq_def, List.append_assoc, List.cons_append, skipSpace_append_cons blank hspace]
      simp only [if_neg harray, if_neg hobject]
      exact skipScalarFrom_of_text htext (by omega) hrest
    | array blank htext helements =>
      simp only [List.length_append, List.length_cons] at hfuel hdepth
      rw [skipWithin.eq_def, List.append_assoc, List.cons_append, skipSpace_append_cons blank rfl]
      simp only [if_true, readArray_skipWithin ih htext helements (by omega) (show _ ≤ fuel by omega) rest]
      rfl
    | object blank htext hvalues =>
      simp only [List.length_append, List.length_cons] at hfuel hdepth
      rw [skipWithin.eq_def, List.append_assoc, List.cons_append, skipSpace_append_cons blank rfl]
      exact readObject_skipWithin ih htext hvalues (by omega) (by omega) rest

/-- **Every well-formed text is read over.** -/
theorem skipValue_reads {text : List Char} (h : WellFormed text) : skipValue.Reads text (.ok ()) := by
  intro fuel rest hfuel hrest
  exact skipWithin_reads fuel h hfuel fuel rest hfuel hrest

end TracedIndex.Json
