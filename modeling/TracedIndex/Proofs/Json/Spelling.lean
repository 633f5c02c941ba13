import Mathlib.Data.List.Forall2
import TracedIndex.Json.Value

/-!
# Spellings of values

A text **spells** a value if it is the value written out, with white space wherever it may stand before
and between the parts. Scalars and names may be written in any way in which they are read.

* `Blank`, `Stops`: texts of white space, and texts that can stand behind a value;
* `ElementsText`, `MembersText`: the texts between brackets, whatever the elements and members are;
* `Scalar.Spelled`, `Quoted.Spelled`: the spellings of a scalar and of a string behind its opening quote;
* **`Value.Spelled`**: the spellings of a value;
* `exists_elementsText`, `exists_membersText`: the texts of the parts of a value;
* `Value.Spelled.starts`: the white space in front may go.
-/

namespace TracedIndex.Json

/-! ## White space -/

/-- All of the text is white space. -/
def Blank (text : List Char) : Prop := ∀ c ∈ text, isSpace c

theorem blank_nil : Blank [] := nofun

theorem skipSpace_append {sp : List Char} (h : Blank sp) (text : List Char) :
    skipSpace (sp ++ text) = skipSpace text := List.dropWhile_append_of_pos h

theorem skipSpace_of_blank {sp : List Char} (h : Blank sp) : skipSpace sp = [] := by
  rw [← List.append_nil sp, skipSpace_append h]
  rfl

theorem skipSpace_cons {c : Char} (hc : isSpace c = false) (text : List Char) :
    skipSpace (c :: text) = c :: text := List.dropWhile_cons_of_neg (by simp [hc])

theorem skipSpace_append_cons {sp : List Char} (h : Blank sp) {c : Char} (hc : isSpace c = false)
    (text : List Char) : skipSpace (sp ++ c :: text) = c :: text := by
  rw [skipSpace_append h, skipSpace_cons hc]

/-- The text starts with nothing that could be a part of a number: it is at its end, or goes on with
white space or with what stands behind an element or a member. -/
def Stops (text : List Char) : Prop :=
  ∀ c ∈ text.head?, isSpace c ∨ c = ',' ∨ c = ']' ∨ c = '\x7d'

theorem stops_of_blank {sp : List Char} (h : Blank sp) : Stops sp :=
  fun _ hc => .inl (h _ (List.mem_of_mem_head? hc))

theorem stops_append_cons {sp : List Char} (h : Blank sp) {c : Char}
    (hc : c = ',' ∨ c = ']' ∨ c = '\x7d') (text : List Char) : Stops (sp ++ c :: text) := by
  intro d hd
  cases sp with
  | nil => exact .inr (Option.mem_some.mp hd ▸ hc)
  | cons e sp => exact .inl (Option.mem_some.mp hd ▸ h e List.mem_cons_self)

/-! ## Texts between brackets -/

/-- The texts of elements with commas between them, and a closing bracket. -/
def ElementsText : List (List Char) → List Char → Prop
  | [], text => ∃ sp, text = sp ++ [']'] ∧ Blank sp
  | [t], text => ∃ sp, text = t ++ (sp ++ [']']) ∧ Blank sp
  | t :: u :: ts, text => ∃ sp more, text = t ++ (sp ++ ',' :: more) ∧ Blank sp ∧ ElementsText (u :: ts) more

/-- A name up to its colon, with white space around it; `quoted` tells what may stand behind its opening
quote. -/
def NameText (quoted : List Char → Prop) (text : List Char) : Prop :=
  ∃ sp q sp', text = sp ++ '"' :: (q ++ (sp' ++ [':'])) ∧ Blank sp ∧ Blank sp' ∧ quoted q

/-- Members with commas between them, and a closing brace: names, and the texts of their values. -/
def MembersText {κ : Type} (quoted : κ → List Char → Prop) : List (κ × List Char) → List Char → Prop
  | [], text => ∃ sp, text = sp ++ ['\x7d'] ∧ Blank sp
  | [(k, t)], text => ∃ name sp, text = name ++ (t ++ (sp ++ ['\x7d'])) ∧ NameText (quoted k) name ∧ Blank sp
  | (k, t) :: m :: ms, text => ∃ name sp more, text = name ++ (t ++ (sp ++ ',' :: more)) ∧
      NameText (quoted k) name ∧ Blank sp ∧ MembersText quoted (m :: ms) more

theorem length_le_of_elementsText {ts : List (List Char)} {text : List Char} (h : ElementsText ts text) :
    ts.length ≤ text.length := by
  induction ts generalizing text with
  | nil => exact Nat.zero_le _
  | cons t ts ih =>
    cases ts with
    | nil =>
      obtain ⟨sp, rfl, -⟩ := h
      simp only [List.length_append, List.length_cons]
      omega
    | cons u ts =>
      obtain ⟨sp, more, rfl, -, hmore⟩ := h
      have := ih hmore
      simp only [List.length_append, List.length_cons] at this ⊢
      omega

theorem length_le_of_membersText {κ : Type} {quoted : κ → List Char → Prop} {ms : List (κ × List Char)}
    {text : List Char} (h : MembersText quoted ms text) : ms.length ≤ text.length := by
  induction ms generalizing text with
  | nil => exact Nat.zero_le _
  | cons m ms ih =>
    cases ms with
    | nil =>
      obtain ⟨name, sp, rfl, -⟩ := h
      simp only [List.length_append, List.length_cons]
      omega
    | cons m' ms =>
      obtain ⟨name, sp, more, rfl, -, -, hmore⟩ := h
      have := ih hmore
      simp only [List.length_append, List.length_cons] at this ⊢
      omega

/-- The white space in front of the first element may go. -/
theorem elementsText_append {sp t : List Char} {ts : List (List Char)} {text : List Char}
    (h : ElementsText ((sp ++ t) :: ts) text) : ∃ text', text = sp ++ text' ∧ ElementsText (t :: ts) text' := by
  cases ts with
  | nil =>
    obtain ⟨sp', rfl, hsp'⟩ := h
    exact ⟨_, List.append_assoc .., sp', rfl, hsp'⟩
  | cons u ts =>
    obtain ⟨sp', more, rfl, hsp', hmore⟩ := h
    exact ⟨_, List.append_assoc .., sp', more, rfl, hsp', hmore⟩

/-- The text of elements starts with that of the first. -/
theorem exists_append_of_elementsText {t : List Char} {ts : List (List Char)} {text : List Char}
    (h : ElementsText (t :: ts) text) : ∃ rest, text = t ++ rest := by
  cases ts with
  | nil =>
    obtain ⟨sp', rfl, -⟩ := h
    exact ⟨_, rfl⟩
  | cons u ts =>
    obtain ⟨sp', more, rfl, -, -⟩ := h
    exact ⟨_, rfl⟩

/-- The white space in front of the first name may go, and then there is its opening quote. -/
theorem exists_quote_of_membersText {κ : Type} {quoted : κ → List Char → Prop} {m : κ × List Char}
    {ms : List (κ × List Char)} {text : List Char} (h : MembersText quoted (m :: ms) text) :
    ∃ sp cs, text = sp ++ '"' :: cs ∧ Blank sp ∧ MembersText quoted (m :: ms) ('"' :: cs) := by
  cases ms with
  | nil =>
    obtain ⟨_, sp', rfl, ⟨sp, q, sp'', rfl, hsp, hsp'', hq⟩, hsp'⟩ := h
    exact ⟨sp, q ++ (sp'' ++ [':']) ++ (m.2 ++ (sp' ++ ['\x7d'])), by simp, hsp, '"' :: (q ++ (sp'' ++ [':'])),
      sp', by simp, ⟨[], q, sp'', rfl, blank_nil, hsp'', hq⟩, hsp'⟩
  | cons m' ms =>
    obtain ⟨_, sp', more, rfl, ⟨sp, q, sp'', rfl, hsp, hsp'', hq⟩, hsp', hmore⟩ := h
    exact ⟨sp, q ++ (sp'' ++ [':']) ++ (m.2 ++ (sp' ++ ',' :: more)), by simp, hsp,
      '"' :: (q ++ (sp'' ++ [':'])), sp', more, by simp, ⟨[], q, sp'', rfl, blank_nil, hsp'', hq⟩, hsp', hmore⟩

/-! ## Scalars and strings -/

/-- The text behind the opening quote of a string, with the closing quote. -/
def Quoted.Spelled (s : String) (text : List Char) : Prop :=
  ∀ fuel rest, text.length ≤ fuel → read fuel (text ++ rest) = .ok (s, rest)

/-- The text is read as the scalar, whatever may stand behind it. -/
def Scalar.Spelled (s : Scalar) (text : List Char) : Prop :=
  ∃ c cs, text = c :: cs ∧
    ∀ fuel rest, cs.length ≤ fuel → Stops rest → readFrom c fuel (cs ++ rest) = .ok (s, rest)

/-- A character at which a scalar starts is neither white space nor a bracket. -/
theorem Scalar.readFrom_ok {s : Scalar} {c : Char} {fuel : Nat} {text rest : List Char}
    (h : readFrom c fuel text = .ok (s, rest)) :
    isSpace c = false ∧ c ≠ '[' ∧ c ≠ '\x7b' ∧ c ≠ ']' := by
  have hbad : ∀ d, (d = ' ' ∨ d = '\t' ∨ d = '\n' ∨ d = '\r' ∨ d = '[' ∨ d = '\x7b' ∨ d = ']') →
      readFrom d fuel text = .error .malformed := by
    rintro d (rfl | rfl | rfl | rfl | rfl | rfl | rfl) <;> rfl
  have hgood : ∀ d, (d = ' ' ∨ d = '\t' ∨ d = '\n' ∨ d = '\r' ∨ d = '[' ∨ d = '\x7b' ∨ d = ']') →
      c ≠ d := by
    rintro d hd rfl
    rw [hbad c hd] at h
    cases h
  refine ⟨?_, hgood _ (by simp), hgood _ (by simp), hgood _ (by simp)⟩
  simp only [isSpace, Bool.or_eq_false_iff, beq_eq_false_iff_ne]
  exact ⟨⟨⟨hgood _ (by simp), hgood _ (by simp)⟩, hgood _ (by simp)⟩, hgood _ (by simp)⟩

/-- A name up to its colon, with white space around it. -/
def NameSpelled (name : String) (text : List Char) : Prop :=
  ∃ sp quoted sp', text = sp ++ '"' :: (quoted ++ (sp' ++ [':'])) ∧ Blank sp ∧ Blank sp' ∧
    Quoted.Spelled name quoted

/-! ## Values -/

mutual

/-- The text is the value written out, perhaps with white space before and between its parts. -/
def Value.Spelled : Value → List Char → Prop
  | .scalar s, text => ∃ sp t, text = sp ++ t ∧ Blank sp ∧ s.Spelled t
  | .array vs, text => ∃ sp t, text = sp ++ '[' :: t ∧ Blank sp ∧ ElementsSpelled vs t
  | .object ms, text => ∃ sp t, text = sp ++ '\x7b' :: t ∧ Blank sp ∧ MembersSpelled ms t

/-- Elements with commas between them, and a closing bracket. -/
def ElementsSpelled : List Value → List Char → Prop
  | [], text => ∃ sp, text = sp ++ [']'] ∧ Blank sp
  | [v], text => ∃ t sp, text = t ++ (sp ++ [']']) ∧ Value.Spelled v t ∧ Blank sp
  | v :: w :: vs, text => ∃ t sp more, text = t ++ (sp ++ ',' :: more) ∧ Value.Spelled v t ∧ Blank sp ∧
      ElementsSpelled (w :: vs) more

/-- Members with commas between them, and a closing brace. -/
def MembersSpelled : List (String × Value) → List Char → Prop
  | [], text => ∃ sp, text = sp ++ ['\x7d'] ∧ Blank sp
  | [(k, v)], text => ∃ name t sp, text = name ++ (t ++ (sp ++ ['\x7d'])) ∧ NameSpelled k name ∧
      Value.Spelled v t ∧ Blank sp
  | (k, v) :: m :: ms, text => ∃ name t sp more, text = name ++ (t ++ (sp ++ ',' :: more)) ∧
      NameSpelled k name ∧ Value.Spelled v t ∧ Blank sp ∧ MembersSpelled (m :: ms) more

end

/-- The texts of the elements. -/
theorem exists_elementsText {vs : List Value} {text : List Char} (h : ElementsSpelled vs text) :
    ∃ ts, ElementsText ts text ∧ List.Forall₂ Value.Spelled vs ts := by
  induction vs generalizing text with
  | nil => exact ⟨[], h, .nil⟩
  | cons v vs ih =>
    cases vs with
    | nil =>
      obtain ⟨t, sp, rfl, ht, hsp⟩ := h
      exact ⟨[t], ⟨sp, rfl, hsp⟩, .cons ht .nil⟩
    | cons w vs =>
      obtain ⟨t, sp, more, rfl, ht, hsp, hmore⟩ := h
      obtain ⟨_ | ⟨u, us⟩, hts, hall⟩ := ih hmore
      · cases hall
      · exact ⟨t :: u :: us, ⟨sp, more, rfl, hsp, hts⟩, .cons ht hall⟩

/-- The texts of the values of the members. -/
theorem exists_membersText {ms : List (String × Value)} {text : List Char} (h : MembersSpelled ms text) :
    ∃ ts, MembersText Quoted.Spelled ts text ∧
      List.Forall₂ (fun m (t : String × List Char) => t.1 = m.1 ∧ m.2.Spelled t.2) ms ts := by
  induction ms generalizing text with
  | nil => exact ⟨[], h, .nil⟩
  | cons m ms ih =>
    obtain ⟨k, v⟩ := m
    cases ms with
    | nil =>
      obtain ⟨name, t, sp, rfl, hname, ht, hsp⟩ := h
      exact ⟨[(k, t)], ⟨name, sp, rfl, hname, hsp⟩, .cons ⟨rfl, ht⟩ .nil⟩
    | cons m ms =>
      obtain ⟨name, t, sp, more, rfl, hname, ht, hsp, hmore⟩ := h
      obtain ⟨_ | ⟨u, us⟩, hts, hall⟩ := ih hmore
      · cases hall
      · exact ⟨(k, t) :: u :: us, ⟨name, sp, more, rfl, hname, hsp, hts⟩, .cons ⟨rfl, ht⟩ hall⟩

/-- Texts of the elements make up a text of the array. -/
theorem elementsSpelled_of_texts {vs : List Value} {ts : List (List Char)} {text : List Char}
    (htext : ElementsText ts text) (hts : List.Forall₂ Value.Spelled vs ts) : ElementsSpelled vs text := by
  induction hts generalizing text with
  | nil => exact htext
  | cons ht hts ih =>
    cases hts with
    | nil =>
      obtain ⟨sp, rfl, hsp⟩ := htext
      exact ⟨_, sp, rfl, ht, hsp⟩
    | cons hu hts =>
      obtain ⟨sp, more, rfl, hsp, hmore⟩ := htext
      exact ⟨_, sp, more, rfl, ht, hsp, ih hmore⟩

/-- Texts of the values of the members make up a text of the object. -/
theorem membersSpelled_of_texts {quoted : String → List Char → Prop}
    (hquoted : ∀ {k q}, quoted k q → Quoted.Spelled k q) {ms : List (String × Value)}
    {ts : List (String × List Char)} {text : List Char} (htext : MembersText quoted ts text)
    (hts : List.Forall₂ (fun m (t : String × List Char) => t.1 = m.1 ∧ m.2.Spelled t.2) ms ts) :
    MembersSpelled ms text := by
  have hname : ∀ {k name}, NameText (quoted k) name → NameSpelled k name := by
    rintro k _ ⟨sp, q, sp', rfl, hsp, hsp', hq⟩
    exact ⟨sp, q, sp', rfl, hsp, hsp', hquoted hq⟩
  induction hts generalizing text with
  | nil => exact htext
  | @cons m t _ _ ht hts ih =>
    obtain ⟨k, t⟩ := t
    obtain ⟨rfl, ht⟩ := ht
    cases hts with
    | nil =>
      obtain ⟨name, sp, rfl, hn, hsp⟩ := htext
      exact ⟨name, t, sp, rfl, hname hn, ht, hsp⟩
    | cons hu hts =>
      obtain ⟨name, sp, more, rfl, hn, hsp, hmore⟩ := htext
      exact ⟨name, t, sp, more, rfl, hname hn, ht, hsp, ih hmore⟩

/-- Behind white space, the text goes on with something other than a closing bracket, and it may do so at
once. -/
def Starts (S : List Char → Prop) (text : List Char) : Prop :=
  ∃ sp c cs, text = sp ++ c :: cs ∧ Blank sp ∧ isSpace c = false ∧ c ≠ ']' ∧ S (c :: cs)

/-- The white space in front may go; what is left starts with no closing bracket. -/
theorem Value.Spelled.starts {v : Value} {text : List Char} (h : v.Spelled text) :
    Starts v.Spelled text := by
  cases v with
  | scalar s =>
    obtain ⟨sp, t, rfl, hsp, hs⟩ := h
    obtain ⟨c, cs, rfl, hread⟩ := id hs
    obtain ⟨hspace, -, -, hclose⟩ := Scalar.readFrom_ok (hread _ [] (Nat.le_refl _) nofun)
    exact ⟨sp, c, cs, rfl, hsp, hspace, hclose, [], _, rfl, blank_nil, hs⟩
  | array vs =>
    obtain ⟨sp, t, rfl, hsp, ht⟩ := h
    exact ⟨sp, '[', t, rfl, hsp, rfl, by decide, [], t, rfl, blank_nil, ht⟩
  | object ms =>
    obtain ⟨sp, t, rfl, hsp, ht⟩ := h
    exact ⟨sp, '\x7b', t, rfl, hsp, rfl, by decide, [], t, rfl, blank_nil, ht⟩

end TracedIndex.Json
