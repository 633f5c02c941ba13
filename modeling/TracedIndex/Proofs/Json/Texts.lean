import TracedIndex.Proofs.Json.Written

/-!
# Texts of values

The texts of a value are those of its parts with white space between them: a number in any notation, a
string with any escapes. Each is read as the value, and the text that the value is written as is one of them.

* `Scalar.Text`, `Value.Text`: the texts of a scalar and of a value;
* **`Value.Text.spelled`**: they are spellings of the value;
* `Value.text_array`, `Value.text_object`: written arrays and objects are among them.
-/

namespace TracedIndex.Json

/-- The text is one of those of the scalar. -/
def Scalar.Text : Scalar → List Char → Prop
  | number n, text => ∃ l : Literal, l.Text text ∧ l.value? = some n
  | string s, text => ∃ t, text = '"' :: t ∧ Quoted.Text s t
  | s, text => text = s.write

theorem Scalar.Text.spelled {s : Scalar} {text : List Char} (h : s.Text text) : s.Spelled text := by
  cases s with
  | null =>
    obtain rfl : text = null.write := h
    exact spelled_null
  | bool b =>
    obtain rfl : text = (bool b).write := h
    exact spelled_bool b
  | number n =>
    obtain ⟨l, htext, hvalue⟩ := h
    exact spelled_number (Number.read_of_text htext hvalue)
  | string s =>
    obtain ⟨t, rfl, ht⟩ := h
    exact spelled_of_text ht

mutual

/-- The text is one of those of the value. -/
def Value.Text : Value → List Char → Prop
  | .scalar s, text => ∃ sp t, text = sp ++ t ∧ Blank sp ∧ s.Text t
  | .array vs, text => ∃ sp ts t, text = sp ++ '[' :: t ∧ Blank sp ∧ ElementsText ts t ∧ ElementTexts vs ts
  | .object ms, text => ∃ sp ts t, text = sp ++ '\x7b' :: t ∧ Blank sp ∧ MembersText Quoted.Text ts t ∧
      MemberTexts ms ts

/-- Each text is one of those of the value in its place. -/
def ElementTexts : List Value → List (List Char) → Prop
  | [], ts => ts = []
  | v :: vs, ts => ∃ t us, ts = t :: us ∧ v.Text t ∧ ElementTexts vs us

/-- Each name is the one in its place, and each text one of those of the value in its place. -/
def MemberTexts : List (String × Value) → List (String × List Char) → Prop
  | [], ts => ts = []
  | (k, v) :: ms, ts => ∃ t us, ts = (k, t) :: us ∧ v.Text t ∧ MemberTexts ms us

end

/-! ## Read -/

mutual

/-- **Each text of a value spells it.** -/
theorem Value.Text.spelled : ∀ {v : Value} {text : List Char}, v.Text text → v.Spelled text
  | .scalar _, _, ⟨sp, t, htext, hsp, ht⟩ => ⟨sp, t, htext, hsp, ht.spelled⟩
  | .array _, _, ⟨sp, _, t, htext, hsp, ht, hts⟩ =>
    ⟨sp, t, htext, hsp, elementsSpelled_of_texts ht (spelled_elements hts)⟩
  | .object _, _, ⟨sp, _, t, htext, hsp, ht, hts⟩ =>
    ⟨sp, t, htext, hsp, membersSpelled_of_texts Quoted.spelled_of_text ht (spelled_members hts)⟩

theorem spelled_elements : ∀ {vs : List Value} {ts : List (List Char)}, ElementTexts vs ts →
    List.Forall₂ Value.Spelled vs ts
  | [], _, rfl => .nil
  | _ :: _, _, ⟨_, _, rfl, ht, hus⟩ => .cons ht.spelled (spelled_elements hus)

theorem spelled_members : ∀ {ms : List (String × Value)} {ts : List (String × List Char)}, MemberTexts ms ts →
    List.Forall₂ (fun m t => t.1 = m.1 ∧ m.2.Spelled t.2) ms ts
  | [], _, rfl => .nil
  | (_, _) :: _, _, ⟨_, _, rfl, ht, hus⟩ => .cons ⟨rfl, ht.spelled⟩ (spelled_members hus)

end

/-! ## Written -/

theorem Scalar.text_string (s : String) : (string s).Text (string s).write :=
  ⟨_, rfl, Quoted.text_write s⟩

namespace Value

theorem text_scalar {s : Scalar} (h : s.Text s.write) : (scalar s).Text (scalar s).write :=
  ⟨[], s.write, rfl, blank_nil, h⟩

theorem text_whole {n : Int} (hmin : -2 ^ 63 ≤ n) (hmax : n < 2 ^ 64) :
    (scalar (.number (.whole n))).Text (scalar (.number (.whole n))).write :=
  text_scalar (Number.text_writeInt hmin hmax)

theorem text_ofNat {n : Nat} (h : n < UInt64.size) : (ofNat n).Text (ofNat n).write := by
  have hsize : UInt64.size = 2 ^ 64 := rfl
  exact text_whole (by omega) (by omega)

theorem text_ofText (s : String) : (ofText s).Text (ofText s).write := text_scalar (Scalar.text_string s)

theorem elementTexts_map_write {vs : List Value} (h : ∀ v ∈ vs, v.Text v.write) :
    ElementTexts vs (vs.map write) := by
  induction vs with
  | nil => rfl
  | cons v vs ih =>
    obtain ⟨hv, hvs⟩ := List.forall_mem_cons.mp h
    exact ⟨v.write, vs.map write, rfl, hv, ih hvs⟩

theorem memberTexts_map_write {ms : List (String × Value)} (h : ∀ m ∈ ms, m.2.Text m.2.write) :
    MemberTexts ms (ms.map fun m => (m.1, m.2.write)) := by
  induction ms with
  | nil => rfl
  | cons m ms ih =>
    obtain ⟨hm, hms⟩ := List.forall_mem_cons.mp h
    exact ⟨m.2.write, ms.map fun m => (m.1, m.2.write), rfl, hm, ih hms⟩

/-- **A written array is one of its texts**, if its elements are. -/
theorem text_array {vs : List Value} (h : ∀ v ∈ vs, v.Text v.write) : (array vs).Text (array vs).write :=
  ⟨[], vs.map write, _, rfl, blank_nil, elementsText_writeElements vs, elementTexts_map_write h⟩

/-- **A written object is one of its texts**, if the values of its members are. -/
theorem text_object {ms : List (String × Value)} (h : ∀ m ∈ ms, m.2.Text m.2.write) :
    (object ms).Text (object ms).write :=
  ⟨[], ms.map fun m => (m.1, m.2.write), _, rfl, blank_nil, membersText_writeMembers ms,
    memberTexts_map_write h⟩

end Value

end TracedIndex.Json
