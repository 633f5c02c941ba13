import TracedIndex.Json.Record
import TracedIndex.Proofs.Json.Spelling

/-!
# Reading spelled values

What a reader makes of the front of a text depends only on the value that is spelled there: some result, or
the first defect in the order of the text. The results for arrays and objects come from those for the
elements and the values of the members.

* `Reader.Reads`, `Reader.ReadsBehind`: what the reader gives for a text, and for one behind the name of a
  member; `Reader.Gives`, `Reader.GivesBehind`: for every spelling of a value;
* `readArray_of_texts`, `readObject_of_texts`: what is read between brackets;
* `readAs_gives`, `readArrayOf_gives`, `readRecord_gives`: values of a given kind;
* **`Value.read_gives`**: a value is read back unless it nests too many arrays and objects;
* `Reader.parse_of_gives`: whole texts.
-/

namespace TracedIndex.Json

variable {α β ι κ σ : Type}

/-- From the text `t`, the reader gives `y`, whatever may stand behind it. -/
def Reader.Reads (r : Reader α) (t : List Char) (y : Except Defect α) : Prop :=
  ∀ fuel rest, t.length ≤ fuel → Stops rest → r fuel (t ++ rest) = y.map (·, rest)

/-- From behind the name of a member, up to the end of the text `t` of its value, the reader gives `y`. -/
def Reader.ReadsBehind (r : Reader α) (t : List Char) (y : Except Defect α) : Prop :=
  ∀ sp fuel rest, Blank sp → t.length ≤ fuel → Stops rest → r fuel (sp ++ ':' :: (t ++ rest)) = y.map (·, rest)

/-- From every spelling of the value `v` at the front of a text, the reader gives `y`. -/
def Reader.Gives (r : Reader α) (v : Value) (y : Except Defect α) : Prop :=
  ∀ text fuel rest, v.Spelled text → text.length ≤ fuel → Stops rest →
    r fuel (text ++ rest) = y.map (·, rest)

/-- From behind the name of a member, up to the end of its value `v`, the reader gives `y`. -/
def Reader.GivesBehind (r : Reader α) (v : Value) (y : Except Defect α) : Prop :=
  ∀ sp text fuel rest, Blank sp → v.Spelled text → text.length ≤ fuel → Stops rest →
    r fuel (sp ++ ':' :: (text ++ rest)) = y.map (·, rest)

theorem Reader.Reads.afterColon {r : Reader α} {t : List Char} {y : Except Defect α} (h : r.Reads t y) :
    r.afterColon.ReadsBehind t y := by
  intro sp fuel rest hsp hfuel hrest
  simp only [Reader.afterColon, skipSpace_append_cons hsp (show isSpace ':' = false by decide)]
  exact h fuel rest hfuel hrest

/-- What a field that must not come twice is read as. -/
def once (old : Option α) (y : Except Defect β) : Except Defect β :=
  if old.isSome then .error .mismatched else y

theorem Reader.Reads.readOnce {r : Reader α} {t : List Char} {y : Except Defect α} (h : r.Reads t y)
    (old : Option β) : (readOnce old r).ReadsBehind t (once old y) := by
  intro sp fuel rest hsp hfuel hrest
  rw [Json.readOnce, once]
  split
  · rfl
  · exact h.afterColon sp fuel rest hsp hfuel hrest

/-- A reader that goes on with what another one gives. -/
theorem Reader.ReadsBehind.map {r : Reader α} {t : List Char} {y : Except Defect α} (h : r.ReadsBehind t y)
    (f : α → β) :
    Reader.ReadsBehind (fun fuel text => do
      let (x, rest) ← r fuel text
      pure (f x, rest)) t (y.map f) := by
  intro sp fuel rest hsp hfuel hrest
  simp only [h sp fuel rest hsp hfuel hrest]
  cases y <;> rfl

/-! ## Spellings of a value -/

section

variable {r : Reader α} {v : Value} {y : Except Defect α}

theorem Reader.Gives.reads (h : r.Gives v y) {t : List Char} (hv : v.Spelled t) : r.Reads t y :=
  fun fuel rest => h t fuel rest hv

theorem Reader.Gives.afterColon (h : r.Gives v y) : r.afterColon.GivesBehind v y :=
  fun sp _ fuel rest hsp hv => (h.reads hv).afterColon sp fuel rest hsp

theorem Reader.Gives.readOnce (h : r.Gives v y) (old : Option β) :
    (readOnce old r).GivesBehind v (once old y) :=
  fun sp _ fuel rest hsp hv => (h.reads hv).readOnce old sp fuel rest hsp

theorem Reader.GivesBehind.map (h : r.GivesBehind v y) (f : α → β) :
    Reader.GivesBehind (fun fuel text => do
      let (x, rest) ← r fuel text
      pure (f x, rest)) v (y.map f) := by
  intro sp text fuel rest hsp hv
  have ht : r.ReadsBehind text y := fun sp fuel rest hsp => h sp text fuel rest hsp hv
  exact ht.map f sp fuel rest hsp

end

/-! ## Arrays -/

section

variable {r : Reader α} {S : ι → List Char → Prop} {f : ι → Except Defect α}
  (hr : ∀ i t, S i t → r.Reads t (f i))

/-- The first element, and what stands behind it. -/
theorem readElements_first {y : Except Defect α} {t : List Char} (ht : r.Reads t y) {fuel : Nat}
    {sp : List Char} (hfuel : t.length ≤ fuel) (hsp : Blank sp) {c : Char} (hc : c = ',' ∨ c = ']')
    (steps : Nat) (more : List Char) :
    readElements r fuel (steps + 1) (t ++ (sp ++ c :: more)) = y.bind fun x =>
      if c = ']' then .ok ([x], more)
      else (readElements r fuel steps more).map fun p => (x :: p.1, p.2) := by
  have hspace : isSpace c = false := by rcases hc with rfl | rfl <;> rfl
  rw [readElements, ht fuel _ hfuel (stops_append_cons hsp (hc.imp_right .inl) more)]
  cases y with
  | error e => rfl
  | ok x =>
    simp only [Except.map, bind, Except.bind, skipSpace_append_cons hsp hspace]
    rcases hc with rfl | rfl
    · simp only [if_neg (show ',' ≠ ']' by decide), if_true]
      cases readElements r fuel steps more <;> rfl
    · rfl

include hr

theorem readElements_of_texts {fuel : Nat} (rest : List Char) {is : List ι} {ts : List (List Char)}
    (hne : is ≠ []) (hts : List.Forall₂ S is ts) {text : List Char} (htext : ElementsText ts text)
    (hfuel : text.length ≤ fuel) {steps : Nat} (hsteps : ts.length ≤ steps) :
    readElements r fuel steps (text ++ rest) = (is.mapM f).map (·, rest) := by
  induction hts generalizing text steps with
  | nil => exact absurd rfl hne
  | @cons i t is ts ht hts ih =>
    obtain ⟨steps, rfl⟩ := Nat.exists_eq_add_one_of_ne_zero (Nat.ne_zero_of_lt hsteps)
    rw [List.mapM_cons]
    cases hts with
    | nil =>
      obtain ⟨sp, rfl, hsp⟩ := htext
      simp only [List.length_append] at hfuel
      simp only [List.append_assoc, List.cons_append, List.nil_append]
      rw [readElements_first (hr i t ht) (by omega) hsp (.inr rfl)]
      cases f i <;> rfl
    | @cons j u is ts hu hts =>
      obtain ⟨sp, more, rfl, hsp, hmore⟩ := htext
      simp only [List.length_append, List.length_cons] at hfuel
      simp only [List.append_assoc, List.cons_append]
      have hmore := ih (List.cons_ne_nil j is) hmore (by omega) (Nat.le_of_succ_le_succ hsteps)
      rw [readElements_first (hr i t ht) (by omega) hsp (.inl rfl)]
      simp only [if_neg (show ',' ≠ ']' by decide), hmore]
      cases f i with
      | error e => rfl
      | ok x => cases (j :: is).mapM f <;> rfl

/-- **The elements of an array are read one by one**, up to the first defect in one of them. -/
theorem readArray_of_texts {fuel : Nat} (rest : List Char) {is : List ι} {ts : List (List Char)}
    (hS : ∀ i t, S i t → Starts (S i) t) (hts : List.Forall₂ S is ts) {text : List Char}
    (htext : ElementsText ts text) (hfuel : text.length ≤ fuel) :
    readArray r fuel (text ++ rest) = (is.mapM f).map (·, rest) := by
  rw [readArray]
  cases hts with
  | nil =>
    obtain ⟨sp, rfl, hsp⟩ := htext
    simp only [List.append_assoc, List.cons_append, List.nil_append,
      skipSpace_append_cons hsp (show isSpace ']' = false by decide)]
    rfl
  | @cons i t is ts ht hts =>
    obtain ⟨sp, c, cs, rfl, hsp, hc, hclose, ht⟩ := hS i t ht
    obtain ⟨_, rfl, hstripped⟩ := elementsText_append htext
    obtain ⟨more, rfl⟩ := exists_append_of_elementsText hstripped
    have hlen := length_le_of_elementsText hstripped
    rw [List.length_append] at hfuel
    rw [List.append_assoc, List.cons_append, List.cons_append, skipSpace_append_cons hsp hc]
    simp only [if_neg hclose]
    rw [← List.cons_append, ← List.cons_append]
    exact readElements_of_texts hr rest (List.cons_ne_nil i is) (.cons ht hts) hstripped (by omega) (by omega)

end

/-- The elements of an array that is a value. -/
theorem readArray_eq {r : Reader α} {f : Value → Except Defect α} {fuel : Nat} (rest : List Char)
    {vs : List Value} (hr : ∀ v, r.Gives v (f v)) {text : List Char} (htext : ElementsSpelled vs text)
    (hfuel : text.length ≤ fuel) : readArray r fuel (text ++ rest) = (vs.mapM f).map (·, rest) := by
  obtain ⟨ts, htext, hts⟩ := exists_elementsText htext
  exact readArray_of_texts (fun v t ht fuel rest => hr v t fuel rest ht) rest (fun _ _ => Value.Spelled.starts)
    hts htext hfuel

/-! ## Objects -/

section

variable {name : Reader κ} {quoted : κ → List Char → Prop} {member : κ → σ → Reader σ}
  (hname : ∀ k q fuel rest, quoted k q → q.length ≤ fuel → name fuel (q ++ rest) = .ok (k, rest))

include hname

/-- The first member, and what stands behind it. -/
theorem readMembers_first {k : κ} {t : List Char} {s : σ} {y : Except Defect σ}
    (hr : (member k s).ReadsBehind t y) {fuel : Nat} {n sp : List Char} (hn : NameText (quoted k) n)
    (hfuel : n.length + t.length ≤ fuel) (hsp : Blank sp) {c : Char} (hc : c = ',' ∨ c = '\x7d')
    (steps : Nat) (more : List Char) :
    readMembers name member fuel (steps + 1) s (n ++ (t ++ (sp ++ c :: more))) = y.bind fun s =>
      if c = '\x7d' then .ok (s, more) else readMembers name member fuel steps s more := by
  have hspace : isSpace c = false := by rcases hc with rfl | rfl <;> rfl
  obtain ⟨sp₁, q, sp₂, rfl, hsp₁, hsp₂, hq⟩ := hn
  simp only [List.length_append, List.length_cons] at hfuel
  rw [readMembers]
  simp only [List.append_assoc, List.cons_append, List.nil_append, ne_eq, not_true_eq_false, if_false,
    skipSpace_append_cons hsp₁ (show isSpace '"' = false by decide), hname _ _ fuel _ hq (by omega),
    bind, Except.bind, hr sp₂ fuel _ hsp₂ (by omega) (stops_append_cons hsp (hc.imp_right .inr) more)]
  cases y with
  | error e => rfl
  | ok s =>
    simp only [Except.map, skipSpace_append_cons hsp hspace]
    rcases hc with rfl | rfl <;> rfl

variable {key : ι → κ} {S : ι → List Char → Prop} {f : σ → ι → Except Defect σ}

theorem readMembers_of_texts {fuel : Nat} (rest : List Char) {is : List ι} {ts : List (κ × List Char)}
    (hne : is ≠ []) (hr : ∀ i ∈ is, ∀ s t, S i t → (member (key i) s).ReadsBehind t (f s i))
    (hts : List.Forall₂ (fun i t => t.1 = key i ∧ S i t.2) is ts) {text : List Char}
    (htext : MembersText quoted ts text) (hfuel : text.length ≤ fuel) {steps : Nat}
    (hsteps : ts.length ≤ steps) (s : σ) :
    readMembers name member fuel steps s (text ++ rest) = (is.foldlM f s).map (·, rest) := by
  induction hts generalizing text steps s with
  | nil => exact absurd rfl hne
  | @cons i t is ts ht hts ih =>
    obtain ⟨k, t⟩ := t
    obtain ⟨rfl, ht⟩ := ht
    obtain ⟨steps, rfl⟩ := Nat.exists_eq_add_one_of_ne_zero (Nat.ne_zero_of_lt hsteps)
    have hread := hr i List.mem_cons_self s t ht
    rw [List.foldlM_cons]
    cases hts with
    | nil =>
      obtain ⟨n, sp, rfl, hn, hsp⟩ := htext
      simp only [List.length_append] at hfuel
      simp only [List.append_assoc, List.cons_append, List.nil_append]
      rw [readMembers_first hname hread hn (by omega) hsp (.inr rfl)]
      cases f s i <;> rfl
    | @cons j u is ts hu hts =>
      obtain ⟨n, sp, more, rfl, hn, hsp, hmore⟩ := htext
      simp only [List.length_append, List.length_cons] at hfuel
      simp only [List.append_assoc, List.cons_append]
      rw [readMembers_first hname hread hn (by omega) hsp (.inl rfl)]
      simp only [if_neg (show ',' ≠ '\x7d' by decide)]
      cases f s i with
      | error e => rfl
      | ok s =>
        exact ih (List.cons_ne_nil j is) (fun i hi => hr i (List.mem_cons_of_mem _ hi)) hmore (by omega)
          (Nat.le_of_succ_le_succ hsteps) s

/-- **The members of an object are read one by one**, up to the first defect in one of them. -/
theorem readObject_of_texts {fuel : Nat} (rest : List Char) {is : List ι} {ts : List (κ × List Char)}
    (hr : ∀ i ∈ is, ∀ s t, S i t → (member (key i) s).ReadsBehind t (f s i))
    (hts : List.Forall₂ (fun i t => t.1 = key i ∧ S i t.2) is ts) {text : List Char}
    (htext : MembersText quoted ts text) (hfuel : text.length ≤ fuel) (s : σ) :
    readObject name member s fuel (text ++ rest) = (is.foldlM f s).map (·, rest) := by
  rw [readObject]
  cases hts with
  | nil =>
    obtain ⟨sp, rfl, hsp⟩ := htext
    simp only [List.append_assoc, List.cons_append, List.nil_append,
      skipSpace_append_cons hsp (show isSpace '\x7d' = false by decide)]
    rfl
  | @cons i t is ts ht hts =>
    have hlen := length_le_of_membersText htext
    obtain ⟨sp, cs, rfl, hsp, htext⟩ := exists_quote_of_membersText htext
    simp only [List.append_assoc, List.cons_append,
      skipSpace_append_cons hsp (show isSpace '"' = false by decide),
      if_neg (show '"' ≠ '\x7d' by decide)]
    rw [List.length_append] at hfuel hlen
    exact readMembers_of_texts hname rest (List.cons_ne_nil i is) hr (.cons ht hts) htext (by omega)
      (by omega) s

end

theorem readQuoted_eq (k : String) (quoted : List Char) (fuel : Nat) (rest : List Char)
    (h : Quoted.Spelled k quoted) (hfuel : quoted.length ≤ fuel) :
    Quoted.read fuel (quoted ++ rest) = .ok (k, rest) := h fuel rest hfuel

/-- The members of an object that is a value. -/
theorem readObject_eq {member : String → σ → Reader σ} {f : σ → String × Value → Except Defect σ} {fuel : Nat}
    (rest : List Char) {ms : List (String × Value)} (hr : ∀ m ∈ ms, ∀ s, (member m.1 s).GivesBehind m.2 (f s m))
    {text : List Char} (htext : MembersSpelled ms text) (hfuel : text.length ≤ fuel) (s : σ) :
    readObject Quoted.read member s fuel (text ++ rest) = (ms.foldlM f s).map (·, rest) := by
  obtain ⟨ts, htext, hts⟩ := exists_membersText htext
  exact readObject_of_texts readQuoted_eq rest
    (fun m hm s t ht sp fuel rest hsp => hr m hm s sp t fuel rest hsp ht) hts htext hfuel s

/-! ## Values of a given kind -/

/-- The value, or a mismatch if there is none. -/
def orMismatched : Option α → Except Defect α
  | some x => .ok x
  | none => .error .mismatched

theorem Reader.Gives.filterMap {r : Reader α} {v : Value} {y : Except Defect α} (h : r.Gives v y)
    (f : α → Option β) : (r.filterMap f).Gives v (y.bind fun x => orMismatched (f x)) := by
  intro text fuel rest hv hfuel hrest
  rw [Reader.filterMap, h text fuel rest hv hfuel hrest]
  cases y with
  | error e => rfl
  | ok x =>
    simp only [Except.map, bind, Except.bind]
    cases f x <;> rfl

theorem Scalar.read_gives (s : Scalar) : Scalar.read.Gives (.scalar s) (.ok s) := by
  intro text fuel rest htext hfuel hrest
  obtain ⟨sp, t, rfl, hsp, c, cs, rfl, hs⟩ := htext
  obtain ⟨hspace, harray, hobject, -⟩ := readFrom_ok (hs _ [] (Nat.le_refl _) nofun)
  simp only [List.length_append, List.length_cons] at hfuel
  rw [read, List.append_assoc, List.cons_append, skipSpace_append_cons hsp hspace]
  simp only [harray, hobject, or_self, if_false, hs fuel rest (by omega) hrest]
  rfl

/-- What a value is as a scalar of a given kind. -/
def asScalar (f : Scalar → Option α) : Value → Except Defect α
  | .scalar s => orMismatched (f s)
  | _ => .error .mismatched

theorem readAs_gives (f : Scalar → Option α) (v : Value) : (readAs f).Gives v (asScalar f v) := by
  cases v with
  | scalar s => exact (Scalar.read_gives s).filterMap f
  | array vs | object ms =>
    rintro text fuel rest ⟨sp, t, rfl, hsp, ht⟩ hfuel hrest
    rw [readAs, Reader.filterMap, Scalar.read, List.append_assoc, List.cons_append,
      skipSpace_append_cons hsp (by decide)]
    rfl

/-- What a value is as an array of elements of a given kind. -/
def asArray (f : Value → Except Defect α) : Value → Except Defect (List α)
  | .array vs => vs.mapM f
  | _ => .error .mismatched

theorem readArrayOf_gives {r : Reader α} {f : Value → Except Defect α} (hr : ∀ v, r.Gives v (f v))
    (v : Value) : (readArrayOf r).Gives v (asArray f v) := by
  intro text fuel rest htext hfuel hrest
  cases v with
  | array vs =>
    obtain ⟨sp, t, rfl, hsp, ht⟩ := htext
    simp only [List.length_append, List.length_cons] at hfuel
    rw [readArrayOf, List.append_assoc, List.cons_append,
      skipSpace_append_cons hsp (show isSpace '[' = false by decide)]
    exact readArray_eq rest hr ht (by omega)
  | object ms =>
    obtain ⟨sp, t, rfl, hsp, ht⟩ := htext
    rw [readArrayOf, List.append_assoc, List.cons_append, skipSpace_append_cons hsp (by decide)]
    rfl
  | scalar s =>
    obtain ⟨sp, t, rfl, hsp, c, cs, rfl, hs⟩ := htext
    obtain ⟨hspace, harray, -⟩ := Scalar.readFrom_ok (hs _ [] (Nat.le_refl _) nofun)
    rw [List.length_append] at hfuel
    rw [readArrayOf, List.append_assoc, List.cons_append, skipSpace_append_cons hsp hspace]
    split
    · next heq => exact absurd (List.cons.inj heq).1 harray
    · exact readAs_gives (fun _ => none) (.scalar s) (c :: cs) fuel rest
        ⟨[], c :: cs, rfl, blank_nil, c, cs, rfl, hs⟩ (by omega) hrest

section

variable {start : σ} {field : String → σ → Reader σ} {finish : σ → Option α}
  {f : σ → String × Value → Except Defect σ} {ms : List (String × Value)}
  (hr : ∀ m ∈ ms, ∀ s, (field m.1 s).GivesBehind m.2 (f s m))

include hr

/-- The members of an object, put together. -/
theorem readObject_filterMap_eq {fuel : Nat} {text rest : List Char} (htext : MembersSpelled ms text)
    (hfuel : text.length ≤ fuel) :
    (readObject Quoted.read field start).filterMap finish fuel (text ++ rest) =
      ((ms.foldlM f start).bind fun s => orMismatched (finish s)).map (·, rest) := by
  rw [Reader.filterMap, readObject_eq rest hr htext hfuel]
  cases ms.foldlM f start with
  | error e => rfl
  | ok s =>
    simp only [Except.map, bind, Except.bind]
    cases finish s <;> rfl

/-- A record that is written as an object. -/
theorem readRecord_gives {inOrder : Reader α} : (readRecord start field finish inOrder).Gives (.object ms)
    ((ms.foldlM f start).bind fun s => orMismatched (finish s)) := by
  rintro text fuel rest ⟨sp, t, rfl, hsp, ht⟩ hfuel hrest
  simp only [List.length_append, List.length_cons] at hfuel
  rw [readRecord, List.append_assoc, List.cons_append,
    skipSpace_append_cons hsp (show isSpace '\x7b' = false by decide)]
  exact readObject_filterMap_eq hr ht (by omega)

end

/-! ## Any values -/

namespace Value

/-- The value, if it nests at most `depth` arrays and objects. -/
def within (depth : Nat) (v : Value) : Except Defect Value :=
  if v.depth ≤ depth then .ok v else .error .malformed

theorem readMember_gives {r : Reader Value} {v : Value} {y : Except Defect Value} (h : r.Gives v y)
    (name : String) (ms : List (String × Value)) :
    (readMember r name ms).GivesBehind v (y.map fun v => (name, v) :: ms) :=
  h.afterColon.map fun v => (name, v) :: ms

theorem mapM_within (depth : Nat) (vs : List Value) :
    vs.mapM (within depth) = if depthOfElements vs ≤ depth then .ok vs else .error .malformed := by
  induction vs with
  | nil => rfl
  | cons v vs ih =>
    rw [List.mapM_cons, ih, within]
    simp only [depthOfElements, Nat.max_le]
    by_cases hv : v.depth ≤ depth <;> by_cases hvs : depthOfElements vs ≤ depth <;> simp [hv, hvs] <;> rfl

theorem foldlM_within (depth : Nat) (ms acc : List (String × Value)) :
    ms.foldlM (fun acc m => (within depth m.2).map fun v => (m.1, v) :: acc) acc =
      if depthOfMembers ms ≤ depth then .ok (ms.reverse ++ acc) else .error .malformed := by
  induction ms generalizing acc with
  | nil => rfl
  | cons m ms ih =>
    obtain ⟨k, v⟩ := m
    rw [List.foldlM_cons, within]
    by_cases hv : v.depth ≤ depth
    · rw [if_pos hv]
      refine (ih ((k, v) :: acc)).trans ?_
      simp only [depthOfMembers, Nat.max_le, hv, true_and, List.reverse_cons, List.append_assoc,
        List.singleton_append]
    · rw [if_neg hv, depthOfMembers, if_neg fun h => hv (Nat.max_le.mp h).1]
      rfl

theorem read_gives_scalar (depth : Nat) (s : Scalar) : (read depth).Gives (.scalar s) (.ok (.scalar s)) := by
  intro text fuel rest htext hfuel hrest
  obtain ⟨sp, t, rfl, hsp, c, cs, rfl, hs⟩ := htext
  obtain ⟨hspace, harray, hobject, -⟩ := Scalar.readFrom_ok (hs _ [] (Nat.le_refl _) nofun)
  simp only [List.length_append, List.length_cons] at hfuel
  rw [read.eq_def, List.append_assoc, List.cons_append, skipSpace_append_cons hsp hspace]
  simp only [harray, hobject, if_false, hs fuel rest (by omega) hrest]
  rfl

/-- **A value is read back, unless it nests too many arrays and objects.** -/
theorem read_gives (depth : Nat) (v : Value) : (read depth).Gives v (v.within depth) := by
  induction depth generalizing v with
  | zero =>
    cases v with
    | scalar s => exact read_gives_scalar 0 s
    | array vs | object ms =>
      rintro text fuel rest ⟨sp, t, rfl, hsp, ht⟩ hfuel hrest
      rw [read.eq_def, List.append_assoc, List.cons_append, skipSpace_append_cons hsp (by decide)]
      rfl
  | succ depth ih =>
    cases v with
    | scalar s => exact read_gives_scalar (depth + 1) s
    | array vs =>
      rintro text fuel rest ⟨sp, t, rfl, hsp, ht⟩ hfuel hrest
      simp only [List.length_append, List.length_cons] at hfuel
      rw [read.eq_def, List.append_assoc, List.cons_append,
        skipSpace_append_cons hsp (show isSpace '[' = false by decide)]
      simp only [readArray_eq rest ih ht (show t.length ≤ fuel by omega), mapM_within,
        within, Value.depth, Nat.add_le_add_iff_right, if_true]
      split <;> rfl
    | object ms =>
      rintro text fuel rest ⟨sp, t, rfl, hsp, ht⟩ hfuel hrest
      simp only [List.length_append, List.length_cons] at hfuel
      rw [read.eq_def, List.append_assoc, List.cons_append,
        skipSpace_append_cons hsp (show isSpace '\x7b' = false by decide)]
      have hmembers := readObject_eq rest (fun m _ acc => readMember_gives (ih m.2) m.1 acc) ht
        (show t.length ≤ fuel by omega) []
      rw [foldlM_within, List.append_nil] at hmembers
      simp only [hmembers, within, Value.depth, Nat.add_le_add_iff_right, if_true,
        if_neg (show '\x7b' ≠ '[' by decide)]
      split <;> simp [Except.map, bind, Except.bind, pure, Except.pure]

end Value

/-! ## Whole texts -/

theorem Reader.parse_of_gives {r : Reader α} {v : Value} {y : Except Defect α} (h : r.Gives v y)
    {text : String} {t sp : List Char} (htext : text.toList = t ++ sp) (hv : v.Spelled t) (hsp : Blank sp) :
    r.parse text = y := by
  rw [parse, htext, h t _ sp hv (by simp) (stops_of_blank hsp)]
  cases y with
  | error e => rfl
  | ok x =>
    simp only [Except.map, bind, Except.bind, skipSpace_of_blank hsp]
    rfl

end TracedIndex.Json
