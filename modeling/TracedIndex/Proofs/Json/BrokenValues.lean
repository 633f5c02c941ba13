import TracedIndex.Proofs.Json.BrokenNumbers
import TracedIndex.Proofs.Json.Reading
import TracedIndex.Proofs.Json.Results

/-!
# Values that break off

Wherever the text of a value breaks off, its reader reads all that there is. An array or object is then found to be
too short, for its closing bracket is missing; so is any other value, except that what is left of a number may be
taken for a number, behind which nothing stands.

* `Exhausted`, `Reader.BreaksOff`, `Reader.FallsShort`: what is read of a text that breaks off;
* `Reader.Handles`, `Reader.HandlesBehind`: a reader that reads the whole text, and all of one that breaks off;
* `Scalar.Breakable`: the texts of scalars; `Scalar.breakable_nat`, `Scalar.breakable_whole`: whole numbers;
* `readArrayOf_fallsShort`, `readObject_broken`: what breaks off between brackets;
* **`Value.Breakable`**: values of a limited depth.
-/

namespace TracedIndex.Json

variable {α β σ : Type}

/-- All of the text was read: it was found to be too short, or was taken for a value. -/
def Exhausted (y : Except Defect (α × List Char)) : Prop := y = .error .truncated ∨ ∃ x, y = .ok (x, [])

namespace Reader

/-- Wherever `t` breaks off, the reader reads all that there is. -/
def BreaksOff (r : Reader α) (t : List Char) : Prop :=
  ∀ p fuel, Broken p t → p.length ≤ fuel → Exhausted (r fuel p)

/-- Wherever `t` breaks off, the reader finds it to be too short. -/
def FallsShort (r : Reader α) (t : List Char) : Prop :=
  ∀ p fuel, Broken p t → p.length ≤ fuel → r fuel p = .error .truncated

/-- The reader reads `x` from the text, and all that there is wherever it breaks off. -/
structure Handles (r : Reader α) (t : List Char) (x : α) : Prop where
  reads : r.Reads t (.ok x)
  breaksOff : r.BreaksOff t

/-- The same from behind the name of a member. -/
structure HandlesBehind (r : Reader α) (t : List Char) (x : α) : Prop where
  reads : r.ReadsBehind t (.ok x)
  breaksOff : r.BreaksOff (':' :: t)

variable {r : Reader α} {t u p : List Char} {x : α} {fuel : Nat}

theorem FallsShort.breaksOff (h : r.FallsShort t) : r.BreaksOff t :=
  fun p fuel hp hfuel => Or.inl (h p fuel hp hfuel)

/-- A text that breaks off in the value or behind it. -/
theorem Handles.cases_append (h : r.Handles t x) (hu : Stops u) (hp : Broken p (t ++ u)) (hfuel : p.length ≤ fuel) :
    Exhausted (r fuel p) ∨ ∃ q, r fuel p = .ok (x, q) ∧ Broken q u ∧ q.length ≤ fuel := by
  rcases hp.cases_append with hp | ⟨q, rfl, hq⟩
  · exact Or.inl (h.breaksOff p fuel hp hfuel)
  · rw [List.length_append] at hfuel
    exact Or.inr ⟨q, h.reads fuel q (by omega) (hq.stops hu), hq, by omega⟩

theorem HandlesBehind.handles (h : r.HandlesBehind t x) : r.Handles (':' :: t) x where
  reads fuel rest hfuel := h.reads [] fuel rest blank_nil (Nat.le_of_succ_le hfuel)
  breaksOff := h.breaksOff

theorem Handles.afterColon (h : r.Handles t x) : r.afterColon.HandlesBehind t x where
  reads := h.reads.afterColon
  breaksOff p fuel hp hfuel := by
    rcases hp.cases_cons with rfl | ⟨q, rfl, hq⟩
    · exact Or.inl rfl
    · exact h.breaksOff q fuel hq (Nat.le_of_succ_le hfuel)

theorem Handles.readOnce (h : r.Handles t x) : (readOnce (none : Option β) r).HandlesBehind t x := h.afterColon

/-- A reader that goes on with what another one gives. -/
theorem HandlesBehind.map (h : r.HandlesBehind t x) (f : α → β) :
    HandlesBehind (fun fuel text => do
      let (x, rest) ← r fuel text
      pure (f x, rest)) t (f x) where
  reads := h.reads.map f
  breaksOff p fuel hp hfuel := by
    rcases h.breaksOff p fuel hp hfuel with hshort | ⟨y, hy⟩
    · simp only [hshort]
      exact Or.inl rfl
    · simp only [hy]
      exact Or.inr ⟨f y, rfl⟩

end Reader

/-! ## Scalars -/

/-- The text is read as the scalar, and where it breaks off it is found to be too short, or what is left is read as
a scalar with the property. -/
structure Scalar.Breakable (s : Scalar) (text : List Char) (P : Scalar → Prop) : Prop where
  spelled : s.Spelled text
  breaks : ∀ c cs fuel, Broken (c :: cs) text →
    readFrom c fuel cs = .error .truncated ∨ ∃ s', readFrom c fuel cs = .ok (s', []) ∧ P s'

namespace Scalar

variable {s : Scalar} {text : List Char} {P : Scalar → Prop}

theorem breakable_string (s : String) : (string s).Breakable (string s).write P where
  spelled := spelled_string s
  breaks c cs fuel h := by
    rcases h.cases_cons with hnil | ⟨q, heq, hq⟩
    · cases hnil
    · obtain ⟨rfl, rfl⟩ := List.cons.inj heq
      rw [readFrom, if_pos rfl, Quoted.read_broken (Quoted.text_write s) hq]
      exact Or.inl rfl

theorem breakable_null : null.Breakable null.write P where
  spelled := spelled_null
  breaks c cs fuel h := by
    rcases h.cases_cons with hnil | ⟨q, heq, hq⟩
    · cases hnil
    · obtain ⟨rfl, rfl⟩ := List.cons.inj heq
      have hread : readFrom 'n' fuel cs = (readWord ['u', 'l', 'l'] cs).bind fun rest => .ok (.null, rest) := rfl
      rw [hread, readWord_broken hq]
      exact Or.inl rfl

/-- A number, if what is left of its literal has a value with the property. -/
theorem breakable_number {n : Number} {l : Literal} (hread : Number.read text = .ok (n, [])) (htext : l.Text text)
    (hcut : ∀ l' : Literal, l'.CutOf l → ∃ m, l'.value? = some m ∧ P (number m)) :
    (number n).Breakable text P where
  spelled := spelled_number hread
  breaks c cs fuel h := by
    obtain ⟨d, ds, rfl, hd⟩ := Number.exists_cons_of_read hread
    obtain rfl : c = d := (List.cons_prefix_cons.mp h.1).1
    have hquote : c ≠ '"' := by rintro rfl; revert hd; decide
    rw [readFrom, if_neg hquote, if_pos hd, Number.read]
    rcases htext.broken h with hshort | ⟨l', htext', hl'⟩
    · rw [hshort]
      exact Or.inl rfl
    · obtain ⟨m, hm, hP⟩ := hcut l' hl'
      simp only [Literal.read_of_text htext', bind, Except.bind, hm]
      exact Or.inr ⟨_, rfl, hP⟩

/-! ### Whole numbers -/

theorem natOf_toDigits_lt {n : Int} (hmin : -2 ^ 63 ≤ n) (hmax : n < 2 ^ 64) :
    Literal.natOf (Nat.toDigits 10 n.natAbs) < UInt64.size := by
  have hsize : UInt64.size = 2 ^ 64 := rfl
  rw [Literal.natOf_toDigits]
  omega

theorem text_writeInt (n : Int) :
    (Literal.mk (decide (n < 0)) (Nat.toDigits 10 n.natAbs) none none).Text (Number.writeInt n) := by
  have htext := Literal.text_toDigits (decide (n < 0)) n.natAbs
  unfold Number.writeInt
  by_cases hn : n < 0
  · simpa [hn] using htext
  · simpa [hn] using htext

theorem breakable_whole {n : Int} (hmin : -2 ^ 63 ≤ n) (hmax : n < 2 ^ 64) :
    (number (.whole n)).Breakable (number (.whole n)).write fun _ => True := by
  apply breakable_number (Number.read_writeInt hmin hmax) (text_writeInt n)
  intro l hl
  have hdigits : (Literal.mk (decide (n < 0)) (Nat.toDigits 10 n.natAbs) none none).decimal.digits <
      UInt64.size := by
    rw [Literal.decimal, Option.getD_none, List.append_nil]
    exact natOf_toDigits_lt hmin hmax
  have hvalue := hl.isSome_value? hdigits (by simp [Literal.decimal, Literal.exponentValue])
  obtain ⟨m, hm⟩ := Option.isSome_iff_exists.mp hvalue
  exact ⟨m, hm, trivial⟩

/-- What is left of a whole number without sign is another one, which is less. -/
theorem breakable_nat {n : Nat} (hn : n < UInt64.size) :
    (number (.whole n)).Breakable (number (.whole n)).write fun s => s.toNat?.isSome := by
  have hsize : UInt64.size = 2 ^ 64 := rfl
  have hmin : -2 ^ 63 ≤ (n : Int) := by omega
  have hmax : (n : Int) < 2 ^ 64 := by omega
  apply breakable_number (Number.read_writeInt hmin hmax) (text_writeInt n)
  intro l hl
  obtain ⟨negative, whole, fraction, exponent⟩ := l
  obtain rfl : fraction = none := hl.fraction rfl
  obtain rfl : exponent = none := by
    rcases hl.exponent with hnone | ⟨-, _, _, _, hsome, -⟩
    · exact hnone
    · cases hsome
  obtain rfl : negative = false :=
    hl.negative_eq.trans (decide_eq_false (Int.not_lt.mpr (Int.natCast_nonneg n)))
  have hless : Literal.natOf whole < UInt64.size := by
    have hle := Literal.natOf_le_of_isFront hl.digits
    simp only [Option.getD_none, List.append_nil] at hle
    exact Nat.lt_of_le_of_lt hle (natOf_toDigits_lt hmin hmax)
  refine ⟨_, Literal.value?_whole hless, ?_⟩
  rw [toNat?, if_pos ⟨by omega, by omega⟩]
  rfl

/-! ### Scalars of a given kind -/

namespace Breakable

variable (h : s.Breakable text P)

include h

/-- The text starts with neither white space nor a bracket. -/
theorem exists_cons : ∃ c cs, text = c :: cs ∧ isSpace c = false ∧ c ≠ '[' ∧ c ≠ '\x7b' ∧ c ≠ ']' := by
  obtain ⟨c, cs, htext, hread⟩ := h.spelled
  exact ⟨c, cs, htext, readFrom_ok (hread _ [] (Nat.le_refl _) nofun)⟩

theorem read_broken {p : List Char} (hp : Broken p text) (fuel : Nat) :
    Scalar.read fuel p = .error .truncated ∨ ∃ s', Scalar.read fuel p = .ok (s', []) ∧ P s' := by
  obtain ⟨c, cs, rfl, hspace, harray, hobject, -⟩ := h.exists_cons
  rcases id hp.cases_cons with rfl | ⟨q, rfl, hq⟩
  · exact Or.inl rfl
  · rw [Scalar.read, skipSpace_cons hspace]
    simp only [harray, hobject, or_self, if_false]
    exact h.breaks c q fuel hp

theorem handles_readAs {f : Scalar → Option α} {x : α} (hx : f s = some x) (hf : ∀ s', P s' → (f s').isSome) :
    (readAs f).Handles text x where
  reads := by
    have hgives := readAs_gives f (.scalar s)
    rw [asScalar, hx] at hgives
    exact hgives.reads ⟨[], text, rfl, blank_nil, h.spelled⟩
  breaksOff p fuel hp _ := by
    rw [readAs, Reader.filterMap]
    rcases h.read_broken hp fuel with hshort | ⟨s', hread, hs'⟩
    · rw [hshort]
      exact Or.inl rfl
    · obtain ⟨y, hy⟩ := Option.isSome_iff_exists.mp (hf s' hs')
      simp only [hread, bind, Except.bind, hy]
      exact Or.inr ⟨y, rfl⟩

end Breakable

end Scalar

/-! ## Arrays -/

section

variable {r : Reader α} {p : List Char} {fuel : Nat}

theorem readElements_of_exhausted (h : Exhausted (r fuel p)) (steps : Nat) :
    readElements r fuel steps p = .error .truncated := by
  cases steps with
  | zero => rfl
  | succ steps =>
    rw [readElements]
    rcases h with h | ⟨x, h⟩
    all_goals
      rw [h]
      rfl

theorem readElements_broken {vs : List Value} (hne : vs ≠ []) (h : ∀ v ∈ vs, ∃ x, r.Handles v.write x)
    (hp : Broken p (Value.writeElements vs)) (hfuel : p.length ≤ fuel) (steps : Nat) :
    readElements r fuel steps p = .error .truncated := by
  induction vs generalizing p steps with
  | nil => exact absurd rfl hne
  | cons v vs ih =>
    cases steps with
    | zero => rfl
    | succ steps =>
      obtain ⟨⟨x, hv⟩, hvs⟩ := List.forall_mem_cons.mp h
      cases vs with
      | nil =>
        have hstops : Stops [']'] := stops_append_cons blank_nil (Or.inr (Or.inl rfl)) []
        rcases hv.cases_append hstops hp hfuel with hall | ⟨q, hq, hbroken, -⟩
        · exact readElements_of_exhausted hall _
        · rw [hbroken.eq_nil] at hq
          exact readElements_of_exhausted (Or.inr ⟨x, hq⟩) _
      | cons w vs =>
        have hstops : Stops (',' :: Value.writeElements (w :: vs)) := stops_append_cons blank_nil (Or.inl rfl) _
        rcases hv.cases_append hstops hp hfuel with hall | ⟨q, hq, hbroken, hlen⟩
        · exact readElements_of_exhausted hall _
        rcases hbroken.cases_cons with rfl | ⟨more, rfl, hmore⟩
        · exact readElements_of_exhausted (Or.inr ⟨x, hq⟩) _
        · have hrest := ih (List.cons_ne_nil w vs) hvs hmore (Nat.le_of_succ_le hlen) steps
          rw [readElements, hq]
          simp only [bind, Except.bind, skipSpace_cons (show isSpace ',' = false by decide), hrest]
          rfl

theorem exists_writeElements_cons (v : Value) (vs : List Value) :
    ∃ rest, Value.writeElements (v :: vs) = v.write ++ rest := by
  cases vs with
  | nil => exact ⟨_, rfl⟩
  | cons w vs => exact ⟨_, rfl⟩

/-- The text of a value in an array does not start with white space or a closing bracket. -/
def Value.Opens (v : Value) : Prop := ∃ c cs, v.write = c :: cs ∧ isSpace c = false ∧ c ≠ ']'

theorem readArray_broken {vs : List Value} (hopens : ∀ v ∈ vs, v.Opens) (h : ∀ v ∈ vs, ∃ x, r.Handles v.write x)
    (hp : Broken p (Value.writeElements vs)) (hfuel : p.length ≤ fuel) :
    readArray r fuel p = .error .truncated := by
  cases vs with
  | nil =>
    rw [hp.eq_nil]
    rfl
  | cons v vs =>
    obtain ⟨c, cs, hwrite, hspace, hclose⟩ := hopens v List.mem_cons_self
    obtain ⟨rest, hrest⟩ := exists_writeElements_cons v vs
    rw [hwrite, List.cons_append] at hrest
    rcases (hrest ▸ hp).cases_cons with rfl | ⟨q, rfl, -⟩
    · rfl
    · rw [readArray, skipSpace_cons hspace]
      simp only [if_neg hclose]
      exact readElements_broken (List.cons_ne_nil v vs) h hp hfuel _

/-- **An array that breaks off is found to be too short**, wherever that may be. -/
theorem readArrayOf_fallsShort {vs : List Value} (hopens : ∀ v ∈ vs, v.Opens)
    (h : ∀ v ∈ vs, ∃ x, r.Handles v.write x) : (readArrayOf r).FallsShort (Value.array vs).write := by
  intro p fuel hp hfuel
  rw [Value.write] at hp
  rcases hp.cases_cons with rfl | ⟨q, rfl, hq⟩
  · rfl
  · exact readArray_broken hopens h hq (Nat.le_of_succ_le hfuel)

end

/-! ## Objects -/

section

variable {member : String → σ → Reader σ} {fuel : Nat} {p : List Char}

/-- The members are handled one after another. -/
def HandlesMembers (member : String → σ → Reader σ) : σ → List (String × Value) → Prop
  | _, [] => True
  | s, m :: ms => ∃ s', (member m.1 s).HandlesBehind m.2.write s' ∧ HandlesMembers member s' ms

/-- A member that breaks off, or something behind it. -/
theorem readMembers_cons_broken {k : String} {v : Value} {s s' : σ} (h : (member k s).HandlesBehind v.write s')
    {u : List Char} (hu : Stops u) (hp : Broken p (Quoted.write k ++ ':' :: (v.write ++ u)))
    (hfuel : p.length ≤ fuel) (steps : Nat) :
    readMembers Quoted.read member fuel (steps + 1) s p = .error .truncated ∨
      ∃ q, q.length ≤ fuel ∧ Broken q u ∧
        readMembers Quoted.read member fuel (steps + 1) s p = match skipSpace q with
          | [] => .error .truncated
          | c :: text =>
            if c = '\x7d' then .ok (s', text)
            else if c = ',' then readMembers Quoted.read member fuel steps s' text
            else .error .malformed := by
  have hname : Quoted.Text k (k.toList.flatMap Quoted.writeChar ++ ['"']) := Quoted.text_write k
  rw [Quoted.write, List.cons_append] at hp
  rcases hp.cases_cons with rfl | ⟨name, rfl, hname'⟩
  · exact Or.inl rfl
  rw [readMembers, skipSpace_cons (show isSpace '"' = false by decide)]
  simp only [ne_eq, not_true_eq_false, if_false]
  rw [List.length_cons] at hfuel
  rcases hname'.cases_append with hbroken | ⟨value, rfl, hvalue⟩
  · rw [Quoted.read_broken hname hbroken]
    exact Or.inl rfl
  rw [List.length_append] at hfuel
  rw [Quoted.spelled_of_text hname fuel value (by omega)]
  simp only [bind, Except.bind]
  rw [← List.cons_append] at hvalue
  have hlen : value.length ≤ fuel := by omega
  rcases h.handles.cases_append hu hvalue hlen with (hall | ⟨x, hall⟩) | ⟨q, hq, hbroken, hlen⟩
  · rw [hall]
    exact Or.inl rfl
  · rw [hall]
    exact Or.inl rfl
  · rw [hq]
    exact Or.inr ⟨q, hlen, hbroken, rfl⟩

theorem readMembers_broken {ms : List (String × Value)} (hne : ms ≠ []) {s : σ} (h : HandlesMembers member s ms)
    (hp : Broken p (Value.writeMembers ms)) (hfuel : p.length ≤ fuel) (steps : Nat) :
    readMembers Quoted.read member fuel steps s p = .error .truncated := by
  induction ms generalizing p steps s with
  | nil => exact absurd rfl hne
  | cons m ms ih =>
    cases steps with
    | zero => rfl
    | succ steps =>
      obtain ⟨k, v⟩ := m
      obtain ⟨s', hm, hms⟩ := h
      cases ms with
      | nil =>
        have hstops : Stops ['\x7d'] := stops_append_cons blank_nil (Or.inr (Or.inr rfl)) []
        rcases readMembers_cons_broken hm hstops hp hfuel steps with hshort | ⟨q, -, hbroken, hq⟩
        · exact hshort
        · rw [hq, hbroken.eq_nil]
          rfl
      | cons m ms =>
        have hstops : Stops (',' :: Value.writeMembers (m :: ms)) := stops_append_cons blank_nil (Or.inl rfl) _
        rcases readMembers_cons_broken hm hstops hp hfuel steps with hshort | ⟨q, hlen, hbroken, hq⟩
        · exact hshort
        rw [hq]
        rcases hbroken.cases_cons with rfl | ⟨more, rfl, hmore⟩
        · rfl
        · simp only [skipSpace_cons (show isSpace ',' = false by decide)]
          exact ih (List.cons_ne_nil m ms) hms hmore (Nat.le_of_succ_le hlen) steps

theorem exists_writeMembers_cons (m : String × Value) (ms : List (String × Value)) :
    ∃ rest, Value.writeMembers (m :: ms) = '"' :: rest := by
  cases ms with
  | nil => exact ⟨_, rfl⟩
  | cons m' ms => exact ⟨_, rfl⟩

/-- **An object that breaks off is found to be too short**, wherever that may be. -/
theorem readObject_broken {ms : List (String × Value)} {s : σ} (h : HandlesMembers member s ms)
    (hp : Broken p (Value.writeMembers ms)) (hfuel : p.length ≤ fuel) :
    readObject Quoted.read member s fuel p = .error .truncated := by
  cases ms with
  | nil =>
    rw [hp.eq_nil]
    rfl
  | cons m ms =>
    obtain ⟨rest, hrest⟩ := exists_writeMembers_cons m ms
    rcases (hrest ▸ hp).cases_cons with rfl | ⟨q, rfl, -⟩
    · rfl
    · rw [readObject, skipSpace_cons (show isSpace '"' = false by decide)]
      simp only [if_neg (show '"' ≠ '\x7d' by decide)]
      exact readMembers_broken (List.cons_ne_nil m ms) h hp hfuel _

theorem readRecord_fallsShort {start : σ} {field : String → σ → Reader σ} {finish : σ → Option α}
    {inOrder : Reader α} {ms : List (String × Value)} (h : HandlesMembers field start ms) :
    (readRecord start field finish inOrder).FallsShort (Value.object ms).write := by
  intro p fuel hp hfuel
  rw [Value.write] at hp
  rcases hp.cases_cons with rfl | ⟨q, rfl, hq⟩
  · rfl
  · have hread := readObject_broken h hq (Nat.le_of_succ_le hfuel)
    rw [readRecord, skipSpace_cons (show isSpace '\x7b' = false by decide)]
    simp only [Reader.filterMap, hread]
    rfl

end

/-! ## Any values -/

namespace Value

/-- The value is read from its text, and all of the text wherever it breaks off, as long as the depth is enough. -/
structure Breakable (v : Value) : Prop where
  spelled : v.Spelled v.write
  opens : v.Opens
  breaksOff : ∀ depth, v.depth ≤ depth → (Value.read depth).BreaksOff v.write

theorem Breakable.handles {v : Value} (h : v.Breakable) {depth : Nat} (hdepth : v.depth ≤ depth) :
    (Value.read depth).Handles v.write v where
  reads := by
    have hgives := read_gives depth v
    rw [within, if_pos hdepth] at hgives
    exact hgives.reads h.spelled
  breaksOff := h.breaksOff depth hdepth

theorem breakable_scalar {s : Scalar} {P : Scalar → Prop} (h : s.Breakable s.write P) : (scalar s).Breakable where
  spelled := spelled_scalar h.spelled
  opens := by
    obtain ⟨c, cs, hwrite, hspace, -, -, hclose⟩ := h.exists_cons
    exact ⟨c, cs, hwrite, hspace, hclose⟩
  breaksOff depth _ p fuel hp _ := by
    rw [Value.write] at hp
    obtain ⟨c, cs, hwrite, hspace, harray, hobject, -⟩ := h.exists_cons
    rcases (hwrite ▸ hp).cases_cons with rfl | ⟨q, rfl, -⟩
    · rw [read.eq_def]
      exact Or.inl rfl
    · rw [read.eq_def, skipSpace_cons hspace]
      simp only [harray, hobject, if_false]
      rcases h.breaks c q fuel hp with hshort | ⟨s', hread, -⟩
      · rw [hshort]
        exact Or.inl rfl
      · rw [hread]
        exact Or.inr ⟨scalar s', rfl⟩

theorem breakable_array {vs : List Value} (h : ∀ v ∈ vs, v.Breakable) : (array vs).Breakable where
  spelled := spelled_array fun v hv => (h v hv).spelled
  opens := ⟨'[', writeElements vs, rfl, by decide, by decide⟩
  breaksOff depth hdepth p fuel hp hfuel := by
    rw [Value.write] at hp
    obtain ⟨depth, rfl⟩ := Nat.exists_eq_add_one_of_ne_zero (Nat.ne_zero_of_lt hdepth)
    have hdepths := depthOfElements_le.mp (Nat.le_of_succ_le_succ hdepth)
    rcases hp.cases_cons with rfl | ⟨q, rfl, hq⟩
    · rw [read.eq_def]
      exact Or.inl rfl
    · have hread := readArray_broken (fun v hv => (h v hv).opens)
        (fun v hv => ⟨v, (h v hv).handles (hdepths v hv)⟩) hq (Nat.le_of_succ_le hfuel)
      rw [read.eq_def, skipSpace_cons (show isSpace '[' = false by decide)]
      simp only [if_true, hread]
      exact Or.inl rfl

theorem handlesMembers_read {ms : List (String × Value)} {depth : Nat} (h : ∀ m ∈ ms, m.2.Breakable)
    (hdepth : ∀ m ∈ ms, m.2.depth ≤ depth) (acc : List (String × Value)) :
    HandlesMembers (readMember (read depth)) acc ms := by
  induction ms generalizing acc with
  | nil => trivial
  | cons m ms ih =>
    obtain ⟨hm, hms⟩ := List.forall_mem_cons.mp h
    obtain ⟨hd, hds⟩ := List.forall_mem_cons.mp hdepth
    exact ⟨m :: acc, (hm.handles hd).afterColon.map fun v => (m.1, v) :: acc, ih hms hds (m :: acc)⟩

theorem breakable_object {ms : List (String × Value)} (h : ∀ m ∈ ms, m.2.Breakable) : (object ms).Breakable where
  spelled := spelled_object fun m hm => (h m hm).spelled
  opens := ⟨'\x7b', writeMembers ms, rfl, by decide, by decide⟩
  breaksOff depth hdepth p fuel hp hfuel := by
    rw [Value.write] at hp
    obtain ⟨depth, rfl⟩ := Nat.exists_eq_add_one_of_ne_zero (Nat.ne_zero_of_lt hdepth)
    have hdepths := depthOfMembers_le.mp (Nat.le_of_succ_le_succ hdepth)
    rcases hp.cases_cons with rfl | ⟨q, rfl, hq⟩
    · rw [read.eq_def]
      exact Or.inl rfl
    · have hread := readObject_broken (handlesMembers_read h hdepths []) hq (Nat.le_of_succ_le hfuel)
      rw [read.eq_def, skipSpace_cons (show isSpace '\x7b' = false by decide)]
      simp only [if_true, if_neg (show '\x7b' ≠ '[' by decide), hread]
      exact Or.inl rfl

end Value

/-! ## Whole texts -/

/-- A text that breaks off is refused if its reader finds it to be too short. -/
theorem Reader.FallsShort.parse {r : Reader α} {t : List Char} (h : r.FallsShort t) {text : String}
    (htext : text.toList <+: t) (hne : text ≠ .ofList t) : r.parse text = .error .truncated := by
  have hbroken : Broken text.toList t := ⟨htext, fun heq => hne (by rw [← heq, String.ofList_toList])⟩
  rw [Reader.parse, h _ _ hbroken (Nat.le_refl _)]
  rfl

end TracedIndex.Json
