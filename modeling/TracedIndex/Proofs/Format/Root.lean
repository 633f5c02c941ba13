import TracedIndex.Proofs.Format.Fields

/-!
# What may stand at the root

The root of a snapshot is read completely before it is looked at as a node, whatever it is: an object is read by its
fields, an array by its elements, and anything else is of another kind. If it does not nest too deep, nothing else can
be wrong with it.

* `Subtree.asRoot`: what a value is as a root node; **`Subtree.read_gives_any`**: every value is read so;
* `Subtree.onlyMismatched_asRoot`: what can be wrong with a root;
* `Subtree.kind_of_foldlM`, `Subtree.members_of_foldlM`: the kind and the other members of an object that was read.
-/

namespace TracedIndex.Subtree

open Json

variable {K : Type} [KeyFormat K]

/-! ## Any values -/

/-- What a value is as a root node. -/
def asRoot (depth : Nat) : Value → Except Defect (Subtree K)
  | .object ms => (ms.foldlM (collect depth) ⟨none, []⟩).bind fun p => orMismatched (ofPartial? p)
  | .array (k :: vs) => (asScalar (fun s => s.toText?.bind Kind.ofName?) k).bind fun kind =>
    (vs.mapM (Value.within depth)).bind fun vs => orMismatched (ofFields? ofValue? kind (.inOrder vs))
  | _ => .error .mismatched

omit [KeyFormat K] in
/-- The first element of an array that must have one. -/
theorem nextElement_of_spelled {α : Type} {r : Reader α} {v : Value} {y : Except Defect α} (h : r.Gives v y)
    {t rest : List Char} (ht : v.Spelled t) {fuel : Nat} (hfuel : t.length ≤ fuel) (hrest : Stops rest) :
    nextElement true r fuel (t ++ rest) = y.map (·, rest) := by
  obtain ⟨sp, c, cs, rfl, hsp, hc, hclose, ht⟩ := ht.starts
  rw [List.length_append] at hfuel
  rw [nextElement, List.append_assoc, List.cons_append, skipSpace_append_cons hsp hc]
  simp only [if_neg hclose, if_true]
  exact h (c :: cs) fuel rest ht (by omega) hrest

omit [KeyFormat K] in
/-- Behind the first element of an array, the others are read, if there are any. -/
theorem exists_readOthers (depth : Nat) {u t : List Char} {us : List (List Char)} (ht : ElementsText (u :: us) t)
    {vs : List Value} (hus : List.Forall₂ Value.Spelled vs us) : ∃ behind, t = u ++ behind ∧
      (∀ rest, Stops (behind ++ rest)) ∧ ∀ fuel rest, behind.length ≤ fuel →
        readOthers depth fuel (behind ++ rest) = (vs.mapM (Value.within depth)).map (·, rest) := by
  cases hus with
  | nil =>
    obtain ⟨sp, rfl, hsp⟩ := ht
    refine ⟨sp ++ [']'], rfl, fun rest => ?_, fun fuel rest _ => ?_⟩
    all_goals rw [List.append_assoc, List.singleton_append]
    · exact stops_append_cons hsp (Or.inr (Or.inl rfl)) rest
    · rw [readOthers, skipSpace_append_cons hsp (show isSpace ']' = false by decide), List.mapM_nil]
      rfl
  | @cons v w vs us hw hus =>
    obtain ⟨sp, more, rfl, hsp, hmore⟩ := ht
    refine ⟨sp ++ ',' :: more, rfl, fun rest => ?_, fun fuel rest hfuel => ?_⟩
    all_goals rw [List.append_assoc, List.cons_append]
    · exact stops_append_cons hsp (Or.inl rfl) _
    · simp only [List.length_append, List.length_cons] at hfuel
      have hsteps := length_le_of_elementsText hmore
      rw [readOthers, skipSpace_append_cons hsp (show isSpace ',' = false by decide)]
      simp only [if_neg (show ',' ≠ ']' by decide), if_true]
      exact readElements_of_texts (fun v _ ht => (Value.read_gives depth v).reads ht) rest (List.cons_ne_nil v vs)
        (.cons hw hus) hmore (by omega) (by omega)

/-- The array of a root node gives its kind first. -/
theorem read_gives_array (depth : Nat) (k : Value) (vs : List Value) :
    (Subtree.read depth : Reader (Subtree K)).Gives (.array (k :: vs)) (asRoot depth (.array (k :: vs))) := by
  rintro text fuel rest ⟨sp, t, rfl, hsp, ht⟩ hfuel hrest
  have hkind := readAs_gives (fun s => s.toText?.bind Kind.ofName?) k
  obtain ⟨_, htext, hts⟩ := exists_elementsText ht
  obtain _ | @⟨_, u, _, us, hu, hus⟩ := hts
  obtain ⟨behind, rfl, hstops, hothers⟩ := exists_readOthers depth htext hus
  simp only [List.length_append, List.length_cons] at hfuel
  rw [Subtree.read, List.append_assoc, List.cons_append,
    skipSpace_append_cons hsp (show isSpace '[' = false by decide), asRoot]
  have hlen : u.length ≤ fuel ∧ behind.length ≤ fuel := by omega
  simp only [List.append_assoc, Kind.read, nextElement_of_spelled hkind hu hlen.1 (hstops rest), Reader.filterMap]
  cases asScalar (fun s => s.toText?.bind Kind.ofName?) k with
  | error e => rfl
  | ok kind =>
    simp only [Except.map, bind, Except.bind, hothers fuel rest hlen.2]
    cases vs.mapM (Value.within depth) with
    | error e => rfl
    | ok ws =>
      simp only
      cases ofFields? (K := K) ofValue? kind (.inOrder ws) <;> rfl

/-- **Whatever value stands there, it is read at the root as what it is as a root node.** -/
theorem read_gives_any (depth : Nat) (v : Value) :
    (Subtree.read depth : Reader (Subtree K)).Gives v (asRoot depth v) := by
  cases v with
  | object ms => exact read_gives_object depth ms
  | scalar s =>
    rintro text fuel rest ⟨sp, t, rfl, hsp, c, cs, rfl, hs⟩ hfuel hrest
    obtain ⟨hspace, harray, hobject, -⟩ := Scalar.readFrom_ok (hs _ [] (Nat.le_refl _) nofun)
    rw [List.length_append] at hfuel
    rw [Subtree.read, List.append_assoc, List.cons_append, skipSpace_append_cons hsp hspace]
    split
    · next heq => exact absurd (List.cons.inj heq).1 hobject
    · next heq => exact absurd (List.cons.inj heq).1 harray
    · exact readAs_gives (fun _ => none) (.scalar s) (c :: cs) fuel rest
        ⟨[], c :: cs, rfl, blank_nil, c, cs, rfl, hs⟩ (by omega) hrest
  | array vs =>
    cases vs with
    | cons k vs => exact read_gives_array depth k vs
    | nil =>
      rintro text fuel rest ⟨sp, t, rfl, hsp, sp', rfl, hsp'⟩ hfuel hrest
      rw [Subtree.read, List.append_assoc, List.cons_append,
        skipSpace_append_cons hsp (show isSpace '[' = false by decide)]
      simp only [nextElement, List.append_assoc, List.singleton_append,
        skipSpace_append_cons hsp' (show isSpace ']' = false by decide)]
      rfl

/-! ## What can be wrong -/

omit [KeyFormat K] in
theorem onlyMismatched_within {depth : Nat} {v : Value} (h : v.depth ≤ depth) :
    OnlyMismatched (v.within depth) := by
  rw [Value.within, if_pos h]
  exact .ok v

/-- A root that does not nest too deep is a node, or of another kind. -/
theorem onlyMismatched_asRoot {depth : Nat} {v : Value} (h : v.depth ≤ depth + 1) :
    OnlyMismatched (asRoot depth v : Except Defect (Subtree K)) := by
  cases v with
  | scalar s => exact .mismatched
  | object ms =>
    have hdepth := Value.depthOfMembers_le.mp (Nat.le_of_succ_le_succ h)
    rw [asRoot]
    refine (OnlyMismatched.foldlM (fun m hm p => ?_) _).bind fun p => .orMismatched _
    unfold collect
    split
    · exact ((OnlyMismatched.asScalar _ _).once _).map _
    · exact ((onlyMismatched_within (hdepth m hm)).map _).map _
  | array vs =>
    cases vs with
    | nil => exact .mismatched
    | cons k vs =>
      have hdepth := Value.depthOfElements_le.mp (Nat.le_of_succ_le_succ h)
      have hvs : vs.mapM (Value.within depth) = .ok vs := by
        rw [Value.mapM_within, if_pos]
        exact Value.depthOfElements_le.mpr fun v hv => hdepth v (List.mem_cons_of_mem _ hv)
      rw [asRoot, hvs]
      exact (OnlyMismatched.asScalar _ _).bind fun kind => .orMismatched _

/-! ## What was read -/

omit [KeyFormat K] in
/-- The members read so far are those with other names than that of the kind. -/
theorem members_of_foldlM {depth : Nat} {ms : List (String × Value)} {p p' : Partial}
    (h : ms.foldlM (collect depth) p = .ok p') :
    p'.members.reverse = p.members.reverse ++ ms.filter fun m => m.1 != "kind" := by
  induction ms generalizing p with
  | nil =>
    obtain rfl := Except.ok.inj h
    simp
  | cons m ms ih =>
    rw [List.foldlM_cons] at h
    obtain ⟨q, hq, hrest⟩ := bind_eq_ok_iff.mp h
    rw [ih hrest]
    unfold collect at hq
    split at hq
    · next hname =>
      obtain ⟨kind, -, rfl⟩ := map_eq_ok_iff.mp hq
      simp [hname]
    · next hname =>
      obtain ⟨ms', hms', rfl⟩ := map_eq_ok_iff.mp hq
      obtain ⟨v, hv, rfl⟩ := map_eq_ok_iff.mp hms'
      have heq : v = m.2 := by
        rw [Value.within] at hv
        split at hv
        · exact (Except.ok.inj hv).symm
        · cases hv
      simp [hname, heq]

omit [KeyFormat K] in
/-- The kind that was read is the only one, and given by its name. -/
theorem kind_of_foldlM {depth : Nat} {ms : List (String × Value)} {p : Partial} {kind : Kind}
    (h : ms.foldlM (collect depth) ⟨none, []⟩ = .ok p) (hkind : p.kind = some kind) :
    ∃ k, field? "kind" ms = some (some k) ∧ Kind.ofValue? k = some kind := by
  have hself : ∀ p v p', collect depth p ("kind", v) = .ok p' → p.kind = none ∧
      ∃ kind, asScalar (fun s => s.toText?.bind Kind.ofName?) v = .ok kind ∧ p'.kind = some kind := by
    intro p v p' hp'
    rw [collect, if_pos rfl] at hp'
    obtain ⟨kind, hkind, rfl⟩ := map_eq_ok_iff.mp hp'
    obtain ⟨hnone, hkind⟩ := once_eq_ok_iff.mp hkind
    exact ⟨hnone, kind, hkind, rfl⟩
  have hother : ∀ m ∈ ms, m.1 ≠ "kind" → ∀ p p', collect depth p m = .ok p' → p'.kind = p.kind := by
    intro m _ hne p p' hp'
    rw [collect, if_neg hne] at hp'
    obtain ⟨ms, -, rfl⟩ := map_eq_ok_iff.mp hp'
    rfl
  obtain ⟨_, hk, hvalue⟩ := exists_field_of_foldlM hself hother h rfl hkind
  obtain ⟨s, rfl, hs⟩ := asScalar_eq_ok_iff.mp hvalue
  obtain ⟨name, hname, hs⟩ := Option.bind_eq_some_iff.mp hs
  cases s with
  | string t =>
    obtain rfl := Option.some.inj hname
    exact ⟨_, hk, hs⟩
  | _ => cases hname

end TracedIndex.Subtree
