import TracedIndex.Proofs.Subtree.Lists
import TracedIndex.Tree.Scan

/-!
# Cursors

A cursor **faces** the keys from its position on, up to the end of the chain of leaves. What a scan
gives is read off these keys and the verdicts on them, wherever one leaf ends and the next begins.

* `Verdict.taken`: the keys that are taken out of a list;
* `Cursor.Faces`: the keys in front of a cursor;
* **`Faces.next`**: one call of `next` gives the first key that is taken and leads to the rest;
* **`Faces.nextTimes`**: so do several calls, which give nothing once no key is left;
* **`Faces.rest`**: reading to the end gives all of them.
-/

namespace TracedIndex

variable {K : Type} {a : Arena K} {judge : K → Verdict}

/-- The keys of a list that a scan takes, up to the first key at which it stops. -/
def Verdict.taken (judge : K → Verdict) : List K → List K
  | [] => []
  | k :: ks =>
    match judge k with
    | .take => k :: taken judge ks
    | .skip => taken judge ks
    | .stop => []

theorem Verdict.taken_always (ks : List K) : taken always ks = ks := by
  induction ks with
  | nil => rfl
  | cons k ks ih => rw [taken, always, ih]

theorem Verdict.taken_sublist (judge : K → Verdict) (ks : List K) : (taken judge ks).Sublist ks := by
  induction ks with
  | nil => exact List.Sublist.refl _
  | cons k ks ih =>
    rw [taken]
    cases judge k with
    | take => exact ih.cons_cons k
    | skip => exact ih.cons k
    | stop => exact List.nil_sublist _

namespace Reading

/-- How the reading of a leaf from a position on ends, and what is taken from there on, whatever keys
come after the leaf. -/
inductive Reads (judge : K → Verdict) (keys : List K) (pos : Nat) : Reading K → Prop
  | taken {k : K} {pos' : Nat} (eq : ∀ more, Verdict.taken judge (keys.drop pos ++ more) =
      k :: Verdict.taken judge (keys.drop pos' ++ more)) : Reads judge keys pos (.taken k pos')
  | stopped (eq : ∀ more, Verdict.taken judge (keys.drop pos ++ more) = []) :
    Reads judge keys pos .stopped
  | finished (eq : ∀ more, Verdict.taken judge (keys.drop pos ++ more) =
      Verdict.taken judge more) : Reads judge keys pos .finished

theorem reads_ofKeys (judge : K → Verdict) (keys : List K) (pos : Nat) :
    Reads judge keys pos (ofKeys judge pos (keys.drop pos)) := by
  obtain ⟨ks, hks⟩ : ∃ ks, keys.drop pos = ks := ⟨_, rfl⟩
  rw [hks]
  induction ks generalizing pos with
  | nil => exact .finished fun more => by rw [hks, List.nil_append]
  | cons k ks ih =>
    have htail : keys.drop (pos + 1) = ks := by
      rw [← List.drop_drop, hks, List.drop_one, List.tail_cons]
    rw [ofKeys]
    cases hk : judge k with
    | take =>
      refine .taken fun more => ?_
      rw [hks, htail, List.cons_append, Verdict.taken, hk]
    | stop => exact .stopped fun more => by rw [hks, List.cons_append, Verdict.taken, hk]
    | skip =>
      -- the skipped key is as if it were not there
      have hskip : ∀ more, Verdict.taken judge (keys.drop pos ++ more) =
          Verdict.taken judge (keys.drop (pos + 1) ++ more) := fun more => by
        rw [hks, htail, List.cons_append, Verdict.taken, hk]
      have hrest := ih (pos + 1) htail
      generalize ofKeys judge (pos + 1) ks = r at hrest ⊢
      cases hrest with
      | taken eq => exact .taken fun more => (hskip more).trans (eq more)
      | stopped eq => exact .stopped fun more => (hskip more).trans (eq more)
      | finished eq => exact .finished fun more => (hskip more).trans (eq more)

end Reading

namespace Cursor

/-- The keys in front of a cursor: those of its leaf from its position on, and those of the leaves that
come after it. -/
inductive Faces (a : Arena K) : Cursor → List K → Prop
  | ended : Faces a .over []
  | within {l : Subtree K} {ls : List (Subtree K)} {pos : Nat}
    (leaves : ∀ m ∈ l :: ls, ∃ parent, a.leaf m.id = .ok ⟨m.keys, m.next?, parent⟩)
    (chained : Subtree.Chained l.next? ls none) (length_lt : ls.length < a.size) :
    Faces a (.within l.id pos) (l.keys.drop pos ++ Subtree.keysOf ls)

theorem nextWithin_spec {l : Subtree K} {ls : List (Subtree K)} {pos : Nat}
    (hleaves : ∀ m ∈ l :: ls, ∃ parent, a.leaf m.id = .ok ⟨m.keys, m.next?, parent⟩)
    (hchained : Subtree.Chained l.next? ls none) (hlt : ls.length < a.size) {fuel : Nat}
    (hfuel : ls.length < fuel) (judge : K → Verdict) :
    ∃ c rest, nextWithin a judge fuel (.within l.id pos) =
        .ok ((Verdict.taken judge (l.keys.drop pos ++ Subtree.keysOf ls)).head?, c) ∧ c.Faces a rest ∧
      Verdict.taken judge rest =
        (Verdict.taken judge (l.keys.drop pos ++ Subtree.keysOf ls)).tail := by
  induction fuel generalizing l ls pos with
  | zero => exact absurd hfuel (Nat.not_lt_zero _)
  | succ fuel ih =>
    obtain ⟨parent, hleaf⟩ := hleaves l List.mem_cons_self
    have hread := Reading.reads_ofKeys judge l.keys pos
    rw [nextWithin, hleaf]
    simp only [bind, Except.bind, pure, Except.pure]
    generalize Reading.ofKeys judge pos (l.keys.drop pos) = r at hread ⊢
    cases hread with
    | taken eq => exact ⟨_, _, by rw [eq]; rfl, .within hleaves hchained hlt, by rw [eq]; rfl⟩
    | stopped eq => exact ⟨_, _, by rw [eq]; rfl, .ended, by rw [eq]; rfl⟩
    | finished eq =>
      cases ls with
      | nil =>
        have hnext : l.next? = none := hchained
        exact ⟨_, _, by rw [eq, hnext]; rfl, .ended, by rw [eq]; rfl⟩
      | cons m ls =>
        -- the first key of the next leaf is at position zero
        obtain ⟨hnext, hrest⟩ := hchained
        rw [eq, hnext]
        simp only [List.length_cons] at hlt hfuel
        exact ih (fun m hm => hleaves m (List.mem_cons_of_mem _ hm)) hrest (by omega) (by omega)

namespace Faces

variable {c : Cursor} {ks : List K}

/-- **One call of `next` gives the first key that is taken**, and faces the rest. -/
theorem next (h : c.Faces a ks) (judge : K → Verdict) :
    ∃ c' rest, c.next a judge = .ok ((Verdict.taken judge ks).head?, c') ∧ c'.Faces a rest ∧
      Verdict.taken judge rest = (Verdict.taken judge ks).tail := by
  cases h with
  | ended => exact ⟨.over, [], by rw [Cursor.next, nextWithin]; rfl, .ended, rfl⟩
  | within leaves chained length_lt => exact nextWithin_spec leaves chained length_lt length_lt judge

/-- **Calls of `next` give the keys that are taken one after another, and then nothing for ever.** -/
theorem nextTimes (h : c.Faces a ks) (judge : K → Verdict) (n : Nat) :
    ∃ c', c.nextTimes a judge n =
      .ok ((List.range n).map fun i => (Verdict.taken judge ks)[i]?, c') := by
  induction n generalizing c ks with
  | zero => exact ⟨c, rfl⟩
  | succ n ih =>
    obtain ⟨c', rest, hc', hfaces, hrest⟩ := h.next judge
    obtain ⟨c'', hc''⟩ := ih hfaces
    refine ⟨c'', ?_⟩
    rw [Cursor.nextTimes, hc']
    simp only [bind, Except.bind, pure, Except.pure, hc'', hrest, List.getElem?_tail]
    rw [List.range_succ_eq_map, List.map_cons, List.map_map, List.head?_eq_getElem?]
    rfl

theorem restWithin (h : c.Faces a ks) (judge : K → Verdict) {fuel : Nat}
    (hfuel : (Verdict.taken judge ks).length < fuel) :
    ∃ c', c.restWithin a judge fuel = .ok (Verdict.taken judge ks, c') := by
  induction fuel generalizing c ks with
  | zero => exact absurd hfuel (Nat.not_lt_zero _)
  | succ fuel ih =>
    obtain ⟨c', rest, hc', hfaces, hrest⟩ := h.next judge
    rw [Cursor.restWithin, hc']
    cases htaken : Verdict.taken judge ks with
    | nil => exact ⟨c', rfl⟩
    | cons k taken =>
      rw [htaken, List.tail_cons] at hrest
      rw [htaken, List.length_cons] at hfuel
      obtain ⟨c'', hc''⟩ := ih hfaces (by rw [hrest]; omega)
      refine ⟨c'', ?_⟩
      simp only [List.head?_cons, bind, Except.bind, pure, Except.pure, hc'', hrest]

/-- **Reading to the end gives all keys that are taken.** -/
theorem rest (h : c.Faces a ks) (hlen : ks.length ≤ (a.nodes.toList.flatMap Node.keys).length)
    (judge : K → Verdict) : ∃ c', c.rest a judge = .ok (Verdict.taken judge ks, c') := by
  have := (Verdict.taken_sublist judge ks).length_le
  exact h.restWithin judge (by omega)

end Faces

end Cursor

end TracedIndex
