import TracedIndex.Proofs.Arena.Holds
import TracedIndex.Proofs.Subtree.Bounds

/-!
# Visits

A visit of a node passes if and only if the arena holds a bounded subtree there, and what it counts are
the leaves, the keys and the nodes of this subtree. Nothing else is known of the arena: a visit follows
the children wherever they lead, and may come to one node in several places.

* `ascending_iff`, `inspect_eq_ok_iff`: what is checked of the keys of one node;
* `Subtree.census`: what a subtree counts;
* `visitChildren_eq_ok_iff`: a visit of the children of a branch;
* **`visit_eq_ok_iff`**: a visit of a subtree.
-/

namespace TracedIndex

variable {K : Type}

/-! ## Counts -/

namespace Subtree

/-- The leaves of the subtree from left to right, and how many keys and nodes it has. -/
def census (s : Subtree K) : Census := ⟨s.leavesIn.map id, s.keysIn.length, s.size⟩

/-- What some subtrees count together. -/
def censusAmong (ss : List (Subtree K)) : Census :=
  ⟨(ss.flatMap leavesIn).map id, (ss.flatMap keysIn).length, (ss.map size).sum⟩

theorem censusAmong_cons (s : Subtree K) (ss : List (Subtree K)) :
    censusAmong (s :: ss) = s.census ++ censusAmong ss := by
  simp only [censusAmong, List.flatMap_cons, List.map_append, List.length_append, List.map_cons,
    List.sum_cons]
  rfl

theorem census_leaf (id : NodeId) (keys : List K) (next : Option NodeId) :
    (leaf id keys next).census = ⟨[id], keys.length, 1⟩ := by
  rw [census, leavesIn_leaf, keysIn_leaf, size]
  rfl

theorem census_branch (id : NodeId) (keys : List K) (children : List (Subtree K)) :
    (branch id keys children).census =
      { censusAmong children with nodes := (censusAmong children).nodes + 1 } := by
  rw [census, leavesIn_branch, keysIn_branch, size_branch]
  rfl

end Subtree

variable [Ord K] {o : Order}

theorem ascending_iff [Std.TransOrd K] (ks : List K) : ascending ks ↔ Sorted ks := by
  induction ks with
  | nil => simp [ascending, Sorted]
  | cons x ks ih =>
    cases ks with
    | nil => simp [ascending, Sorted]
    | cons y ks =>
      rw [ascending, Bool.and_eq_true, ih, Sorted, Sorted, List.pairwise_cons (a := x)]
      constructor
      · rintro ⟨hxy, h⟩
        refine ⟨fun z hz => ?_, h⟩
        rcases List.mem_cons.mp hz with rfl | hz
        · exact hxy
        · exact Std.TransOrd.isLE_trans hxy (List.rel_of_pairwise_cons h hz)
      · intro h
        exact ⟨h.1 y List.mem_cons_self, h.2⟩

namespace Arena

variable {a : Arena K} {lower upper : Option K}

/-! ## Single checks -/

theorem require_true (v : Violation) : require true v = .ok () := rfl

theorem lookup_ok {α : Type} (x : α) : lookup (.ok x) = .ok x := rfl

theorem require_eq_ok_iff {law : Bool} {v : Violation} {u : Unit} :
    require law v = .ok u ↔ law = true := by
  cases law <;> simp [require]

theorem lookup_eq_ok_iff {α : Type} {x : Except Fault α} {y : α} : lookup x = .ok y ↔ x = .ok y := by
  cases x <;> simp [lookup, Except.mapError]

/-- **A node passes if its keys are fewer than the order, in order, and between the bounds.** -/
theorem inspect_eq_ok_iff [Std.TransOrd K] {id : NodeId} {n : Node K} :
    a.inspect o id lower upper = .ok n ↔ a.node id = .ok n ∧ Orderly o lower upper n.keys := by
  simp only [inspect, bind, bind_eq_ok_iff, lookup_eq_ok_iff, require_eq_ok_iff, pure, Except.pure,
    Except.ok.injEq, decide_eq_true_eq, ascending_iff, List.all_eq_true]
  constructor
  · rintro ⟨m, hm, -, hlen, -, hs, -, hbounds, rfl⟩
    exact ⟨hm, hlen, hs, hbounds⟩
  · rintro ⟨hn, hlen, hs, hbounds⟩
    exact ⟨n, hn, (), hlen, (), hs, (), hbounds, rfl⟩

/-! ## Subtrees -/

/-- A visit passes where the arena holds a subtree of depth `d` between the bounds, and gives its
counts. -/
def PassesBounded (a : Arena K) (o : Order) (d : Nat)
    (visit : NodeId → Option K → Option K → Except Violation Census) : Prop :=
  ∀ (id : NodeId) (lower upper : Option K) (c : Census), visit id lower upper = .ok c ↔
    ∃ (p : Option NodeId) (s : Subtree K), a.Holds p s ∧ s.id = id ∧ s.Bounded o d lower upper ∧
      c = s.census

section

variable {d : Nat} {visit : NodeId → Option K → Option K → Except Violation Census}
  {parent : NodeId} {c : Census}

/-- The first child passes if it is held below the branch, and bounded by the first separator. -/
theorem visitChildren_cons_eq_ok_iff (hvisit : a.PassesBounded o d visit) {child : NodeId}
    {children : List NodeId} {separators : List K} :
    a.visitChildren visit parent upper (child :: children) lower separators = .ok c ↔
      ∃ (s : Subtree K) (rest : Census), a.Holds (some parent) s ∧ s.id = child ∧
        s.Bounded o d lower (separators.head?.or upper) ∧
        a.visitChildren visit parent upper children separators.head? separators.tail = .ok rest ∧
        c = s.census ++ rest := by
  simp only [visitChildren, bind, bind_eq_ok_iff, lookup_eq_ok_iff, require_eq_ok_iff, pure,
    Except.pure, Except.ok.injEq, beq_iff_eq]
  constructor
  · rintro ⟨n, hn, -, hparent, first, hfirst, rest, hrest, rfl⟩
    obtain ⟨p, s, hs, rfl, hbounded, rfl⟩ := (hvisit _ _ _ _).mp hfirst
    -- a node has one parent, so the subtree is held below the branch
    obtain ⟨m, hm, hp, -⟩ := hs.root
    obtain rfl : n = m := Except.ok.inj (hn.symm.trans hm)
    exact ⟨s, rest, hp.symm.trans hparent ▸ hs, rfl, hbounded, hrest, rfl⟩
  · rintro ⟨s, rest, hs, rfl, hbounded, hrest, rfl⟩
    obtain ⟨n, hn, hparent, -⟩ := hs.root
    have hfirst := (hvisit s.id lower (separators.head?.or upper) s.census).mpr
      ⟨_, s, hs, rfl, hbounded, rfl⟩
    exact ⟨n, hn, (), hparent, s.census, hfirst, rest, hrest, rfl⟩

/-- **A visit of the children of a branch passes if they are held below it, and bounded by the
separators.** -/
theorem visitChildren_eq_ok_iff (hvisit : a.PassesBounded o d visit) {children : List NodeId}
    {separators : List K} (hlen : children.length = separators.length + 1) :
    a.visitChildren visit parent upper children lower separators = .ok c ↔
      ∃ ss : List (Subtree K), ss.map Subtree.id = children ∧ (∀ s ∈ ss, a.Holds (some parent) s) ∧
        Subtree.BoundedAmong o d lower upper separators ss ∧ c = Subtree.censusAmong ss := by
  induction separators generalizing children lower c with
  | nil =>
    obtain ⟨child, rfl⟩ := List.length_eq_one_iff.mp hlen
    rw [visitChildren_cons_eq_ok_iff hvisit]
    constructor
    · rintro ⟨s, rest, hs, rfl, hbounded, ⟨⟩, rfl⟩
      exact ⟨[s], rfl, by simpa using hs, .last hbounded, by rw [Subtree.censusAmong_cons]; rfl⟩
    · rintro ⟨ss, hids, hholds, hamong, rfl⟩
      cases hamong with
      | @last _ _ _ s bounded =>
        obtain rfl := (List.cons.inj hids).1
        exact ⟨s, .empty, hholds s List.mem_cons_self, rfl, bounded, rfl, Subtree.censusAmong_cons s []⟩
  | cons k separators ih =>
    obtain ⟨child, children, rfl⟩ := List.exists_cons_of_length_eq_add_one hlen
    rw [visitChildren_cons_eq_ok_iff hvisit]
    simp only [List.head?_cons, Option.some_or, List.tail_cons,
      ih (Nat.succ_injective hlen)]
    constructor
    · rintro ⟨s, _, hs, rfl, hbounded, ⟨ss, rfl, hss, hamong, rfl⟩, rfl⟩
      refine ⟨s :: ss, rfl, ?_, .cons hbounded hamong, (Subtree.censusAmong_cons s ss).symm⟩
      exact List.forall_mem_cons.mpr ⟨hs, hss⟩
    · rintro ⟨ss, hids, hholds, hamong, rfl⟩
      cases hamong with
      | @cons _ _ _ _ _ s ss bounded among =>
        obtain ⟨rfl, rfl⟩ := List.cons.inj hids
        obtain ⟨hs, hss⟩ := List.forall_mem_cons.mp hholds
        exact ⟨s, _, hs, rfl, bounded, ⟨ss, rfl, hss, among, rfl⟩, Subtree.censusAmong_cons s ss⟩

end

/-- **A visit passes if the arena holds a bounded subtree there**, and gives what this subtree counts. -/
theorem visit_eq_ok_iff [Std.TransOrd K] (a : Arena K) (o : Order) (d : Nat) :
    a.PassesBounded o d (a.visit o d) := by
  induction d with
  | zero =>
    intro id lower upper c
    simp only [visit, bind, bind_eq_ok_iff, inspect_eq_ok_iff]
    constructor
    · rintro ⟨n, ⟨hn, horderly⟩, hc⟩
      cases n with
      | branch b => cases hc
      | leaf l =>
        obtain rfl := Except.ok.inj hc
        exact ⟨_, .leaf id l.keys l.next, .leaf hn, rfl, .leaf horderly, (Subtree.census_leaf _ _ _).symm⟩
    · rintro ⟨p, s, hs, rfl, hbounded, rfl⟩
      cases hbounded with
      | leaf orderly => exact ⟨_, ⟨hs.node_eq, orderly⟩, by rw [Subtree.census_leaf]; rfl⟩
  | succ d ih =>
    intro id lower upper c
    simp only [visit, bind, bind_eq_ok_iff, inspect_eq_ok_iff]
    constructor
    · rintro ⟨n, ⟨hn, horderly⟩, hc⟩
      cases n with
      | leaf l => cases hc
      | branch b =>
        simp only [bind_eq_ok_iff, require_eq_ok_iff, beq_iff_eq] at hc
        obtain ⟨-, hne, -, hlen, _, hchildren, hc⟩ := hc
        obtain ⟨ss, hids, hss, hamong, rfl⟩ := (visitChildren_eq_ok_iff ih hlen).mp hchildren
        obtain rfl := Except.ok.inj hc
        refine ⟨b.parent, .branch id b.keys ss, .branch (hids ▸ hn) hss, rfl,
          .branch (by simpa using hne) horderly hamong, (Subtree.census_branch _ _ _).symm⟩
    · rintro ⟨p, s, hs, rfl, hbounded, rfl⟩
      cases hbounded with
      | @branch _ _ _ id keys ss ne_nil orderly among =>
        cases hs with
        | branch node holds =>
          have hlen : (ss.map Subtree.id).length = keys.length + 1 := by
            rw [List.length_map, among.length_eq]
          have hchildren := (visitChildren_eq_ok_iff ih hlen).mpr ⟨ss, rfl, holds, among, rfl⟩
          refine ⟨_, ⟨node, orderly⟩, ?_⟩
          simp only [bind_eq_ok_iff, require_eq_ok_iff, beq_iff_eq]
          exact ⟨(), by simpa using ne_nil, (), hlen, _, hchildren,
            by rw [Subtree.census_branch]; rfl⟩

end Arena

end TracedIndex
