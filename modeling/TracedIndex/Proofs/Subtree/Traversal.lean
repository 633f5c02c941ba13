import Mathlib.Data.List.Induction
import TracedIndex.Proofs.Subtree.Lists
import TracedIndex.Snapshot.Traversal

/-!
# The leaves of any subtree

Nothing ties the parts of a subtree to each other: a branch may have no children, numbers may repeat, and
leaves may be on many levels. The loop over a stack still finds all leaves from left to right. Every round does
away with one node, and does not change which leaves are found in the end.

* `Visit.outcome`, `Visit.work`: what is found in the end, and how many nodes are left to visit;
* `Visit.step_spec`: what a round does to them; **`Visit.run_eq`**: the loop to its end;
* `mem_leafPlaces_iff`, `pairwise_leafPlaces`, `map_leafPlaces`: the places of the leaves;
* **`leaves_by_stack`**: the leaves of any subtree.
-/

namespace TracedIndex.Subtree

variable {K : Type}

/-! ## The loop -/

namespace Visit

theorem step_concat (found before : List (Subtree K)) (s : Subtree K) :
    step ⟨found, before ++ [s]⟩ = some (match s with
      | .leaf id keys next => ⟨found ++ [.leaf id keys next], before⟩
      | .branch _ _ children => ⟨found, before ++ children.reverse⟩) := by
  unfold step
  rw [List.getLast?_concat, List.dropLast_concat]
  cases s <;> rfl

/-- What the visit finds in the end: the leaves found so far, and those below the pending nodes, of which the
last comes first. -/
def outcome (v : Visit K) : List (Subtree K) := v.found ++ v.pending.reverse.flatMap leavesIn

/-- The number of nodes still to visit. -/
def work (v : Visit K) : Nat := (v.pending.map size).sum

/-- **A round does one node's work and does not change the outcome.** -/
theorem step_spec {v w : Visit K} (h : v.step = some w) : w.outcome = v.outcome ∧ v.work = w.work + 1 := by
  obtain ⟨found, pending⟩ := v
  cases pending using List.reverseRecOn with
  | nil => cases h
  | append_singleton before s =>
    rw [step_concat] at h
    cases h
    cases s with
    | leaf id keys next => simp [outcome, work, size]
    | branch id keys children =>
      simp only [outcome, work, List.reverse_append, List.reverse_reverse, List.reverse_singleton,
        List.singleton_append, List.flatMap_append, List.flatMap_cons, leavesIn_branch, List.map_append,
        List.map_reverse, List.sum_append, List.sum_reverse, List.map_cons, List.map_nil, List.sum_cons,
        List.sum_nil, size_branch]
      exact ⟨trivial, by omega⟩

/-- The loop ends only when all work is done, and the outcome is found then. -/
theorem step_eq_none {v : Visit K} (h : v.step = none) : v.found = v.outcome ∧ v.work = 0 := by
  obtain ⟨found, pending⟩ := v
  cases pending using List.reverseRecOn with
  | nil => simp [outcome, work]
  | append_singleton before s =>
    rw [step_concat] at h
    cases h

/-- **The loop ends after as many rounds as there are nodes to visit.** -/
theorem run_eq (v : Visit K) (rounds : Nat) :
    v.run rounds = if v.work ≤ rounds then some v.outcome else none := by
  induction rounds generalizing v with
  | zero =>
    unfold run
    cases h : v.step with
    | none =>
      obtain ⟨hfound, hwork⟩ := step_eq_none h
      rw [if_pos (Nat.le_of_eq hwork), ← hfound]
    | some w => rw [if_neg (by have := (step_spec h).2; omega)]
  | succ rounds ih =>
    unfold run
    cases h : v.step with
    | none =>
      obtain ⟨hfound, hwork⟩ := step_eq_none h
      rw [if_pos (by omega), ← hfound]
    | some w =>
      obtain ⟨houtcome, hwork⟩ := step_spec h
      simp only [ih, houtcome, hwork, Nat.add_le_add_iff_right]

end Visit

/-! ## Places -/

theorem mem_leafPlacesFrom_iff {ss : List (Subtree K)} {i : Nat} {place : List Nat} :
    place ∈ leafPlacesFrom i ss ↔
      ∃ j c rest, place = (i + j) :: rest ∧ ss[j]? = some c ∧ rest ∈ c.leafPlaces := by
  induction ss generalizing i with
  | nil => simp [leafPlacesFrom]
  | cons s ss ih =>
    rw [leafPlacesFrom, List.mem_append, List.mem_map, ih]
    constructor
    · rintro (⟨rest, hrest, rfl⟩ | ⟨j, c, rest, rfl, hc, hrest⟩)
      · exact ⟨0, s, rest, rfl, rfl, hrest⟩
      · exact ⟨j + 1, c, rest, by rw [Nat.add_assoc, Nat.add_comm 1], hc, hrest⟩
    · rintro ⟨j, c, rest, rfl, hc, hrest⟩
      cases j with
      | zero =>
        obtain rfl : s = c := Option.some.inj hc
        exact Or.inl ⟨rest, hrest, rfl⟩
      | succ j => exact Or.inr ⟨j, c, rest, by rw [Nat.add_assoc, Nat.add_comm 1], hc, hrest⟩

/-- **The places are those of the leaves.** -/
theorem mem_leafPlaces_iff {s : Subtree K} {place : List Nat} :
    place ∈ s.leafPlaces ↔ ∃ l, s.nodeAt? place = some l ∧ l.isLeaf := by
  induction s using induction generalizing place with
  | leaf id keys next => cases place <;> simp [leafPlaces, nodeAt?, isLeaf]
  | branch id keys children ih =>
    rw [leafPlaces, mem_leafPlacesFrom_iff]
    cases place with
    | nil => simp [nodeAt?, isLeaf]
    | cons i place =>
      simp only [nodeAt?, Option.bind_eq_some_iff, List.cons.injEq, Nat.zero_add]
      constructor
      · rintro ⟨j, c, rest, ⟨rfl, rfl⟩, hc, hplace⟩
        obtain ⟨l, hl, hleaf⟩ := (ih c (List.mem_of_getElem? hc)).mp hplace
        exact ⟨l, ⟨c, hc, hl⟩, hleaf⟩
      · rintro ⟨l, ⟨c, hc, hl⟩, hleaf⟩
        exact ⟨i, c, place, ⟨rfl, rfl⟩, hc, (ih c (List.mem_of_getElem? hc)).mpr ⟨l, hl, hleaf⟩⟩

mutual

/-- **The places ascend from left to right.** -/
theorem pairwise_leafPlaces : ∀ s : Subtree K, s.leafPlaces.Pairwise (· < ·)
  | .leaf .. => by
    rw [leafPlaces]
    exact List.pairwise_singleton _ _
  | .branch _ _ children => by
    rw [leafPlaces]
    exact pairwise_leafPlacesFrom 0 children

theorem pairwise_leafPlacesFrom (i : Nat) : ∀ ss : List (Subtree K), (leafPlacesFrom i ss).Pairwise (· < ·)
  | [] => by
    rw [leafPlacesFrom]
    exact List.Pairwise.nil
  | s :: ss => by
    rw [leafPlacesFrom, List.pairwise_append]
    refine ⟨?_, pairwise_leafPlacesFrom (i + 1) ss, ?_⟩
    · exact (pairwise_leafPlaces s).map _ fun p q h => List.cons_lt_cons_iff.mpr (Or.inr ⟨rfl, h⟩)
    · intro p hp q hq
      obtain ⟨p, -, rfl⟩ := List.mem_map.mp hp
      obtain ⟨j, c, q, rfl, -⟩ := mem_leafPlacesFrom_iff.mp hq
      exact List.cons_lt_cons_iff.mpr (Or.inl (by omega))

end

/-- The leaves below some children, if the nodes at the indices of these are told by `node`. -/
theorem map_leafPlacesFrom {ss : List (Subtree K)} {i : Nat} {node : List Nat → Option (Subtree K)}
    (hnode : ∀ j place, node ((i + j) :: place) = ss[j]?.bind fun c => c.nodeAt? place)
    (h : ∀ c ∈ ss, c.leafPlaces.map c.nodeAt? = c.leavesIn.map some) :
    (leafPlacesFrom i ss).map node = (ss.flatMap leavesIn).map some := by
  induction ss generalizing i with
  | nil => rw [leafPlacesFrom]; rfl
  | cons s ss ih =>
    obtain ⟨hs, hss⟩ := List.forall_mem_cons.mp h
    have hfirst : (s.leafPlaces.map (i :: ·)).map node = s.leavesIn.map some := by
      rw [List.map_map, ← hs]
      exact List.map_congr_left fun place _ => hnode 0 place
    have hrest : (leafPlacesFrom (i + 1) ss).map node = (ss.flatMap leavesIn).map some := by
      apply ih _ hss
      intro j place
      rw [Nat.add_assoc, Nat.add_comm 1]
      exact hnode (j + 1) place
    rw [leafPlacesFrom, List.map_append, hfirst, hrest, List.flatMap_cons, List.map_append]

/-- **The leaves are the nodes at these places, in their order.** -/
theorem map_leafPlaces (s : Subtree K) : s.leafPlaces.map s.nodeAt? = s.leavesIn.map some := by
  induction s using induction with
  | leaf id keys next => simp [leafPlaces, nodeAt?]
  | branch id keys children ih =>
    rw [leafPlaces, leavesIn_branch]
    apply map_leafPlacesFrom _ ih
    intro j place
    rw [Nat.zero_add, nodeAt?]

/-! ## The leaves of any subtree -/

/-- **The loop over a stack finds the leaves that the recursion meets**, whatever the shape of the subtree: it
ends after as many rounds as there are nodes, and it finds the node at each place of a leaf once, from left to
right. -/
theorem leaves_by_stack (s : Subtree K) :
    (∀ rounds, Visit.run ⟨[], [s]⟩ rounds = if s.size ≤ rounds then some s.leaves else none) ∧
      s.leaves = s.leavesIn ∧
      ∃ places : List (List Nat), places.Pairwise (· < ·) ∧
        (∀ place, place ∈ places ↔ ∃ l, s.nodeAt? place = some l ∧ l.isLeaf) ∧
        places.map s.nodeAt? = s.leaves.map some := by
  refine ⟨?_, s.leaves_eq, s.leafPlaces, pairwise_leafPlaces s, fun place => mem_leafPlaces_iff, ?_⟩
  · intro rounds
    have hwork : Visit.work ⟨[], [s]⟩ = s.size := by simp [Visit.work]
    have houtcome : Visit.outcome ⟨[], [s]⟩ = s.leaves := by simp [Visit.outcome, s.leaves_eq]
    rw [Visit.run_eq, hwork, houtcome]
  · rw [s.leaves_eq]
    exact map_leafPlaces s

/-- A branch without children beside two equal leaves on two levels. -/
example : (branch ⟨5, by decide⟩ [1, 2, 3] [.branch ⟨5, by decide⟩ [] [],
    .branch ⟨0, by decide⟩ [] [.leaf ⟨7, by decide⟩ [4] none], .leaf ⟨7, by decide⟩ [4] none]).leaves =
      [leaf ⟨7, by decide⟩ [4] none, .leaf ⟨7, by decide⟩ [4] none] := by cbv

end TracedIndex.Subtree
