import TracedIndex.Proofs.Tree.Iteration
import TracedIndex.Proofs.Tree.Refinement
import TracedIndex.Tree.Session

/-!
# What a snapshot shows

A snapshot copies only what is below the root, and no parents. It shows the whole tree all the same:
every node of the arena is below the root, in one place, and the branch above that place is its parent.

* `InOrder.eq_leaf`: each leaf of the stored tree is linked to the one to its right;
* **`snapshot_of_reachable`**: the nodes of a snapshot are those of the arena, and its leaves, on one
  level, are linked from left to right and have the keys that an iteration gives;
* **`eq_of_snapshot_eq`**: two trees with the same snapshot are the same, from whatever insertions they
  arose, so no session can tell them apart.
-/

namespace TracedIndex.Tree

variable {K : Type} [Ord K] {o : Order} {t t' : Tree K o} {d d' : Nat} {root : Subtree K}

theorem InOrder.eq_leaf (h : t.InOrder d root) {i : Nat} {l : Subtree K}
    (hl : root.leavesIn[i]? = some l) :
    l = .leaf l.id l.keys (root.leavesIn[i + 1]?.map Subtree.id) := by
  obtain ⟨start, hchained⟩ := h.chained
  have hleaf := Subtree.eq_leaf_of_mem_leavesIn (List.mem_of_getElem? hl)
  rwa [hchained.next?_eq hl, Option.or_none] at hleaf

/-- Two trees in order that store the same tree are the same. -/
theorem InOrder.unique (h : t.InOrder d root) (h' : t'.InOrder d' root) : t = t' := by
  have harena : t.arena = t'.arena := h.stores.unique h'.stores
  have hroot : t.root = t'.root := h.root_eq.trans h'.root_eq.symm
  have hlen : t.len = t'.len := h.len_eq.trans h'.len_eq.symm
  cases t
  cases t'
  simp_all

variable [Std.TransOrd K]

/-- **A snapshot is a faithful copy**: its nodes are the nodes of the tree, each once; every way from its
root to a leaf is as long as its height; and its leaves are linked from left to right, and hold the
keys that an iteration gives, as many as its length says. -/
theorem snapshot_of_reachable (h : t.Reachable) :
    ∃ s, t.snapshot = .ok s ∧ s.root.id = t.root ∧
      (s.root.ids.map NodeId.index).Perm (List.range t.nodeCount) ∧
      (∀ p ∈ s.root.chains, p.length = s.height) ∧ s.root.leaves ≠ [] ∧
      s.root.chains.map List.getLast? = s.root.leaves.map (fun l => some l.id) ∧
      s.len = (Subtree.keysOf s.root.leaves).length ∧
      (∀ (i : Nat) (l : Subtree K), s.root.leaves[i]? = some l →
        l = .leaf l.id l.keys (s.root.leaves[i + 1]?.map Subtree.id)) ∧
      t.Yields (Subtree.keysOf s.root.leaves) ∧
      t.toList = .ok (Subtree.keysOf s.root.leaves) := by
  obtain ⟨d, root, hin⟩ := h.inOrder
  obtain ⟨-, l, ls, -, -, hleaves, -⟩ := hin.firstLeaf
  refine ⟨_, hin.snapshot_eq, hin.root_eq.symm, hin.stores.covers, hin.regular.length_of_mem_chains, ?_⟩
  rw [root.leaves_eq]
  exact ⟨hleaves ▸ List.cons_ne_nil l ls, root.map_getLast?_chains, rfl,
    fun i l hl => hin.eq_leaf hl, hin.yields, hin.toList_eq⟩

/-- The snapshot of a tree with three leaves, the keys of which come in order. -/
theorem snapshot_three_leaves : ∃ t : Tree Nat .standard, ofKeys [3, 1, 4, 1, 5] = .ok t ∧
    t.snapshot = .ok ⟨3, 2, 5, .branch ⟨2, by decide⟩ [3, 4]
      [.leaf ⟨0, by decide⟩ [1, 1] (some ⟨3, by decide⟩),
        .leaf ⟨3, by decide⟩ [3] (some ⟨1, by decide⟩), .leaf ⟨1, by decide⟩ [4, 5] none]⟩ ∧
    t.Yields [1, 1, 3, 4, 5] := by
  have hrun : (ofKeys [3, 1, 4, 1, 5] : Except Fault (Tree Nat .standard)).bind snapshot =
      .ok ⟨3, 2, 5, .branch ⟨2, by decide⟩ [3, 4]
        [.leaf ⟨0, by decide⟩ [1, 1] (some ⟨3, by decide⟩),
          .leaf ⟨3, by decide⟩ [3] (some ⟨1, by decide⟩), .leaf ⟨1, by decide⟩ [4, 5] none]⟩ := by
    cbv
  obtain ⟨t, ht, hsnapshot⟩ := bind_eq_ok_iff.mp hrun
  obtain ⟨s, hs, -, -, -, -, -, -, -, hyields, -⟩ := snapshot_of_reachable ⟨_, ht⟩
  obtain rfl := Except.ok.inj (hsnapshot.symm.trans hs)
  exact ⟨t, ht, hsnapshot, by simpa [Subtree.leaves_eq, Subtree.keysOf, Subtree.keys] using hyields⟩

/-- **Two trees with the same snapshot are the same**, down to the parent of each node, from whatever
insertions they arose; so they give the same answers to all requests, of insertions as well. -/
theorem eq_of_snapshot_eq (h : t.Reachable) (h' : t'.Reachable) (hs : t.snapshot = t'.snapshot) :
    t.root = t'.root ∧ t.len = t'.len ∧ t.arena = t'.arena ∧
      ∀ requests, t.answers requests = t'.answers requests := by
  obtain ⟨d, root, hin⟩ := h.inOrder
  obtain ⟨d', root', hin'⟩ := h'.inOrder
  rw [hin.snapshot_eq, hin'.snapshot_eq] at hs
  obtain rfl : root = root' := congrArg Snapshot.root (Except.ok.inj hs)
  obtain rfl := hin.unique hin'
  exact ⟨rfl, rfl, rfl, fun _ => rfl⟩

/-- The same keys in two orders that cannot be told apart any more. -/
theorem eq_of_two_orders : ∃ t t' : Tree Nat .standard, ofKeys [1, 2, 3, 4, 5] = .ok t ∧
    ofKeys [3, 1, 2, 5, 4] = .ok t' ∧ t.arena = t'.arena ∧
      ∀ requests, t.answers requests = t'.answers requests := by
  have hrun : (ofKeys [1, 2, 3, 4, 5] : Except Fault (Tree Nat .standard)).bind snapshot =
      .ok ⟨3, 2, 5, .branch ⟨2, by decide⟩ [3, 5]
        [.leaf ⟨0, by decide⟩ [1, 2] (some ⟨1, by decide⟩),
          .leaf ⟨1, by decide⟩ [3, 4] (some ⟨3, by decide⟩), .leaf ⟨3, by decide⟩ [5] none]⟩ := by
    cbv
  have hrun' : (ofKeys [3, 1, 2, 5, 4] : Except Fault (Tree Nat .standard)).bind snapshot =
      (ofKeys [1, 2, 3, 4, 5] : Except Fault (Tree Nat .standard)).bind snapshot := by cbv
  obtain ⟨t', ht', hs'⟩ := bind_eq_ok_iff.mp (hrun'.trans hrun)
  obtain ⟨t, ht, hs⟩ := bind_eq_ok_iff.mp hrun
  obtain ⟨-, -, harena, hanswers⟩ := eq_of_snapshot_eq ⟨_, ht⟩ ⟨_, ht'⟩ (hs.trans hs'.symm)
  exact ⟨t, t', ht, ht', harena, hanswers⟩

end TracedIndex.Tree
