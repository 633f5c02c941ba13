import TracedIndex.Proofs.Tree.Reachable

/-!
# Insertion refines insertion by recursion

Insertion climbs along the parent links of an arena that it changes on the way; insertion into a
snapshot comes back from its own recursion and knows no parents. A tree in order has the tree that it
stores for its snapshot, so both give the same tree, with the same numbers and the same links between
the leaves.

* `InOrder.snapshot_eq`: the snapshot of a tree in order;
* **`snapshot_insert`**: the snapshot after an insertion is the one before with the key inserted by
  recursion;
* **`snapshot_ofKeys`**: a run of insertions, as a run of insertions by recursion.
-/

namespace TracedIndex

variable {K : Type} [Ord K]

theorem Snapshot.insert_eq (s : Snapshot K) (key : K) :
    s.insert key = (s.root.insert s.order s.root.size key).bind fun g => g.close.map fun root =>
      { s with height := s.height + g.rise, len := s.len + 1, root := root } := by
  rw [Snapshot.insert]
  cases s.root.insert s.order s.root.size key with
  | none => rfl
  | some g =>
    cases g with
    | whole root => rfl
    | halves left separator right fresh =>
      simp only [Growth.close, Growth.rise, Option.bind_eq_bind, Option.bind_some, Option.map_map]
      cases NodeId.ofNat? fresh <;> rfl

namespace Tree

variable {o : Order} {t : Tree K o} {d : Nat} {root : Subtree K}

theorem InOrder.snapshot_eq (h : t.InOrder d root) :
    t.snapshot = .ok ⟨o.size, d + 1, root.keysIn.length, root⟩ := by
  rw [h.linked.snapshot_eq, h.len_eq]

variable [Std.TransOrd K]

theorem InOrder.refines_insert (h : t.InOrder d root) (key : K) :
    match (⟨o.size, d + 1, root.keysIn.length, root⟩ : Snapshot K).insert key with
    | some s' => ∃ t', t.insert key = .ok t' ∧ t'.snapshot = .ok s'
    | none => t.insert key = .error .exhausted := by
  rw [Snapshot.insert_eq]
  cases hg : root.insert o.size root.size key with
  | none => exact insert_exhausted h (by rw [hg]; rfl)
  | some g =>
    rw [Option.bind_some]
    cases hroot : g.close with
    | none => exact insert_exhausted h (by rw [hg, Option.bind_some, hroot])
    | some root' =>
      obtain ⟨t', ht', hin, hkeys⟩ := insert_ok h hg hroot
      refine ⟨t', ht', ?_⟩
      rw [hin.snapshot_eq, hkeys, length_insertBehind, Nat.add_right_comm]

/-- **The snapshot after an insertion is the snapshot before with the key inserted by recursion**, the
numbers of fresh nodes following on those that there are; and where recursion finds no number for a
fresh node, insertion finds none either. -/
theorem snapshot_insert (h : t.Reachable) (key : K) :
    ∃ s, t.snapshot = .ok s ∧ s.order = o.size ∧ s.root.size = t.nodeCount ∧
      match s.insert key with
      | some s' => ∃ t', t.insert key = .ok t' ∧ t'.snapshot = .ok s'
      | none => t.insert key = .error .exhausted := by
  obtain ⟨d, root, hin⟩ := h.inOrder
  exact ⟨_, hin.snapshot_eq, rfl, hin.stores.size_eq, hin.refines_insert key⟩

/-- A full leaf is split, and a new root put above its halves. -/
theorem snapshot_insert_split : ∃ t t' : Tree Nat .standard,
    ofKeys [1, 2] = .ok t ∧ t.insert 3 = .ok t' ∧
      t'.snapshot = .ok ⟨3, 2, 3, .branch ⟨2, by decide⟩ [3]
        [.leaf ⟨0, by decide⟩ [1, 2] (some ⟨1, by decide⟩), .leaf ⟨1, by decide⟩ [3] none]⟩ := by
  have ht : ofKeys [1, 2] =
      .ok (⟨⟨#[.leaf ⟨[1, 2], none, none⟩]⟩, ⟨0, by decide⟩, 2⟩ : Tree Nat .standard) := by cbv
  obtain ⟨s, hs, -, -, hinsert⟩ := snapshot_insert ⟨_, ht⟩ 3
  obtain rfl : (⟨3, 1, 2, .leaf ⟨0, by decide⟩ [1, 2] none⟩ : Snapshot Nat) = s :=
    Except.ok.inj ((show _ = _ by cbv).symm.trans hs)
  rw [show Snapshot.insert _ 3 = some _ by cbv] at hinsert
  obtain ⟨t', ht', hs'⟩ := hinsert
  exact ⟨_, t', ht, ht', hs'⟩

/-- **The snapshot of a tree that arises from insertions arises from insertions by recursion.** -/
theorem snapshot_ofKeys (keys : List K) :
    ∃ s₀, (empty : Tree K o).snapshot = .ok s₀ ∧
      match keys.foldlM Snapshot.insert s₀ with
      | some s => ∃ t : Tree K o, ofKeys keys = .ok t ∧ t.snapshot = .ok s
      | none => (ofKeys keys : Except Fault (Tree K o)) = .error .exhausted := by
  refine ⟨_, inOrder_empty.snapshot_eq, ?_⟩
  induction keys using List.reverseRecOn with
  | nil => exact ⟨empty, rfl, inOrder_empty.snapshot_eq⟩
  | append_singleton keys key ih =>
    rw [List.foldlM_append, ofKeys_append]
    cases hfold : keys.foldlM Snapshot.insert _ with
    | none =>
      rw [hfold] at ih
      rw [show ofKeys keys = _ from ih]
      rfl
    | some s =>
      rw [hfold] at ih
      obtain ⟨t, ht, hs⟩ := ih
      obtain ⟨d, root, hin⟩ := Reachable.inOrder ⟨keys, ht⟩
      obtain rfl := Except.ok.inj (hin.snapshot_eq.symm.trans hs)
      rw [ht, Except.bind, extend_singleton]
      simp only [Option.bind_eq_bind, Option.bind_some, List.foldlM_cons, List.foldlM_nil,
        Option.pure_def, Option.bind_fun_some]
      exact hin.refines_insert key

end Tree

end TracedIndex
