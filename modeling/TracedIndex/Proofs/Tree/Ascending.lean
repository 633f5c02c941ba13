import Mathlib.Data.List.Permutation
import TracedIndex.Proofs.Subtree.Ascending
import TracedIndex.Proofs.Subtree.Relabel
import TracedIndex.Proofs.Tree.Height

/-!
# Trees of ascending keys

Where no key is below one before it, every insertion goes to the right end of the tree, and the cuts leave
behind nodes that hold what the left half of a cut holds. The new key is compared with those before it only,
and always with the same outcome, so the tree has the same shape whatever the keys are.

* `Mark`, `Snapshot.shape`: keys that cannot be told apart, and a snapshot with such keys;
* `insertBehind_eq_concat`: a key that no other is beyond;
* `ofKeys_ascending`: what a run of such insertions keeps, and the same run with marks;
* **`shape_of_ascending`**: the nodes of the tree, and its shape.
-/

namespace TracedIndex

variable {K : Type}

/-- A key that cannot be told apart from any other. -/
inductive Mark where
  | mark

instance : Ord Mark := ⟨fun _ _ => .eq⟩

instance : Std.TransOrd Mark where
  eq_swap := rfl
  isLE_trans _ _ := rfl

/-- The snapshot with a mark for every key. -/
def Snapshot.shape (s : Snapshot K) : Snapshot Mark := s.map fun _ => .mark

variable [Ord K]

theorem insertBehind_eq_concat {key : K} {ks : List K} (h : ∀ k ∈ ks, (compare k key).isLE) :
    insertBehind key ks = ks ++ [key] := by
  rw [insertBehind, List.takeWhile_eq_self_iff.mpr h, List.dropWhile_eq_nil_iff.mpr h]

namespace Tree

variable [Std.TransOrd K] {o : Order} {t : Tree K o} {keys : List K}

/-- **Ascending keys make a tight tree**, and as many marks make one of the same shape. -/
theorem ofKeys_ascending (hs : Sorted keys) (h : ofKeys keys = .ok t) :
    ∃ (d : Nat) (root : Subtree K) (u : Tree Mark o), t.InOrder d root ∧ root.keysIn = keys ∧
      root.Tight o ∧ ofKeys (List.replicate keys.length .mark) = .ok u ∧
      u.InOrder d (root.map fun _ => .mark) := by
  induction keys using List.reverseRecOn generalizing t with
  | nil =>
    obtain rfl := Except.ok.inj h
    exact ⟨0, _, empty, inOrder_empty, by simp, .leaf, rfl, inOrder_empty⟩
  | append_singleton keys key ih =>
    obtain ⟨hkeys, -, hkey⟩ := List.pairwise_append.mp hs
    rw [ofKeys_append] at h
    obtain ⟨t₀, ht₀, hext⟩ := bind_eq_ok_iff.mp h
    rw [extend_singleton] at hext
    obtain ⟨d, root, u₀, hin, rfl, htight, hu₀, huin⟩ := ih hkeys ht₀
    have hle : ∀ k ∈ root.keysIn, (compare k key).isLE := fun k hk =>
      hkey k hk key (List.mem_singleton_self key)
    obtain ⟨g, root', hg, hclose, -⟩ := exists_growth hin hext
    obtain ⟨t', ht', hin', hroot'⟩ := insert_ok hin hg hclose
    obtain rfl := Except.ok.inj (hext.symm.trans ht')
    -- a mark is up to all others as well
    have hg' : (root.map fun _ => Mark.mark).insert o.size (root.map fun _ => Mark.mark).size .mark =
        some (g.map fun _ => .mark) := by
      have hup : ∀ k ∈ root.keysIn, (compare Mark.mark Mark.mark).isLE = (compare k key).isLE :=
        fun k hk => (hle k hk).symm
      rw [Subtree.size_map, hin.regular.insert_map hin.sorted hup, hg, Option.map_some]
    obtain ⟨u, hu, huin', -⟩ := insert_ok huin hg' (by rw [Growth.close_map, hclose, Option.map_some])
    refine ⟨_, root', u, hin', hroot'.trans (insertBehind_eq_concat hle),
      (hin.regular.insert_tight hin.sorted hle htight hg).close hclose, ?_, ?_⟩
    · rw [List.length_append, List.length_singleton, List.replicate_add, ofKeys_append, hu₀]
      exact (extend_singleton u₀ .mark).trans hu
    · cases g <;> exact huin'

/-- **In a tree of ascending keys, every leaf but the last of the chain holds half of an order of keys,
rounded up, and on every level of branches, every branch but the last holds half of an order of separators,
rounded down.** So the leaves cut the keys into pieces of one length, and the tree has the same shape for any
ascending keys of this number, down to the numbers of the nodes. -/
theorem shape_of_ascending (hs : Sorted keys) (h : ofKeys keys = .ok t) :
    ∃ (s : Snapshot K) (f w : Walk), t.snapshot = .ok s ∧ t.firstLeaf = .ok f ∧
      t.arena.chain t.arena.size f.stop = .ok w ∧ w.path = s.root.leaves.map Subtree.id ∧
      s.root.level (s.height - 1) = s.root.leaves ∧
      (∀ l ∈ s.root.leaves.dropLast, l.keys.length = (o.size + 1) / 2) ∧
      (∀ l, l + 1 < s.height → (∀ x ∈ s.root.level l, ¬ x.isLeaf) ∧
        ∀ x ∈ (s.root.level l).dropLast, x.keys.length = o.size / 2) ∧
      (∀ i l, s.root.leaves[i]? = some l → i + 1 < s.root.leaves.length →
        l.keys = (keys.drop (i * ((o.size + 1) / 2))).take ((o.size + 1) / 2)) ∧
      ∀ {L : Type} [Ord L] [Std.TransOrd L] (keys' : List L) (t' : Tree L o), Sorted keys' →
        keys'.length = keys.length → ofKeys keys' = .ok t' →
        t'.snapshot.map Snapshot.shape = .ok s.shape := by
  obtain ⟨d, root, u, hin, rfl, htight, hu, huin⟩ := ofKeys_ascending hs h
  obtain ⟨f, w, hf, hw, hpath, -⟩ := hin.linked.chain_firstLeaf
  have hbalanced := hin.regular.balanced
  have hleaf : ∀ l ∈ root.leavesIn.dropLast, l.keys.length = (o.size + 1) / 2 := by
    intro l hl
    have hpacked := htight.of_mem_dropLast_level (hbalanced.level_eq.symm ▸ hl)
    rw [hpacked.length_keys, Subtree.eq_leaf_of_mem_leavesIn (List.dropLast_subset _ hl)]
    rfl
  refine ⟨_, f, w, hin.linked.snapshot_eq, hf, hw, ?_⟩
  rw [root.leaves_eq]
  refine ⟨hpath, hbalanced.level_eq, hleaf, fun l hl => ?_,
    fun i l hl hi => Subtree.keys_of_equal_lengths hleaf hl hi, ?_⟩
  · have hbranch : ∀ x ∈ root.level l, ¬ x.isLeaf := fun x hx =>
      hbalanced.isLeaf_of_mem_level (by simpa using hl) hx
    refine ⟨hbranch, fun x hx => ?_⟩
    rw [(htight.of_mem_dropLast_level hx).length_keys, if_neg (hbranch x (List.dropLast_subset _ hx))]
  · intro L _ _ keys' t' hs' hlen h'
    obtain ⟨d', root', u', hin', rfl, -, hu', huin'⟩ := ofKeys_ascending hs' h'
    rw [hlen, hu] at hu'
    obtain rfl := Except.ok.inj hu'
    have hshape := huin'.linked.snapshot_eq.symm.trans huin.linked.snapshot_eq
    simp only [Except.ok.injEq, Snapshot.mk.injEq] at hshape
    obtain ⟨-, hd, -, hroot⟩ := hshape
    rw [hin'.linked.snapshot_eq, hin'.len_eq, hlen, ← hin.len_eq]
    simp only [Except.map, Snapshot.shape, Snapshot.map, hd, hroot]

/-- Seven keys with some equal ones fill three leaves with two keys each, and one key is left for a fourth. As
many equal keys do the same. -/
theorem shape_of_seven_keys : ∃ (t t' : Tree Nat .standard) (s : Snapshot Nat),
    ofKeys [1, 1, 2, 2, 2, 3, 3] = .ok t ∧ ofKeys [5, 5, 5, 5, 5, 5, 5] = .ok t' ∧ t.snapshot = .ok s ∧
      s.root.leaves.length = 4 ∧ (∀ l ∈ s.root.leaves.dropLast, l.keys.length = 2) ∧
      (∀ l, s.root.leaves[2]? = some l → l.keys = [2, 3]) ∧
      t'.snapshot.map Snapshot.shape = .ok s.shape := by
  have hrun : (ofKeys [1, 1, 2, 2, 2, 3, 3] : Except Fault (Tree Nat .standard)).bind
      (fun t => t.snapshot.map fun s => s.root.leavesIn.length) = .ok 4 := by cbv
  obtain ⟨t, ht, hlen⟩ := bind_eq_ok_iff.mp hrun
  obtain ⟨t', ht'⟩ : ∃ t' : Tree Nat .standard, ofKeys [5, 5, 5, 5, 5, 5, 5] = .ok t' := ⟨_, by cbv⟩
  obtain ⟨s, -, -, hs, -, -, -, -, hleaves, -, hkeys, hshape⟩ := shape_of_ascending (by decide) ht
  rw [hs] at hlen
  replace hlen : s.root.leaves.length = 4 := s.root.leaves_eq ▸ Except.ok.inj hlen
  exact ⟨t, t', s, ht, ht', hs, hlen, hleaves, fun l hl => hkeys 2 l hl (by omega),
    hshape _ t' (by decide) (by decide) ht'⟩

end Tree

end TracedIndex
