import TracedIndex.Proofs.Tree.Check
import TracedIndex.Tree.Chain

/-!
# Descents and the chain of the leaves

A descent goes by separators only, which are copies of first keys made when a leaf was split, and moved up
since then. It ends in the leaf that a look at the first keys of all leaves picks: where several leaves
start with the same key, the last of them.

* `Regular.first_plug_isLE`: unless nothing is to the left of a descent, the first key below where it goes
  on is up to the key;
* `Regular.not_isLE_of_mem_leavesAfter`: all keys to the right of a descent are beyond the key;
* **`findLeaf_eq_leafAlongChain`**: the leaf that a descent and the chain agree on.
-/

namespace TracedIndex

variable {K : Type} [Ord K] {o : Order} {d : Nat} {key : K}

/-! ## Around a descent -/

namespace Subtree.Regular

/-- Where a branch does not go on with its first child, the first key of that child is the separator before
it; where it does, the first key is that of the branch. -/
theorem first_plug_isLE {fs : Trail K} (hfs : ∀ f ∈ fs, f.Follows (rankOf key)) {s : Subtree K}
    (h : (fs.plug s).Regular o d) (hne : fs.leavesBefore ≠ []) :
    ∃ k, s.first? = some k ∧ (compare k key).isLE := by
  induction fs generalizing s with
  | nil => exact absurd rfl hne
  | cons f fs ih =>
    have hplug : (Trail.plug fs (f.fill s)).Regular o d := h
    obtain ⟨⟨e, -, hfill⟩, -⟩ := hplug.of_plug
    by_cases hbefore : f.before = []
    · have hleaves : f.leavesBefore = [] := by rw [Frame.leavesBefore, hbefore, List.flatMap_nil]
      rw [Trail.leavesBefore_cons, hleaves, List.append_nil] at hne
      obtain ⟨k, hk, hle⟩ := ih (fun f' hf' => hfs f' (List.mem_cons_of_mem _ hf')) h hne
      refine ⟨k, ?_, hle⟩
      cases hfill with
      | branch _ _ _ hreg hfilled =>
        have hs : s.keysIn ≠ [] := (hreg s (by simp)).keysIn_ne_nil (hfilled s (by simp))
        rw [first?, Frame.keysIn_fill, hbefore, List.flatMap_nil, List.nil_append,
          List.head?_append_of_ne_nil _ hs] at hk
        exact hk
    · exact hfill.first_isLE (hfs f List.mem_cons_self) hbefore

variable [Std.TransOrd K]

/-- **All keys to the right of a descent for a key are beyond it**, since the first one is, in each of the
branches. -/
theorem not_isLE_of_mem_leavesAfter {fs : Trail K} (hfs : ∀ f ∈ fs, f.Follows (rankOf key))
    {s : Subtree K} (h : (fs.plug s).Regular o d) (hs : Sorted (fs.plug s).keysIn) :
    ∀ k ∈ keysOf fs.leavesAfter, ¬ (compare k key).isLE := by
  induction fs generalizing s with
  | nil => simp [Trail.leavesAfter, keysOf]
  | cons f fs ih =>
    have hplug : (Trail.plug fs (f.fill s)).Regular o d := h
    obtain ⟨⟨e, -, hfill⟩, -⟩ := hplug.of_plug
    have hsfill : Sorted (f.fill s).keysIn := hs.sublist (Trail.keysIn_sublist fs _)
    intro k hk
    rw [Trail.leavesAfter_cons, keysOf_append, List.mem_append] at hk
    rcases hk with hk | hk
    · rw [Frame.leavesAfter, keysOf_flatMap_leavesIn] at hk
      rw [Frame.keysIn_fill] at hsfill
      have hsafter := (List.pairwise_append.mp hsfill).2.1
      exact Sorted.not_isLE_of_head? hsafter (hfill.head?_after (hfs f List.mem_cons_self)) k hk
    · exact ih (fun f' hf' => hfs f' (List.mem_cons_of_mem _ hf')) h hs k hk

end Subtree.Regular

/-! ## The leaf of a key -/

namespace Tree

variable {t : Tree K o} {root : Subtree K}

/-- Whether the arena has a leaf of this number that starts with a key up to `key`. -/
def startsAt (t : Tree K o) (key : K) (id : NodeId) : Bool :=
  (t.arena.leaf id).toOption.any (·.startsUpTo key)

theorem startsAt_eq {id : NodeId} {l : Leaf K} (h : t.arena.leaf id = .ok l) :
    t.startsAt key id = l.startsUpTo key := by
  rw [startsAt, h]
  rfl

/-- What a look along the chain finds, if the leaves are these. -/
theorem Linked.leafAlongChain_eq (h : t.Linked d root) (key : K) :
    ∃ f w, t.firstLeaf = .ok f ∧ t.arena.chain t.arena.size f.stop = .ok w ∧
      w.path = root.leavesIn.map Subtree.id ∧ w.path.head? = some f.stop ∧
      t.leafAlongChain key = .ok ((w.path.filter (t.startsAt key)).getLast?.getD f.stop) := by
  obtain ⟨f, w, hf, hw, hpath, hhead⟩ := h.chain_firstLeaf
  have hfilter : w.path.filterM (fun id => return (← t.arena.leaf id).startsUpTo key) =
      .ok (w.path.filter (t.startsAt key)) := by
    refine filterM_eq fun id hid => ?_
    obtain ⟨m, hm, rfl⟩ := List.mem_map.mp (hpath ▸ hid)
    obtain ⟨parent, hleaf⟩ := h.stores.holds.leaf_of_mem hm
    rw [startsAt_eq hleaf, hleaf]
    rfl
  refine ⟨f, w, hf, hw, hpath, hhead, ?_⟩
  rw [leafAlongChain]
  simp only [hf, hw, ok_bind, hfilter]
  rfl

variable [Std.TransOrd K]

/-- **A descent ends in the last leaf of the chain that starts with a key up to the key, or in the leftmost
leaf if none does.** -/
theorem findLeaf_eq_leafAlongChain (h : t.Reachable) (key : K) :
    ∃ (w f c : Walk) (before after : List NodeId),
      t.findLeaf key = .ok w ∧ t.leafAlongChain key = .ok w.stop ∧
      t.firstLeaf = .ok f ∧ t.arena.chain t.arena.size f.stop = .ok c ∧
      c.path = before ++ w.stop :: after ∧
      (before ≠ [] → ∃ l, t.arena.leaf w.stop = .ok l ∧ l.startsUpTo key) ∧
      ∀ id ∈ after, ∃ l, t.arena.leaf id = .ok l ∧ ¬ l.startsUpTo key := by
  obtain ⟨d, root, hin⟩ := h.inOrder
  obtain ⟨f, c, hf, hc, hpath, hhead, halong⟩ := hin.linked.leafAlongChain_eq key
  obtain ⟨fs, id, keys, next, rfl, -, hfs, hw⟩ := hin.linked.findLeaf key
  have hsplit := fs.leavesIn_plug_leaf id keys next
  obtain ⟨hleaves, -⟩ := hin.linked.leaves_after hsplit
  obtain ⟨parent, hleaf⟩ := hleaves _ List.mem_cons_self
  rw [hsplit, List.map_append, List.map_cons] at hpath
  have hfirst : fs.leavesBefore.map Subtree.id ≠ [] →
      (⟨keys, next, parent⟩ : Leaf K).startsUpTo key := by
    intro hne
    obtain ⟨k, hk, hle⟩ := hin.regular.first_plug_isLE hfs fun e => hne (by rw [e, List.map_nil])
    rw [Subtree.first?, Subtree.keysIn_leaf] at hk
    exact Leaf.startsUpTo_iff.mpr ⟨k, hk, hle⟩
  have hafter : ∀ i ∈ fs.leavesAfter.map Subtree.id,
      ∃ l, t.arena.leaf i = .ok l ∧ ¬ l.startsUpTo key := by
    intro i hi
    obtain ⟨m, hm, rfl⟩ := List.mem_map.mp hi
    obtain ⟨parent, hmleaf⟩ := hleaves m (List.mem_cons_of_mem _ hm)
    refine ⟨_, hmleaf, fun hstarts => ?_⟩
    obtain ⟨k, hk, hle⟩ := Leaf.startsUpTo_iff.mp hstarts
    have hmem : k ∈ Subtree.keysOf fs.leavesAfter :=
      List.mem_flatMap.mpr ⟨m, hm, List.mem_of_head? hk⟩
    exact hin.regular.not_isLE_of_mem_leavesAfter hfs hin.sorted k hmem hle
  refine ⟨_, f, c, _, _, hw, ?_, hf, hc, hpath, fun hne => ⟨_, hleaf, hfirst hne⟩, hafter⟩
  have hnone : (fs.leavesAfter.map Subtree.id).filter (t.startsAt key) = [] := by
    refine List.filter_eq_nil_iff.mpr fun i hi => ?_
    obtain ⟨l, hl, hnot⟩ := hafter i hi
    rwa [startsAt_eq hl]
  rw [halong, hpath, List.filter_append, List.filter_cons, hnone, startsAt_eq hleaf]
  split
  case isTrue => rw [List.getLast?_concat]; rfl
  case isFalse hnot =>
    -- no leaf starts up to the key, and then the leftmost leaf is the one that the descent ends in
    have hnil : fs.leavesBefore.map Subtree.id = [] := not_not.mp (mt hfirst hnot)
    rw [hpath, hnil] at hhead
    rw [hnil]
    exact congrArg Except.ok (Option.some.inj hhead).symm

/-- Three leaves that start with 1, 2 and 2; the key 2 belongs to the last of them. -/
theorem findLeaf_among_equal_keys : ∃ (t : Tree Nat .standard) (w : Walk),
    ofKeys [2, 1, 2, 2, 2, 3] = .ok t ∧ t.findLeaf 2 = .ok w ∧ w.stop = ⟨3, by decide⟩ ∧
      t.leafAlongChain 2 = .ok ⟨3, by decide⟩ := by
  have hrun : (ofKeys [2, 1, 2, 2, 2, 3] : Except Fault (Tree Nat .standard)).bind
      (fun t => t.findLeaf 2) = .ok ⟨[⟨2, by decide⟩, ⟨3, by decide⟩], ⟨3, by decide⟩⟩ := by cbv
  obtain ⟨t, ht, hw⟩ := bind_eq_ok_iff.mp hrun
  obtain ⟨w, -, -, -, -, hw', halong, -⟩ := findLeaf_eq_leafAlongChain ⟨_, ht⟩ 2
  obtain rfl := Except.ok.inj (hw.symm.trans hw')
  exact ⟨t, _, ht, hw, rfl, halong⟩

end Tree

end TracedIndex
