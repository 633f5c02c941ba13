import Mathlib.Algebra.Order.BigOperators.Group.List
import Mathlib.Algebra.Order.Group.Nat
import Mathlib.Data.List.Perm.Subperm
import TracedIndex.Proofs.Arena.Walk

/-!
# No node in two places

An arena may hold a subtree in which one node stands in several places, since a branch may list a child
twice, or a child of another branch. Then the same leaf stands in several places as well. But a chain
of leaves that ends cannot come to a leaf again: it would go on from there as it did before.

* `Holds.eq_of_id_eq`: an arena holds one subtree at a node;
* `nodup_of_chained`: a chain that ends passes each leaf once;
* `Holds.nodup_ids`: if each leaf stands in one place only, then so does each node;
* **`stores_of_chained`**: a held tree with its leaves in a chain, and with as many nodes as there are,
  is all that the arena stores.
-/

namespace TracedIndex.Arena

variable {K : Type} {a : Arena K} {p q : Option NodeId} {s t : Subtree K}

/-! ## Subtrees at a node -/

/-- **The subtree that an arena holds at a node is determined by the node.** -/
theorem Holds.eq_of_id_eq (hs : a.Holds p s) (ht : a.Holds q t) (hid : s.id = t.id) : s = t := by
  have hnode : s.toNode p = t.toNode q :=
    Except.ok.inj (hs.node_eq.symm.trans (hid ▸ ht.node_eq))
  induction hs generalizing q t with
  | @leaf p n keys next node =>
    cases ht with
    | @leaf _ id keys' next' node' =>
      obtain rfl : n = id := hid
      simp only [Subtree.toNode, Node.leaf.injEq, Leaf.mk.injEq] at hnode
      rw [hnode.1, hnode.2.1]
    | branch => cases hnode
  | @branch p n keys children node holds ih =>
    cases ht with
    | leaf => cases hnode
    | @branch _ id keys' children' node' holds' =>
      obtain rfl : n = id := hid
      simp only [Subtree.toNode, Node.branch.injEq, Branch.mk.injEq] at hnode
      have hchildren := eq_of_map_eq hnode.2.1 fun c hc c' hc' he =>
        ih c hc (holds' c' hc') he
          (Except.ok.inj ((holds c hc).node_eq.symm.trans (he ▸ (holds' c' hc').node_eq)))
      rw [hnode.1, hchildren]

/-! ## Chains -/

section

variable {start : Option NodeId} {ls ms : List (Subtree K)}

/-- From a leaf, there is only one way to the end of its chain. -/
theorem length_eq_of_chained
    (hls : ∀ l ∈ ls, ∃ parent, a.leaf l.id = .ok ⟨l.keys, l.next?, parent⟩)
    (hms : ∀ m ∈ ms, ∃ parent, a.leaf m.id = .ok ⟨m.keys, m.next?, parent⟩)
    (hl : Subtree.Chained start ls none) (hm : Subtree.Chained start ms none) :
    ls.length = ms.length := by
  induction ls generalizing start ms with
  | nil =>
    obtain rfl : start = none := hl
    cases ms with
    | nil => rfl
    | cons m ms => cases hm.1
  | cons l ls ih =>
    cases ms with
    | nil =>
      obtain rfl : start = none := hm
      cases hl.1
    | cons m ms =>
      obtain ⟨p, hlp⟩ := hls l List.mem_cons_self
      obtain ⟨q, hmq⟩ := hms m List.mem_cons_self
      have hid : l.id = m.id := Option.some.inj (hl.1.symm.trans hm.1)
      have hnext : l.next? = m.next? := by
        rw [hid, hmq] at hlp
        exact congrArg Leaf.next (Except.ok.inj hlp).symm
      exact congrArg (· + 1) (ih (fun l' h => hls l' (List.mem_cons_of_mem _ h))
        (fun m' h => hms m' (List.mem_cons_of_mem _ h)) hl.2 (hnext ▸ hm.2))

/-- **A chain that ends passes each leaf once.** -/
theorem nodup_of_chained
    (hls : ∀ l ∈ ls, ∃ parent, a.leaf l.id = .ok ⟨l.keys, l.next?, parent⟩)
    (h : Subtree.Chained start ls none) : (ls.map Subtree.id).Nodup := by
  induction ls generalizing start with
  | nil => exact List.nodup_nil
  | cons l ls ih =>
    refine List.nodup_cons.mpr ⟨fun hmem => ?_, ih (fun m hm => hls m (List.mem_cons_of_mem _ hm)) h.2⟩
    -- from the leaf of the same number the rest of the chain would be as long as the whole
    obtain ⟨m, hm, hid⟩ := List.mem_map.mp hmem
    obtain ⟨before, after, rfl⟩ := List.append_of_mem hm
    obtain ⟨mid, -, hafter⟩ := Subtree.chained_append.mp h.2
    have hmid : mid = start := by rw [hafter.1, h.1, hid]
    have hlen := length_eq_of_chained hls
      (fun x hx => hls x (List.mem_cons_of_mem _ (List.mem_append_right _ hx))) h (hmid ▸ hafter)
    simp only [List.length_cons, List.length_append] at hlen
    omega

end

/-! ## Places of the nodes -/

theorem Holds.of_plug {fs : Trail K} (h : a.Holds p (fs.plug s)) : ∃ q, a.Holds q s := by
  induction fs generalizing s with
  | nil => exact ⟨p, h⟩
  | cons f fs ih =>
    obtain ⟨q, hq⟩ := ih h
    exact ⟨_, (holds_fill.mp hq).1⟩

/-- Where a node stands in a held subtree, so do its leaves. -/
theorem Holds.leavesIn_subset (hs : a.Holds p s) (ht : a.Holds q t) (hmem : t.id ∈ s.ids) :
    t.leavesIn ⊆ s.leavesIn ∧ t.size ≤ s.size := by
  obtain ⟨fs, u, rfl, hu⟩ := Subtree.exists_trail_of_mem_ids hmem
  obtain ⟨q, hq⟩ := hs.of_plug
  obtain rfl := hq.eq_of_id_eq ht hu
  refine ⟨?_, ?_⟩
  · rw [Trail.leavesIn_plug]
    exact fun l hl => List.mem_append_left _ (List.mem_append_right _ hl)
  · rw [← Subtree.length_ids, ← Subtree.length_ids, (Trail.ids_plug fs u).length_eq,
      List.length_append]
    exact Nat.le_add_right _ _

/-- **If each leaf stands in one place only, then so does each node.** -/
theorem Holds.nodup_ids {d : Nat} (h : a.Holds p s) (hbal : s.Balanced d)
    (hleaves : (s.leavesIn.map Subtree.id).Nodup) : s.ids.Nodup := by
  induction hbal generalizing p with
  | leaf => simp
  | @branch d id keys children hlen hbal ih =>
    cases h with
    | branch node holds =>
      rw [Subtree.leavesIn_branch, List.map_flatMap, List.nodup_flatMap] at hleaves
      rw [Subtree.ids_branch, List.nodup_cons, List.nodup_flatMap]
      refine ⟨fun hmem => ?_, fun c hc => ih c hc (holds c hc) (hleaves.1 c hc),
        hleaves.2.imp_of_mem fun {c c'} hc hc' hdisj n hn hn' => ?_⟩
      · -- the branch below itself would be smaller than itself
        obtain ⟨c, hc, hid⟩ := List.mem_flatMap.mp hmem
        have hle := ((holds c hc).leavesIn_subset (.branch node holds) hid).2
        have hsum := List.le_sum_of_mem (List.mem_map_of_mem (f := Subtree.size) hc)
        rw [Subtree.size_branch] at hle
        omega
      · -- a node below two children would have its leaves below both
        obtain ⟨fs, u, rfl, rfl⟩ := Subtree.exists_trail_of_mem_ids hn
        obtain ⟨q, hu⟩ := (holds _ hc).of_plug
        obtain ⟨e, -, hubal⟩ := (hbal _ hc).of_plug
        obtain ⟨l, hl⟩ := List.exists_mem_of_ne_nil _ hubal.leavesIn_ne_nil
        exact hdisj
          (List.mem_map_of_mem (((holds _ hc).leavesIn_subset hu hn).1 hl))
          (List.mem_map_of_mem (((holds _ hc').leavesIn_subset hu hn').1 hl))

/-- **A held tree with its leaves in a chain, and with as many nodes as there are, is all that the arena
stores.** -/
theorem stores_of_chained {d : Nat} (h : a.Holds none s) (hbal : s.Balanced d)
    (hsize : s.size = a.size) {start : Option NodeId}
    (hchained : Subtree.Chained start s.leavesIn none) : a.Stores s := by
  have hnd := h.nodup_ids hbal (nodup_of_chained (fun l hl => h.leaf_of_mem hl) hchained)
  refine ⟨h, ?_⟩
  have hlt : ∀ n ∈ s.ids.map NodeId.index, n ∈ List.range a.size := by
    intro n hn
    obtain ⟨id, hid, rfl⟩ := List.mem_map.mp hn
    obtain ⟨fs, u, rfl, rfl⟩ := Subtree.exists_trail_of_mem_ids hid
    obtain ⟨q, hu⟩ := h.of_plug
    exact List.mem_range.mpr (exists_node_iff.mp ⟨_, hu.node_eq⟩)
  have hndindex : (s.ids.map NodeId.index).Nodup := hnd.map fun _ _ => NodeId.ext
  -- different numbers below the size, and as many of them, are all of them
  refine (hndindex.subperm hlt).perm_of_length_le ?_
  rw [List.length_range, List.length_map, Subtree.length_ids, hsize]

end TracedIndex.Arena
