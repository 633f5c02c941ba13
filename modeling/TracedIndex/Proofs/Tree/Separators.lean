import TracedIndex.Proofs.Subtree.Separators
import TracedIndex.Proofs.Tree.Height

/-!
# Separators and the chain of the leaves

A descent trusts the separators, but no leaf knows of them, and a key may be put into a leaf in front of
all others there. No insertion makes a separator wrong all the same: it goes to the right of every separator
up to the key, so only the leftmost leaf ever gets a new first key, and no separator is a copy of that.

* `InOrder.separators_eq`: the separators of all branches, read off the chain;
* `InOrder.child_of_separator`: each separator and the child behind it;
* `InOrder.empty_of_leaf`: when a leaf is empty;
* **`separators_of_reachable`**: all of this for a reachable tree.
-/

namespace TracedIndex.Tree

variable {K : Type} [Ord K] {o : Order} {t : Tree K o} {d : Nat} {root : Subtree K}

namespace InOrder

/-- **The separators are the first keys of the leaves along the chain, the leftmost one apart.** -/
theorem separators_eq (h : t.InOrder d root) {path : List NodeId}
    (hpath : path = root.leavesIn.map Subtree.id) :
    root.separators.map some = path.tail.map fun id => (t.arena.keysAt id).head? := by
  rw [h.regular.separators_eq, hpath, ← List.map_tail, List.map_map]
  refine List.map_congr_left fun l hl => ?_
  obtain ⟨parent, hleaf⟩ := h.stores.holds.leaf_of_mem (List.mem_of_mem_tail hl)
  rw [Function.comp_apply, Arena.keysAt_eq (Arena.leaf_eq_ok_iff.mp hleaf)]
  rfl

theorem length_children (h : t.InOrder d root) {id : NodeId} {b : Branch K}
    (hb : t.arena.branch id = .ok b) : b.children.length = b.keys.length + 1 := by
  obtain ⟨fs, s, e, -, hs, hreg, -⟩ := h.exists_hole (Arena.branch_eq_ok_iff.mp hb)
  cases s with
  | leaf id' keys next => cases hs
  | branch id' keys children =>
    obtain rfl := Node.branch.inj hs
    cases hreg with
    | branch hne _ hsep _ _ => rw [List.length_map, Subtree.length_children hne hsep]

/-- Behind each separator of a branch is a child that begins with it, and so has no smaller key. -/
theorem child_of_separator [Std.ReflOrd K] (h : t.InOrder d root) {id : NodeId} {b : Branch K} {i : Nat}
    {k : K} (hb : t.arena.branch id = .ok b) (hk : b.keys[i]? = some k) :
    ∃ child c, b.children[i + 1]? = some child ∧ t.arena.copy t.arena.size child = .ok c ∧
      (Subtree.keysOf c.leaves).head? = some k ∧ ∀ l ∈ Subtree.keysOf c.leaves, (compare k l).isLE := by
  obtain ⟨fs, s, e, rfl, hs, hreg, -⟩ := h.exists_hole (Arena.branch_eq_ok_iff.mp hb)
  cases s with
  | leaf id' keys next => cases hs
  | branch id' keys children =>
    obtain rfl := Node.branch.inj hs
    obtain ⟨c, hc, hfirst⟩ := hreg.exists_child hk
    have hmem := List.mem_of_getElem? hc
    obtain ⟨e', he', hbranch⟩ := h.regular.of_plug.1
    obtain ⟨depth, hdepth, hcreg⟩ : ∃ depth, depth ≤ d ∧ c.Regular o depth := by
      cases hbranch with
      | @branch depth _ _ _ _ _ _ hregs _ => exact ⟨depth, by omega, hregs c hmem⟩
    have hcopy : t.arena.copy t.arena.size c.id = .ok c :=
      Arena.copy_eq (h.stores.branch_eq.2 c hmem) hcreg.balanced (Nat.lt_of_le_of_lt hdepth h.linked.depth_lt)
    have hsorted : Sorted c.keysIn := by
      refine h.sorted.sublist (List.Sublist.trans ?_ (fs.keysIn_sublist _))
      obtain ⟨before, after, rfl⟩ := List.append_of_mem hmem
      rw [Subtree.keysIn_branch, List.flatMap_append, List.flatMap_cons]
      exact (List.sublist_append_left _ _).trans (List.sublist_append_right _ _)
    obtain ⟨rest, hrest⟩ := List.head?_eq_some_iff.mp hfirst
    rw [hrest] at hsorted
    refine ⟨c.id, c, by rw [List.getElem?_map, hc]; rfl, hcopy, ?_⟩
    rw [c.leaves_eq]
    exact ⟨hfirst, fun l hl => hsorted.isLE_of_mem_cons (hrest ▸ hl)⟩

/-- A leaf is empty only where it is all there is. -/
theorem empty_of_leaf (h : t.InOrder d root) {id : NodeId} {l : Leaf K} (hl : t.arena.leaf id = .ok l)
    (hnil : l.keys = []) : id = t.root ∧ t.isEmpty := by
  have hroot : id = t.root := by
    by_contra hne
    have hfilled := (h.leaf_bounds hl).2 hne
    have := o.three_le_size
    rw [hnil, List.length_nil] at hfilled
    omega
  subst hroot
  have hnode := h.stores.holds.node_eq
  rw [← h.root_eq, Arena.leaf_eq_ok_iff.mp hl] at hnode
  refine ⟨rfl, ?_⟩
  rw [isEmpty, h.len_eq]
  cases root with
  | leaf id keys next =>
    obtain rfl := Node.leaf.inj (Except.ok.inj hnode)
    rw [Subtree.keysIn_leaf, show keys = [] from hnil]
    rfl
  | branch id keys children => cases Except.ok.inj hnode

end InOrder

variable [Std.TransOrd K]

/-- **The separators of all branches, in order, are the first keys of the leaves along the chain, the
leftmost one apart**, the very same keys and not only equal ones. So there is one separator fewer than there
are leaves; each separator is the smallest key below the child behind it; and no leaf is empty but that of
a tree without keys. -/
theorem separators_of_reachable (h : t.Reachable) :
    ∃ (s : Snapshot K) (f w : Walk), t.snapshot = .ok s ∧ t.firstLeaf = .ok f ∧
      t.arena.chain t.arena.size f.stop = .ok w ∧
      s.root.separators.map some = w.path.tail.map (fun id => (t.arena.keysAt id).head?) ∧
      s.root.separators.length + 1 = w.path.length ∧
      (∀ id b, t.arena.branch id = .ok b → b.children.length = b.keys.length + 1) ∧
      (∀ id b i k, t.arena.branch id = .ok b → b.keys[i]? = some k →
        ∃ child c, b.children[i + 1]? = some child ∧ t.arena.copy t.arena.size child = .ok c ∧
          (Subtree.keysOf c.leaves).head? = some k ∧
          ∀ l ∈ Subtree.keysOf c.leaves, (compare k l).isLE) ∧
      ∀ id l, t.arena.leaf id = .ok l → l.keys = [] → id = t.root ∧ t.isEmpty := by
  obtain ⟨d, root, hin⟩ := h.inOrder
  obtain ⟨f, w, hf, hw, hpath, -⟩ := hin.linked.chain_firstLeaf
  obtain ⟨-, l, ls, -, -, hleaves, -⟩ := hin.firstLeaf
  refine ⟨_, f, w, hin.linked.snapshot_eq, hf, hw, hin.separators_eq hpath, ?_,
    fun id b hb => hin.length_children hb, fun id b i k hb hk => hin.child_of_separator hb hk,
    fun id l hl hnil => hin.empty_of_leaf hl hnil⟩
  rw [hin.regular.length_separators, hpath, List.length_map, hleaves]
  rfl

/-- Three branches over five leaves, of which three begin with the key 5; one of its copies is the separator
of the root. -/
theorem separators_of_equal_keys : ∃ (t : Tree Nat .standard) (s : Snapshot Nat) (f w : Walk),
    ofKeys [5, 5, 1, 5, 3, 5, 0] = .ok t ∧ t.snapshot = .ok s ∧ s.root.separators = [3, 5, 5, 5] ∧
      t.firstLeaf = .ok f ∧ t.arena.chain t.arena.size f.stop = .ok w ∧ w.path.length = 5 ∧
      w.path.tail.map (fun id => (t.arena.keysAt id).head?) = [some 3, some 5, some 5, some 5] := by
  have hrun : (ofKeys [5, 5, 1, 5, 3, 5, 0] : Except Fault (Tree Nat .standard)).bind
      (fun t => t.snapshot.map fun s => s.root.separators) = .ok [3, 5, 5, 5] := by
    decide +kernel
  obtain ⟨t, ht, hseps⟩ := bind_eq_ok_iff.mp hrun
  obtain ⟨s, f, w, hs, hf, hw, hfirst, hlen, -⟩ := separators_of_reachable ⟨_, ht⟩
  rw [hs] at hseps
  replace hseps : s.root.separators = [3, 5, 5, 5] := Except.ok.inj hseps
  rw [hseps] at hfirst hlen
  exact ⟨t, s, f, w, ht, hs, hseps, hf, hw, hlen.symm, hfirst.symm⟩

end TracedIndex.Tree
