import TracedIndex.Proofs.Tree.Lawful
import TracedIndex.Tree.Search

/-!
# Point search

A search looks into one leaf only. Equal keys may stand to the left of the separators that the search
passes to the right, but a separator is the first key to its right, so one of them is always in the leaf
in which the search ends.

* `Lawful.search_eq`, `InOrder.search_eq`: what a search gives;
* **`search_ofKeys`**: a search finds the keys that were inserted, and its path leads from the root to a
  leaf.
-/

namespace TracedIndex.Tree

variable {K : Type} [Ord K] [Std.TransOrd K] {o : Order} {t : Tree K o} {d : Nat} {root : Subtree K}

omit [Std.TransOrd K] in
theorem search_of_findLeaf {key : K} {w : Walk} {l : Leaf K} (hw : t.findLeaf key = .ok w)
    (hl : t.arena.leaf w.stop = .ok l) : t.search key = .ok ⟨l.holds key, w.path⟩ := by
  rw [search, hw]
  simp only [bind, Except.bind, hl]
  rfl

/-- A search of a lawful tree goes down the trail that a descent for the key follows, and finds a key if
there is an equal one in the leaf at its end. -/
theorem Lawful.search_eq (h : t.Lawful d root) (key : K) :
    ∃ (fs : Trail K) (id : NodeId) (keys : List K) (next : Option NodeId) (r : Search),
      fs.plug (.leaf id keys next) = root ∧ fs.length = d ∧ (∀ f ∈ fs, f.Follows (rankOf key)) ∧
      t.search key = .ok r ∧ r.path = (fs.map Frame.id).reverse ++ [id] ∧
      (r.found ↔ ∃ k ∈ keys, compare k key = .eq) := by
  obtain ⟨fs, id, keys, next, rfl, hlen, hfs, hw⟩ := h.findLeaf key
  have hleaf := Arena.leaf_eq_ok_iff.mpr h.stores.leaf_eq
  exact ⟨fs, id, keys, next, _, rfl, hlen, hfs, search_of_findLeaf hw hleaf, rfl,
    Leaf.holds_iff (l := ⟨keys, next, fs.parent?⟩) (Subtree.sorted_of_plug_leaf h.sorted) key⟩

/-- A search of a tree in order goes down to a leaf, and finds a key there if there is an equal one
anywhere in the tree. -/
theorem InOrder.search_eq (h : t.InOrder d root) (key : K) :
    ∃ (r : Search) (id : NodeId) (l : Leaf K) (rest : List NodeId), t.search key = .ok r ∧
      t.arena.leaf id = .ok l ∧ (r.found ↔ ∃ k ∈ l.keys, compare k key = .eq) ∧
      (r.found ↔ ∃ k ∈ root.keysIn, compare k key = .eq) ∧ r.path = t.root :: rest ∧
      r.path.getLast? = some id ∧ r.path.length = d + 1 ∧ r.path.IsChain t.arena.Lists := by
  obtain ⟨fs, id, keys, next, r, rfl, hlen, hfs, hr, hrpath, hfound⟩ := h.lawful.search_eq key
  obtain ⟨rest, hpath, hchain⟩ := Arena.path_plug h.stores.holds
  rw [Subtree.id, ← hrpath, ← h.root_eq] at hpath
  rw [← h.root_eq, ← hpath] at hchain
  refine ⟨r, id, _, rest, hr, Arena.leaf_eq_ok_iff.mpr h.stores.leaf_eq, hfound, ?_, hpath, ?_, ?_, hchain⟩
  · rw [Subtree.Regular.exists_eq_plug hfs h.regular h.sorted, Subtree.keysIn_leaf]
    exact hfound
  · simp [hrpath]
  · simp [hrpath, hlen]

/-- **A search finds a key if one was inserted that compares as equal to it**, however many there are
and wherever they stand. Its path leads from the root, from child to child, through all levels to a
leaf, which holds an equal key if one was found. -/
theorem search_ofKeys {keys : List K} (h : ofKeys keys = .ok t) (key : K) :
    ∃ (r : Search) (id : NodeId) (l : Leaf K), t.search key = .ok r ∧
      t.contains key = .ok r.found ∧ (r.found ↔ ∃ k ∈ keys, compare k key = .eq) ∧
      r.path.head? = some t.root ∧ t.height = .ok r.path.length ∧
      r.path.IsChain (fun parent child => ∃ b, t.arena.branch parent = .ok b ∧ child ∈ b.children) ∧
      r.path.getLast? = some id ∧ t.arena.leaf id = .ok l ∧
      (r.found → ∃ k ∈ l.keys, compare k key = .eq) := by
  obtain ⟨d, root, hin, hsort⟩ := inOrder_of_ofKeys h
  obtain ⟨r, id, l, rest, hr, hl, hleaf, hfound, hpath, hlast, hlen, hchain⟩ := hin.search_eq key
  refine ⟨r, id, l, hr, ?_, ?_, by rw [hpath]; rfl, by rw [hin.height_eq, hlen], hchain, hlast, hl,
    hleaf.mp⟩
  · rw [contains_eq, hr]
    rfl
  · rw [hfound]
    simp only [hsort.perm.mem_iff]

/-- Equal keys in all leaves, and equal separators between them. -/
theorem search_equal_keys : ∃ (t : Tree Nat .standard) (r : Search), ofKeys [2, 2, 2, 2, 2] = .ok t ∧
    t.search 2 = .ok r ∧ r.found ∧ r.path.length = 2 := by
  have ht : ofKeys [2, 2, 2, 2, 2] = .ok (⟨⟨#[
      .leaf ⟨[2, 2], some ⟨1, by decide⟩, some ⟨2, by decide⟩⟩,
      .leaf ⟨[2, 2], some ⟨3, by decide⟩, some ⟨2, by decide⟩⟩,
      .branch ⟨[2, 2], [⟨0, by decide⟩, ⟨1, by decide⟩, ⟨3, by decide⟩], none⟩,
      .leaf ⟨[2], none, some ⟨2, by decide⟩⟩]⟩, ⟨2, by decide⟩, 5⟩ : Tree Nat .standard) := by cbv
  obtain ⟨r, -, -, hr, -, hfound, -, hheight, -⟩ := search_ofKeys ht 2
  refine ⟨_, r, ht, hr, hfound.mpr ⟨2, by decide, by decide⟩, ?_⟩
  exact (Except.ok.inj hheight).symm.trans (by cbv)

end TracedIndex.Tree
