import TracedIndex.Proofs.Tree.Check
import TracedIndex.Proofs.Tree.Height
import TracedIndex.Proofs.Tree.Scan

/-!
# What a check shows

A check looks at the arena only, and says nothing about how the tree arose. Where it finds nothing, the
queries can be trusted all the same.

* **`queries_of_check`**: iterations, searches and scans of a tree in which a check finds nothing.
-/

namespace TracedIndex.Tree

variable {K : Type} [Ord K] [Std.TransOrd K] {o : Order} {t : Tree K o}

/-- **A tree in which a check finds nothing can be trusted, whatever its arena, its root and its length,
and whether or not it arose from insertions**: the copy that a snapshot makes from the root downwards
comes to every node once; an iteration gives the keys of its leaves from left to right, in order and as
many as the length says, and then nothing for ever; every search goes through as many nodes as the tree
is high, and finds a key only if there is an equal one; and a scan gives the keys between its bounds. -/
theorem queries_of_check (h : t.check = .ok ()) :
    ∃ (s : Snapshot K) (ks : List K), t.snapshot = .ok s ∧ s.root.id = t.root ∧
      (s.root.ids.map NodeId.index).Perm (List.range t.nodeCount) ∧
      ks = Subtree.keysOf s.root.leaves ∧ t.Yields ks ∧ t.toList = .ok ks ∧ Sorted ks ∧
      ks.length = t.len ∧
      (∀ key, ∃ r, t.search key = .ok r ∧ t.height = .ok r.path.length ∧
        (r.found → ∃ k ∈ ks, compare k key = .eq)) ∧
      ∀ above upTo, (compare above upTo).isLE → ∃ (scan : Scan K) (out : ScanResult K),
        t.scan above upTo = .ok scan ∧ scan.Yields t.arena out ∧ t.scanList above upTo = .ok out ∧
        out.keys = ks.filter fun k => (compare above k).isLT && (compare k upTo).isLE := by
  obtain ⟨d, root, hlaw⟩ := exists_lawful_of_check h
  refine ⟨_, root.keysIn, hlaw.snapshot_eq, hlaw.root_eq.symm, hlaw.stores.covers, ?_, hlaw.yields,
    hlaw.toList_eq, hlaw.sorted, hlaw.len_eq.symm, fun key => ?_, fun above upTo hle => ?_⟩
  · rw [root.leaves_eq, Subtree.keysIn]
  · obtain ⟨fs, id, keys, next, r, rfl, hlen, -, hr, hpath, hfound⟩ := hlaw.search_eq key
    refine ⟨r, hr, ?_, fun hf => ?_⟩
    · rw [hlaw.height_eq, hpath, List.length_append, List.length_reverse, List.length_map, hlen,
        List.length_singleton]
    · obtain ⟨k, hk, heq⟩ := hfound.mp hf
      have hmem := (fs.keysIn_sublist (.leaf id keys next)).subset
      rw [Subtree.keysIn_leaf] at hmem
      exact ⟨k, hmem hk, heq⟩
  · obtain ⟨scan, r, out, hs, -, hyields, hlist, rfl⟩ := hlaw.scan_eq hle
    exact ⟨scan, _, hs, hyields, hlist, rfl⟩

/-- A tree with an empty leaf, and with a separator that is not a key, which no insertions give. -/
theorem queries_of_empty_leaf : ∃ t : Tree Nat .standard, t.check = .ok () ∧ ¬ t.Reachable ∧
    t.Yields [7] ∧ ∃ out, t.scanList 3 8 = .ok out ∧ out.keys = [7] := by
  have hcheck : (⟨⟨#[.leaf ⟨[], some ⟨1, by decide⟩, some ⟨2, by decide⟩⟩,
      .leaf ⟨[7], none, some ⟨2, by decide⟩⟩,
      .branch ⟨[5], [⟨0, by decide⟩, ⟨1, by decide⟩], none⟩]⟩, ⟨2, by decide⟩, 1⟩ :
      Tree Nat .standard).check = .ok () := rfl
  obtain ⟨s, ks, -, -, -, -, hyields, hlist, -, -, -, hscan⟩ := queries_of_check hcheck
  obtain rfl : ks = [7] := Except.ok.inj (hlist.symm.trans (by cbv))
  obtain ⟨-, out, -, -, hout, hkeys⟩ := hscan 3 8 (by decide)
  refine ⟨_, hcheck, fun hreach => ?_, hyields, out, hout, hkeys⟩
  -- below the root, insertions leave no leaf empty
  obtain ⟨d, root, hin⟩ := hreach.inOrder
  have hempty : ∀ l, Arena.leaf _ ⟨0, by decide⟩ = .ok l → Order.standard.size / 2 ≤ l.keys.length :=
    fun l hl => (hin.leaf_bounds hl).2 (by decide)
  exact absurd (hempty ⟨[], some ⟨1, by decide⟩, some ⟨2, by decide⟩⟩ rfl) (by decide)

end TracedIndex.Tree
