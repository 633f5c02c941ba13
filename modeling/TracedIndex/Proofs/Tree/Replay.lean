import TracedIndex.Proofs.Tree.Scan
import TracedIndex.Snapshot.Query

/-!
# Queries replayed on a snapshot

A snapshot has the separators of all branches and the keys of all leaves, and so a query can be answered
from it alone. It is replayed by recursion on the nested nodes, where the tree follows numbers, and
looks at each key of a leaf, where the tree bisects.

* `Subtree.route_fill`, `Subtree.route_plug`: a replayed query goes down the trail that a descent
  follows;
* `Subtree.dropWhile_leavesIn`: the leaves from a given one on;
* `Lawful.replay_search`, `Lawful.replay_scan`: both queries on the snapshot of a lawful tree;
* **`replay_of_reachable`**: the snapshot of a reachable tree gives its answers.
-/

namespace TracedIndex

variable {K : Type}

/-! ## Routes -/

namespace Subtree

variable [Ord K] {key : K}

theorem routeAt_append (before after : List (Subtree K)) (s : Subtree K) :
    routeAt key before.length (before ++ s :: after) = s.route key := by
  induction before with
  | nil => rw [List.nil_append, List.length_nil, routeAt]
  | cons b before ih => rw [List.cons_append, List.length_cons, routeAt, ih]

theorem route_fill {f : Frame K} (hf : f.Follows (rankOf key)) (s : Subtree K) :
    (f.fill s).route key = (s.route key).map (f.fill s :: ·) := by
  have hslot : (f.keys.takeWhile fun s => (compare s key).isLE).length = f.before.length := hf.symm
  rw [Frame.fill, route, hslot, routeAt_append]

/-- **A replayed query goes down the trail that a descent follows**, to the leaf at its end. -/
theorem route_plug {fs : Trail K} (hfs : ∀ f ∈ fs, f.Follows (rankOf key)) (id : NodeId)
    (keys : List K) (next : Option NodeId) :
    ∃ passed, (fs.plug (.leaf id keys next)).route key = some passed ∧
      passed.map Subtree.id = (fs.map Frame.id).reverse ++ [id] ∧
      passed.getLast? = some (.leaf id keys next) := by
  induction fs using List.reverseRecOn with
  | nil => exact ⟨[.leaf id keys next], by rw [Trail.plug_nil, route], rfl, rfl⟩
  | append_singleton fs f ih =>
    obtain ⟨passed, hroute, hids, hlast⟩ := ih fun f' hf' => hfs f' (List.mem_append_left _ hf')
    rw [Trail.plug_concat, route_fill (hfs f (by simp)), hroute]
    refine ⟨_, rfl, ?_, ?_⟩
    · rw [List.map_cons, hids, List.map_append, List.reverse_append]
      rfl
    · rw [List.getLast?_cons, hlast]
      rfl

omit [Ord K] in
/-- Where no two leaves have the same number, those from a given one on are found by its number. -/
theorem dropWhile_leavesIn {s l : Subtree K} {before after : List (Subtree K)}
    (hsplit : s.leavesIn = before ++ l :: after) (hnd : s.ids.Nodup) :
    s.leaves.dropWhile (fun m => m.id != l.id) = l :: after := by
  have hids := s.leavesIn_sublist.nodup hnd
  rw [hsplit, List.map_append, List.map_cons] at hids
  have hne : ∀ m ∈ before, (m.id != l.id) = true := fun m hm => by
    refine bne_iff_ne.mpr fun he => ?_
    exact List.disjoint_of_nodup_append hids (List.mem_map_of_mem hm) (he ▸ List.mem_cons_self)
  rw [leaves_eq, hsplit, List.dropWhile_append_of_pos hne, List.dropWhile_cons_of_neg (by simp)]

end Subtree

/-! ## Answers -/

namespace Tree

variable [Ord K] [Std.TransOrd K] {o : Order} {t : Tree K o} {d : Nat} {root : Subtree K}

/-- A search replayed on the snapshot visits the same nodes, and finds what the tree finds. -/
theorem Lawful.replay_search (h : t.Lawful d root) {s : Snapshot K} (hs : s.root = root) (key : K) :
    ∃ (r : Search) (passed : List (Subtree K)) (leaf : Subtree K), t.search key = .ok r ∧
      s.root.route key = some passed ∧ passed.map Subtree.id = r.path ∧
      passed.getLast? = some leaf ∧ leaf.isLeaf ∧
      (r.found ↔ ∃ k ∈ leaf.keys, compare k key = .eq) ∧ s.search key = some r := by
  obtain ⟨fs, id, keys, next, r, rfl, -, hfs, hr, hpath, hfound⟩ := h.search_eq key
  obtain ⟨passed, hroute, hids, hlast⟩ := Subtree.route_plug hfs id keys next
  rw [← hs] at hroute
  refine ⟨r, passed, _, hr, hroute, hids.trans hpath.symm, hlast, rfl, hfound, ?_⟩
  have hany : (keys.any fun k => compare k key == .eq) = r.found := by
    rw [Bool.eq_iff_iff, hfound, List.any_eq_true]
    simp only [beq_iff_eq]
  rw [Snapshot.search, hroute]
  simp only [Option.bind_eq_bind, Option.bind_some, hlast, Subtree.keys, hany, hids, ← hpath]

/-- A scan replayed on the snapshot gives the keys that the tree gives. -/
theorem Lawful.replay_scan (h : t.Lawful d root) {s : Snapshot K} (hs : s.root = root)
    (above upTo : K) :
    s.scan above upTo =
      some (root.keysIn.filter fun k => (compare above k).isLT && (compare k upTo).isLE) := by
  obtain ⟨fs, id, keys, next, rfl, -, hfs, -⟩ := h.findLeaf above
  obtain ⟨passed, hroute, -, hlast⟩ := Subtree.route_plug hfs id keys next
  rw [← hs] at hroute
  have hleaves := Subtree.dropWhile_leavesIn (fs.leavesIn_plug_leaf id keys next) h.stores.covers.nodup
  rw [← hs] at hleaves
  rw [Snapshot.scan, hroute]
  simp only [Option.bind_eq_bind, Option.bind_some, hlast, hleaves, h.filter_keysIn_eq hfs]

/-- **A snapshot alone gives the answers of its tree.** Replaying a search from the root of the snapshot,
there is always the child to go to; the nodes on the way are those of the path of the search, and the
leaf at its end has an equal key if and only if the search found one. Reading the leaves of the snapshot
from there on gives the keys of a scan. -/
theorem replay_of_reachable (h : t.Reachable) :
    ∃ s, t.snapshot = .ok s ∧
      (∀ key, ∃ (r : Search) (passed : List (Subtree K)) (leaf : Subtree K),
        t.search key = .ok r ∧ s.root.route key = some passed ∧ passed.map Subtree.id = r.path ∧
        passed.getLast? = some leaf ∧ leaf.isLeaf ∧
        (r.found ↔ ∃ k ∈ leaf.keys, compare k key = .eq) ∧ s.search key = some r) ∧
      ∀ above upTo, (compare above upTo).isLE → ∃ (scan : Scan K) (out : ScanResult K),
        t.scan above upTo = .ok scan ∧ scan.Yields t.arena out ∧ t.scanList above upTo = .ok out ∧
        s.scan above upTo = some out.keys := by
  obtain ⟨d, root, hin⟩ := h.inOrder
  refine ⟨_, hin.linked.snapshot_eq, fun key => hin.lawful.replay_search rfl key,
    fun above upTo hle => ?_⟩
  obtain ⟨scan, r, out, hscan, -, hyields, hlist, rfl⟩ := hin.lawful.scan_eq hle
  exact ⟨scan, _, hscan, hyields, hlist, hin.lawful.replay_scan rfl above upTo⟩

/-- Equal keys on both sides of a separator: replayed on the snapshot, a search ends to its right, and a
scan from a key below it starts to its left. -/
theorem replay_equal_keys : ∃ (t : Tree Nat .standard) (s : Snapshot Nat) (r : Search)
    (out : ScanResult Nat), ofKeys [2, 1, 2, 2, 3] = .ok t ∧ t.snapshot = .ok s ∧
      t.search 2 = .ok r ∧ s.search 2 = some r ∧ t.scanList 1 2 = .ok out ∧
      s.scan 1 2 = some out.keys ∧ out.keys = [2, 2, 2] := by
  have hrun : (ofKeys [2, 1, 2, 2, 3] : Except Fault (Tree Nat .standard)).bind (·.scanList 1 2) =
      .ok ⟨[2, 2, 2], [⟨2, by decide⟩, ⟨0, by decide⟩]⟩ := by cbv
  obtain ⟨t, ht, hlist⟩ := bind_eq_ok_iff.mp hrun
  obtain ⟨s, hs, hsearch, hscan⟩ := replay_of_reachable ⟨_, ht⟩
  obtain ⟨r, -, -, hr, -, -, -, -, -, hsr⟩ := hsearch 2
  obtain ⟨-, out, -, -, hout, hsout⟩ := hscan 1 2 (by decide)
  obtain rfl := Except.ok.inj (hlist.symm.trans hout)
  exact ⟨t, s, r, _, ht, hs, hr, hsr, hout, hsout, rfl⟩

end Tree

end TracedIndex
