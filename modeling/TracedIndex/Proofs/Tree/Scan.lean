import Mathlib.Data.List.Permutation
import TracedIndex.Proofs.Tree.Iteration
import TracedIndex.Proofs.Tree.Search

/-!
# Range scans

A scan starts in the leaf that its lower bound belongs to, which need not be the leaf of the first key
that it takes. It misses none: the keys before that leaf are up to the bound. It stops at the first key
beyond its upper bound, and since keys are sorted there is none to take behind it.

* `Verdict.taken_ofBounds`: what a scan takes out of sorted keys;
* `Scan.nextTimes_succ`, `Scan.Yields`: what a scan gives, call by call;
* `Lawful.scanList_eq`: what a scan lists, whichever way round its bounds are;
* **`scan_of_reachable`**: a scan gives the keys between its bounds, and its path is that of a search
  for the lower one.
-/

namespace TracedIndex

variable {K : Type} [Ord K]

/-- **Out of sorted keys, a scan takes those between its bounds.** -/
theorem Verdict.taken_ofBounds [Std.TransOrd K] {ks : List K} (hs : Sorted ks) (above upTo : K) :
    taken (ofBounds above upTo) ks =
      ks.filter fun k => (compare above k).isLT && (compare k upTo).isLE := by
  induction ks with
  | nil => rfl
  | cons k ks ih =>
    have hks := ih hs.of_cons
    rw [taken, ofBounds, ← Ordering.not_isLE_eq_isGT]
    by_cases hle : (compare k upTo).isLE
    · have hgt : (compare k above).isGT = (compare above k).isLT := by
        rw [Std.OrientedOrd.eq_swap (a := above), Ordering.isLT_swap]
      rw [hle, hgt, List.filter_cons, hle, Bool.and_true, ← hks]
      cases (compare above k).isLT <;> rfl
    · -- the keys behind one beyond the upper bound are beyond it as well
      have hbeyond : ∀ x ∈ k :: ks, ¬ (compare x upTo).isLE := fun x hx hx' =>
        hle (Std.TransOrd.isLE_trans (hs.isLE_of_mem_cons hx) hx')
      rw [if_pos (by simpa using hle)]
      refine (List.filter_eq_nil_iff.mpr fun x hx h => hbeyond x hx ?_).symm
      exact ((Bool.and_eq_true _ _).mp h).2

/-! ## Call by call -/

namespace Scan

variable {a : Arena K} {s : Scan K}

/-- Several calls of `next` are one call after another. -/
theorem nextTimes_succ (a : Arena K) (s : Scan K) (n : Nat) :
    s.nextTimes a (n + 1) = (do
      let (k, s) ← s.next a
      let (ks, s) ← s.nextTimes a n
      pure (k :: ks, s)) := by
  simp only [nextTimes, next, Cursor.nextTimes, bind_assoc, pure_bind]
  rfl

/-- Calls of `next` give the keys of `out` one after another, and then nothing for ever; before,
between and behind them the path is that of `out`. -/
def Yields (a : Arena K) (s : Scan K) (out : ScanResult K) : Prop :=
  ∀ n, ∃ s', s.nextTimes a n = .ok ((List.range n).map fun i => out.keys[i]?, s') ∧
    s'.path = out.path

theorem yields_of_faces {ks : List K} (h : s.cursor.Faces a ks) :
    s.Yields a ⟨Verdict.taken s.judge ks, s.path⟩ := by
  intro n
  obtain ⟨c, hc⟩ := h.nextTimes s.judge n
  refine ⟨{ s with cursor := c }, ?_, rfl⟩
  rw [nextTimes, hc]
  rfl

end Scan

/-! ## Scans of a tree -/

namespace Tree

variable [Std.TransOrd K] {o : Order} {t : Tree K o} {d : Nat} {root : Subtree K}

/-- The keys before the leaf that a descent for `above` ends in are up to `above`, so that none of them is
between the bounds. -/
theorem Lawful.filter_keysIn_eq {fs : Trail K} {above : K} {id : NodeId} {keys : List K}
    {next : Option NodeId} (h : t.Lawful d (fs.plug (.leaf id keys next)))
    (hfs : ∀ f ∈ fs, f.Follows (rankOf above)) (upTo : K) :
    (fs.plug (.leaf id keys next)).keysIn.filter
        (fun k => (compare above k).isLT && (compare k upTo).isLE) =
      (Subtree.keysOf (.leaf id keys next :: fs.leavesAfter)).filter
        fun k => (compare above k).isLT && (compare k upTo).isLE := by
  have hbefore : (Subtree.keysOf fs.leavesBefore).filter
      (fun k => (compare above k).isLT && (compare k upTo).isLE) = [] := by
    refine List.filter_eq_nil_iff.mpr fun k hk hbetween => ?_
    have hka := h.bounded.isLE_of_mem_leavesBefore hfs k hk
    have hak := ((Bool.and_eq_true _ _).mp hbetween).1
    rw [Std.OrientedOrd.eq_swap, Ordering.isLT_swap, ← Ordering.not_isLE_eq_isGT, hka] at hak
    cases hak
  rw [Subtree.keysIn, fs.leavesIn_plug_leaf, Subtree.keysOf_append, List.filter_append, hbefore,
    List.nil_append]

/-- A scan of a lawful tree faces the keys from the leaf of its lower bound on, and out of these it
takes all keys of the tree between its bounds. -/
theorem Lawful.scan_faces (h : t.Lawful d root) {above upTo : K} (hle : (compare above upTo).isLE) :
    ∃ (s : Scan K) (r : Search) (ks : List K), t.scan above upTo = .ok s ∧ t.search above = .ok r ∧
      s.path = r.path ∧ s.cursor.Faces t.arena ks ∧ ks.length ≤ root.keysIn.length ∧
      Verdict.taken s.judge ks =
        root.keysIn.filter fun k => (compare above k).isLT && (compare k upTo).isLE := by
  obtain ⟨fs, id, keys, next, rfl, -, hfs, hw⟩ := h.findLeaf above
  have hleaf := Arena.leaf_eq_ok_iff.mpr h.stores.leaf_eq
  have hsplit := fs.leavesIn_plug_leaf id keys next
  set faced := Subtree.keysOf (.leaf id keys next :: fs.leavesAfter) with hfaced
  have hkeys : (fs.plug (.leaf id keys next)).keysIn = Subtree.keysOf fs.leavesBefore ++ faced := by
    rw [Subtree.keysIn, hsplit, Subtree.keysOf_append]
  have hs : Sorted faced := by
    have := h.sorted
    rw [hkeys] at this
    exact (List.pairwise_append.mp this).2.1
  refine ⟨⟨above, upTo, (fs.map Frame.id).reverse ++ [id], .within id 0⟩, _, faced, ?_,
    search_of_findLeaf hw hleaf, rfl, h.faces_leaf hsplit, ?_, ?_⟩
  · rw [scan, ← Ordering.not_isLE_eq_isGT, hle, hw]
    rfl
  · rw [hkeys, List.length_append]
    exact Nat.le_add_left _ _
  · rw [h.filter_keysIn_eq hfs]
    exact Verdict.taken_ofBounds hs above upTo

theorem InOrder.scan_faces (h : t.InOrder d root) {above upTo : K}
    (hle : (compare above upTo).isLE) :
    ∃ (s : Scan K) (r : Search) (ks : List K), t.scan above upTo = .ok s ∧ t.search above = .ok r ∧
      s.path = r.path ∧ s.cursor.Faces t.arena ks ∧ ks.length ≤ root.keysIn.length ∧
      Verdict.taken s.judge ks =
        root.keysIn.filter fun k => (compare above k).isLT && (compare k upTo).isLE :=
  h.lawful.scan_faces hle

omit [Std.TransOrd K] in
theorem scanList_of_faces {s : Scan K} {above upTo : K} {ks : List K}
    (hs : t.scan above upTo = .ok s) (h : s.cursor.Faces t.arena ks)
    (hlen : ks.length ≤ (t.arena.nodes.toList.flatMap Node.keys).length) :
    t.scanList above upTo = .ok ⟨Verdict.taken s.judge ks, s.path⟩ := by
  obtain ⟨c, hc⟩ := h.rest hlen s.judge
  rw [scanList, hs]
  simp only [bind, Except.bind, Scan.rest, hc]
  rfl

/-- What a scan of a lawful tree gives, call by call and as a list. -/
theorem Lawful.scan_eq (h : t.Lawful d root) {above upTo : K} (hle : (compare above upTo).isLE) :
    ∃ (s : Scan K) (r : Search) (out : ScanResult K), t.scan above upTo = .ok s ∧
      t.search above = .ok r ∧ s.Yields t.arena out ∧ t.scanList above upTo = .ok out ∧
      out = ⟨root.keysIn.filter fun k => (compare above k).isLT && (compare k upTo).isLE, r.path⟩ := by
  obtain ⟨s, r, faced, hs, hr, hpath, hfaces, hlen, htaken⟩ := h.scan_faces hle
  refine ⟨s, r, ⟨Verdict.taken s.judge faced, s.path⟩, hs, hr, Scan.yields_of_faces hfaces, ?_, ?_⟩
  · exact scanList_of_faces hs hfaces (hlen.trans h.stores.length_keysIn_le)
  · rw [htaken, hpath]

omit [Std.TransOrd K] in
/-- A scan with its bounds the wrong way round takes nothing and visits nothing. -/
theorem scanList_of_isGT {above upTo : K} (hgt : (compare above upTo).isGT) :
    t.scanList above upTo = .ok ⟨[], []⟩ := by
  have hs : t.scan above upTo = .ok ⟨above, upTo, [], .over⟩ := by
    rw [scan, if_pos hgt]
    rfl
  exact scanList_of_faces hs (.ended (a := t.arena)) (Nat.zero_le _)

/-- What a scan of a lawful tree lists, whichever way round its bounds are. -/
theorem Lawful.scanList_eq (h : t.Lawful d root) (above upTo : K) :
    ∃ (r : Search) (out : ScanResult K), t.search above = .ok r ∧ t.scanList above upTo = .ok out ∧
      out.keys = root.keysIn.filter (fun k => (compare above k).isLT && (compare k upTo).isLE) ∧
      out.path = if (compare above upTo).isGT then [] else r.path := by
  by_cases hle : (compare above upTo).isLE
  · obtain ⟨-, r, out, -, hr, -, hout, rfl⟩ := h.scan_eq hle
    exact ⟨r, _, hr, hout, rfl, by rw [← Ordering.not_isLE_eq_isGT, hle]; rfl⟩
  · have hgt : (compare above upTo).isGT := by rw [← Ordering.not_isLE_eq_isGT]; simpa using hle
    obtain ⟨-, -, -, -, r, -, -, -, hr, -⟩ := h.search_eq above
    refine ⟨r, _, hr, scanList_of_isGT hgt, (List.filter_eq_nil_iff.mpr fun k _ hk => hle ?_).symm,
      (if_pos hgt).symm⟩
    obtain ⟨hlt, hle⟩ := Bool.and_eq_true_iff.mp hk
    exact Std.TransOrd.isLE_trans (Ordering.isLE_of_eq_lt (Ordering.isLT_iff_eq_lt.mp hlt)) hle

/-- **A scan gives the keys between its bounds**, the lower one excluded and the upper one included, as
an iteration gives them, and then nothing for ever; its path is at any time that of a search for the
lower bound. With the bounds the wrong way round it gives nothing, and its path is empty. -/
theorem scan_of_reachable (h : t.Reachable) (above upTo : K) :
    ∃ (s : Scan K) (r : Search) (ks : List K) (out : ScanResult K), t.scan above upTo = .ok s ∧
      t.search above = .ok r ∧ t.Yields ks ∧ s.Yields t.arena out ∧
      t.scanList above upTo = .ok out ∧
      ((compare above upTo).isLE →
        out = ⟨ks.filter fun k => (compare above k).isLT && (compare k upTo).isLE, r.path⟩) ∧
      ((compare above upTo).isGT → out = ⟨[], []⟩) := by
  obtain ⟨d, root, hin⟩ := h.inOrder
  by_cases hle : (compare above upTo).isLE
  · obtain ⟨s, r, faced, hs, hr, hpath, hfaces, hlen, htaken⟩ := hin.scan_faces hle
    have hyields := Scan.yields_of_faces hfaces
    have hlist := scanList_of_faces hs hfaces (hlen.trans hin.stores.length_keysIn_le)
    rw [htaken, hpath] at hyields hlist
    refine ⟨s, r, root.keysIn, _, hs, hr, hin.yields, hyields, hlist, fun _ => rfl, fun hgt => ?_⟩
    rw [← Ordering.not_isLE_eq_isGT, hle] at hgt
    cases hgt
  · have hgt : (compare above upTo).isGT := by rw [← Ordering.not_isLE_eq_isGT]; simpa using hle
    obtain ⟨r, -, -, -, hr, -⟩ := hin.search_eq above
    have hs : t.scan above upTo = .ok ⟨above, upTo, [], .over⟩ := by
      rw [scan, if_pos hgt]
      rfl
    have hfaces : Cursor.over.Faces t.arena ([] : List K) := .ended
    refine ⟨_, r, root.keysIn, _, hs, hr, hin.yields, Scan.yields_of_faces hfaces,
      scanList_of_faces hs hfaces (Nat.zero_le _), fun hle' => absurd hle' hle, fun _ => rfl⟩

/-- Equal keys in three leaves, in the order in which they went in; the scan starts in front of a key
that it skips. -/
theorem scan_equal_keys : ∃ (t : Tree Labelled .standard) (s : Scan Labelled),
    ofKeys [⟨2, "a"⟩, ⟨1, "b"⟩, ⟨2, "c"⟩, ⟨2, "d"⟩, ⟨3, "e"⟩, ⟨2, "f"⟩] = .ok t ∧
      t.scan ⟨1, "above"⟩ ⟨2, "upTo"⟩ = .ok s ∧
      s.Yields t.arena ⟨[⟨2, "a"⟩, ⟨2, "c"⟩, ⟨2, "d"⟩, ⟨2, "f"⟩],
        [⟨6, by decide⟩, ⟨2, by decide⟩, ⟨0, by decide⟩]⟩ := by
  have hlist : (ofKeys [⟨2, "a"⟩, ⟨1, "b"⟩, ⟨2, "c"⟩, ⟨2, "d"⟩, ⟨3, "e"⟩, ⟨2, "f"⟩] :
      Except Fault (Tree Labelled .standard)).bind (·.scanList ⟨1, "above"⟩ ⟨2, "upTo"⟩) =
        .ok ⟨[⟨2, "a"⟩, ⟨2, "c"⟩, ⟨2, "d"⟩, ⟨2, "f"⟩],
          [⟨6, by decide⟩, ⟨2, by decide⟩, ⟨0, by decide⟩]⟩ := by cbv
  obtain ⟨t, ht, hlist⟩ := bind_eq_ok_iff.mp hlist
  obtain ⟨s, -, -, out, hs, -, -, hyields, hout, -⟩ :=
    scan_of_reachable ⟨_, ht⟩ ⟨1, "above"⟩ ⟨2, "upTo"⟩
  obtain rfl := Except.ok.inj (hlist.symm.trans hout)
  exact ⟨t, s, ht, hs, hyields⟩

end Tree

end TracedIndex
