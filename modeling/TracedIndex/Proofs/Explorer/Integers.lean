import TracedIndex.Proofs.Binary64.Whole
import TracedIndex.Proofs.Explorer.History
import TracedIndex.Proofs.Tree.Map

/-!
# Trees that differ in their keys only

The shape of a tree and the paths of its queries depend on how the keys compare, and on nothing else about
them. Whole numbers compare as the keys do that they are converted to, so an explorer of whole numbers is
the tree of these numbers, but for the keys.

* `Tree.Mirrors`: a tree that shows and answers what another one does, with other keys;
* `Tree.mirrors_map`: a change of keys that keeps how they compare;
* **`Explorer.mirrors_of_compare`**: trees of other keys, and explorers of whole numbers.
-/

namespace TracedIndex

variable {o : Order} {K L : Type}

/-- The tree `t'` has the snapshot of `t`, and gives its answers on the same paths, with `f k` in the place
of every key `k`. -/
structure Tree.Mirrors [Ord K] [Ord L] (f : K → L) (t : Tree K o) (t' : Tree L o) : Prop where
  root_eq : t'.root = t.root
  len_eq : t'.len = t.len
  height : ∃ n, t.height = .ok n ∧ t'.height = .ok n
  snapshot : ∃ s, t.snapshot = .ok s ∧ t'.snapshot = .ok (s.map f)
  search : ∀ key, ∃ r, t.search key = .ok r ∧ t'.search (f key) = .ok r
  scanList : ∀ above upTo, ∃ r, t.scanList above upTo = .ok r ∧
    t'.scanList (f above) (f upTo) = .ok (r.map f)

/-- **A change of keys that keeps how they compare is seen in the keys only.** -/
theorem Tree.mirrors_map [Ord K] [Std.TransOrd K] [Ord L] {f : K → L}
    (hf : ∀ x y, compare (f x) (f y) = compare x y) {t : Tree K o} (h : t.Reachable) :
    t.Mirrors f (t.map f) := by
  obtain ⟨d, root, hin⟩ := h.inOrder
  refine ⟨rfl, rfl, ⟨_, hin.height_eq, (height_map f t).trans hin.height_eq⟩,
    ⟨_, hin.linked.snapshot_eq, ?_⟩, fun key => ?_, fun above upTo => ?_⟩
  · rw [snapshot_map, hin.linked.snapshot_eq]
    rfl
  · obtain ⟨r, -, -, -, hr, -⟩ := hin.search_eq key
    exact ⟨r, hr, (search_map hf t key).trans hr⟩
  · obtain ⟨-, out, -, hout, -⟩ := hin.lawful.scanList_eq above upTo
    refine ⟨out, hout, ?_⟩
    rw [scanList_map t hf, hout]
    rfl

theorem Tree.mirrors_ofKeys [Ord K] [Std.TransOrd K] [Ord L] {f : K → L}
    (hf : ∀ x y, compare (f x) (f y) = compare x y) {keys : List K} {t : Tree K o}
    (ht : ofKeys keys = .ok t) : ∃ t' : Tree L o, ofKeys (keys.map f) = .ok t' ∧ t.Mirrors f t' := by
  refine ⟨t.map f, ?_, mirrors_map hf ⟨keys, ht⟩⟩
  rw [ofKeys_map hf, ht]
  rfl

namespace Explorer

variable {xs : List Binary64} {keys : List Key} {x y : Binary64} {k l : Key}

theorem bulkLoad_of_mapM (h : xs.mapM Key.ofBinary64 = .ok keys) (e : Explorer o) :
    e.bulkLoad xs = ((Tree.ofKeys keys).mapError .fault).map mk := by
  rw [bulkLoad, h]
  simp only [bind, Except.bind]
  cases (Tree.ofKeys keys : Except Fault (Tree Key o)) <;> rfl

theorem search_of_ofBinary64 (h : Key.ofBinary64 x = .ok k) (e : Explorer o) :
    e.search x = (e.tree.search k).mapError .fault := by
  rw [search, h]
  rfl

theorem rangeScan_of_ofBinary64 (hk : Key.ofBinary64 x = .ok k) (hl : Key.ofBinary64 y = .ok l)
    (e : Explorer o) : e.rangeScan x y = (e.tree.scanList k l).mapError .fault := by
  rw [rangeScan, hk, hl]
  rfl

theorem ofBinary64_ofInt (n : Int32) : Key.ofBinary64 (.ofInt n.toInt) = .ok (Key.ofInt32 n) := by
  rw [Key.ofBinary64, Key.ofBinary64?_ofInt]

theorem mapM_ofInt (ns : List Int32) :
    (ns.map fun n => Binary64.ofInt n.toInt).mapM Key.ofBinary64 = .ok (ns.map Key.ofInt32) := by
  induction ns with
  | nil => rfl
  | cons n ns ih =>
    rw [List.map_cons, List.mapM_cons, ofBinary64_ofInt, ih]
    rfl

/-- **Only how the keys compare decides on the shape of a tree and on its answers.** Keys that compare in the
same way grow the same tree, and run out of numbers for its nodes at the same key. So an explorer of whole
numbers shows and answers what the tree of these numbers does. -/
theorem mirrors_of_compare :
    (∀ (K L : Type) [Ord K] [Std.TransOrd K] [Ord L] (f : K → L),
      (∀ x y, compare (f x) (f y) = compare x y) → ∀ keys : List K,
        (∀ t : Tree K o, Tree.ofKeys keys = .ok t →
          ∃ t' : Tree L o, Tree.ofKeys (keys.map f) = .ok t' ∧ t.Mirrors f t') ∧
        ∀ x, (Tree.ofKeys keys : Except Fault (Tree K o)) = .error x →
          (Tree.ofKeys (keys.map f) : Except Fault (Tree L o)) = .error x) ∧
    ∀ (ns : List Int32) (e : Explorer o),
      (∀ t : Tree Int32 o, Tree.ofKeys ns = .ok t →
        ∃ e', e.bulkLoad (ns.map fun n => .ofInt n.toInt) = .ok e' ∧ e'.len = t.len ∧
          (∃ s, t.snapshot = .ok s ∧ e'.snapshot = .ok (s.map Key.ofInt32)) ∧
          (∀ n, ∃ r, t.search n = .ok r ∧ e'.search (.ofInt n.toInt) = .ok r) ∧
          ∀ above upTo, ∃ r, t.scanList above upTo = .ok r ∧
            e'.rangeScan (.ofInt above.toInt) (.ofInt upTo.toInt) = .ok (r.map Key.ofInt32)) ∧
      ∀ x, (Tree.ofKeys ns : Except Fault (Tree Int32 o)) = .error x →
        e.bulkLoad (ns.map fun n => .ofInt n.toInt) = .error (.fault x) := by
  refine ⟨fun K L _ _ _ f hf keys => ⟨fun t ht => Tree.mirrors_ofKeys hf ht, fun x hx => ?_⟩,
    fun ns e => ⟨fun t ht => ?_, fun x hx => ?_⟩⟩
  · rw [Tree.ofKeys_map hf, hx]
    rfl
  · obtain ⟨t', ht', hmirrors⟩ := Tree.mirrors_ofKeys Key.compare_ofInt32 ht
    refine ⟨⟨t'⟩, ?_, hmirrors.len_eq, ?_, fun n => ?_, fun above upTo => ?_⟩
    · rw [bulkLoad_of_mapM (mapM_ofInt ns), ht']
      rfl
    · obtain ⟨s, hs, hs'⟩ := hmirrors.snapshot
      exact ⟨s, hs, by rw [snapshot, hs']; rfl⟩
    · obtain ⟨r, hr, hr'⟩ := hmirrors.search n
      refine ⟨r, hr, ?_⟩
      rw [search_of_ofBinary64 (ofBinary64_ofInt n), hr']
      rfl
    · obtain ⟨r, hr, hr'⟩ := hmirrors.scanList above upTo
      refine ⟨r, hr, ?_⟩
      rw [rangeScan_of_ofBinary64 (ofBinary64_ofInt above) (ofBinary64_ofInt upTo), hr']
      rfl
  · rw [bulkLoad_of_mapM (mapM_ofInt ns), Tree.ofKeys_map Key.compare_ofInt32, hx]
    rfl

/-- Keys that can be told apart, but compare as their numbers do; and an explorer of whole numbers. -/
theorem mirrors_labelled_and_integers :
    (∃ (t : Tree Labelled .standard) (t' : Tree Int64 .standard),
      Tree.ofKeys [⟨2, "a"⟩, ⟨2, "b"⟩, ⟨1, "c"⟩] = .ok t ∧ Tree.ofKeys [2, 2, 1] = .ok t' ∧
      t.Mirrors Labelled.number t') ∧
    ∃ (t : Tree Int32 .standard) (e : Explorer .standard) (r : Search),
      Tree.ofKeys [3, -1, 0, 3] = .ok t ∧
      (empty : Explorer .standard).bulkLoad ([3, -1, 0, 3].map fun n : Int32 => .ofInt n.toInt) = .ok e ∧
      t.search (-1) = .ok r ∧ e.search (.ofInt (-1)) = .ok r := by
  obtain ⟨hkeys, hintegers⟩ := mirrors_of_compare (o := .standard)
  constructor
  · obtain ⟨t, ht⟩ := Tree.exists_ofKeys [(⟨2, "a"⟩ : Labelled), ⟨2, "b"⟩, ⟨1, "c"⟩] (by decide)
    obtain ⟨t', ht', hmirrors⟩ := (hkeys _ _ Labelled.number (fun _ _ => rfl) _).1 t ht
    exact ⟨t, t', ht, ht', hmirrors⟩
  · obtain ⟨t, ht⟩ := Tree.exists_ofKeys [(3 : Int32), -1, 0, 3] (by decide)
    obtain ⟨e, he, -, -, hsearch, -⟩ := (hintegers _ empty).1 t ht
    obtain ⟨r, hr, hr'⟩ := hsearch (-1)
    exact ⟨t, e, r, ht, he, hr, hr'⟩

end Explorer

end TracedIndex
