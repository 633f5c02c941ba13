import TracedIndex.Proofs.Explorer.History

/-!
# What queries to an explorer find

The tree of an explorer compares keys by their bits. Raw numbers have the signs of their zeros dropped on
the way in, whether they are to be stored or to be found, and then the bits compare as the values do. So a
query finds the stored numbers by their values.

* `Key.compare_ofBinary64`: keys of raw numbers compare as the values of the numbers;
* `Holds.search_found`, `Holds.rangeScan_keys`: what is found among the numbers that an explorer holds;
* **`Explorer.queries_of_history`**: what is found after a history.
-/

namespace TracedIndex

variable {o : Order}

/-! ## Keys of raw numbers -/

namespace Key

variable {x y : Binary64} {k l : Key}

theorem ofBinary64_eq_ok_iff : ofBinary64 x = .ok k ↔ x.isNaN = false ∧ k.number = x.positiveZero := by
  rw [← ofBinary64?_eq_some_iff, ofBinary64]
  cases ofBinary64? x <;> simp

/-- **The keys of two numbers compare as their values do.** -/
theorem compare_ofBinary64 (hk : ofBinary64 x = .ok k) (hl : ofBinary64 y = .ok l) :
    compare k l = compare x.signedUnits y.signedUnits := by
  rw [compare_eq, (ofBinary64_eq_ok_iff.mp hk).2, (ofBinary64_eq_ok_iff.mp hl).2,
    Binary64.signedUnits_positiveZero, Binary64.signedUnits_positiveZero]

theorem compare_eq_eq_iff (hk : ofBinary64 x = .ok k) (hl : ofBinary64 y = .ok l) :
    compare k l = .eq ↔ x.numericEq y := by
  rw [compare_ofBinary64 hk hl, Binary64.numericEq_eq (ofBinary64_eq_ok_iff.mp hk).1
    (ofBinary64_eq_ok_iff.mp hl).1, beq_iff_eq]

theorem isLT_compare (hk : ofBinary64 x = .ok k) (hl : ofBinary64 y = .ok l) :
    (compare k l).isLT = x.numericLt y := by
  rw [compare_ofBinary64 hk hl, Binary64.numericLt_eq (ofBinary64_eq_ok_iff.mp hk).1
    (ofBinary64_eq_ok_iff.mp hl).1]

theorem isLE_compare (hk : ofBinary64 x = .ok k) (hl : ofBinary64 y = .ok l) :
    (compare k l).isLE = x.numericLe y := by
  rw [compare_ofBinary64 hk hl, Binary64.numericLe_eq (ofBinary64_eq_ok_iff.mp hk).1
    (ofBinary64_eq_ok_iff.mp hl).1]

theorem isLE_compare_number (k l : Key) :
    (compare k l).isLE = k.number.numericLe l.number := by
  rw [compare_eq, Binary64.numericLe_eq k.not_nan l.not_nan]

end Key

section

variable {xs : List Binary64} {keys : List Key}
  (h : List.Forall₂ (fun x k => Key.ofBinary64 x = .ok k) xs keys)

include h

/-- What one of some numbers has, the key of one has. -/
theorem exists_mem_iff_of_keys {P : Binary64 → Prop} {Q : Key → Prop}
    (hPQ : ∀ x k, Key.ofBinary64 x = .ok k → (P x ↔ Q k)) : (∃ x ∈ xs, P x) ↔ ∃ k ∈ keys, Q k := by
  induction h with
  | nil => simp
  | cons hk _ ih => simp only [List.exists_mem_cons_iff, hPQ _ _ hk, ih]

/-- The numbers of the keys that are chosen out of the keys of some numbers. -/
theorem map_number_filter {p : Binary64 → Bool} {q : Key → Bool}
    (hpq : ∀ x k, Key.ofBinary64 x = .ok k → p x = q k) :
    (keys.filter q).map Key.number = (xs.filter p).map Binary64.positiveZero := by
  induction h with
  | nil => rfl
  | @cons x k xs keys hk _ ih =>
    rw [List.filter_cons, List.filter_cons, hpq x k hk]
    split
    · rw [List.map_cons, List.map_cons, ih, (Key.ofBinary64_eq_ok_iff.mp hk).2]
    · exact ih

end

/-- A call that needs some keys, and can fail for nothing else, fails if a number has none. -/
theorem Ends.eq_invalidKey_iff {α : Type} {P : α → Prop} {xs : List Binary64} {r : Except Error α}
    (h : Ends (Call.failureOf xs) 0 P r) : r = .error .invalidKey ↔ xs.any Binary64.isNaN := by
  unfold Call.failureOf at h
  split at h
  · next hx => exact iff_of_true h.eq_error hx
  · next hx =>
    obtain ⟨a, rfl, -⟩ := h.exists_ok
    exact iff_of_false nofun hx

namespace Explorer

variable {e : Explorer o} {xs : List Binary64}

namespace Holds

/-- **A point search finds a number if one of the same value is stored.** -/
theorem search_found (h : e.Holds xs) {x : Binary64} (hx : x.isNaN = false) :
    ∃ r, e.search x = .ok r ∧ r.path ≠ [] ∧ (r.found ↔ ∃ v ∈ xs, v.numericEq x) := by
  have hends := h.search_ends x
  rw [Call.failureOf_singleton, hx] at hends
  obtain ⟨r, hr, k, hk, hsearch⟩ := hends.exists_ok
  obtain ⟨keys, hkeys, ht⟩ := h
  obtain ⟨d, root, hin, hsort⟩ := Tree.inOrder_of_ofKeys ht
  obtain ⟨r', -, -, rest, hr', -, -, hfound, hpath, -⟩ := hin.search_eq k
  obtain rfl := Except.ok.inj (hsearch.symm.trans hr')
  refine ⟨r, hr, by rw [hpath]; exact List.cons_ne_nil _ _, hfound.trans ?_⟩
  simp only [hsort.perm.mem_iff]
  exact (exists_mem_iff_of_keys (Key.forall₂_of_mapM hkeys) fun v l hl =>
    (Key.compare_eq_eq_iff hl hk).symm).symm

/-- **A range scan gives the stored numbers between its bounds by their values**, in order; its path is that
of a point search for the lower bound, and empty if the bounds are the wrong way round. -/
theorem rangeScan_keys (h : e.Holds xs) {above upTo : Binary64} (ha : above.isNaN = false)
    (hu : upTo.isNaN = false) :
    ∃ out r, e.rangeScan above upTo = .ok out ∧ e.search above = .ok r ∧
      (out.keys.map Key.number).Perm
        ((xs.filter fun v => above.numericLt v && v.numericLe upTo).map Binary64.positiveZero) ∧
      (out.keys.map Key.number).Pairwise (fun x y => x.numericLe y) ∧
      (out.path = [] ↔ upTo.numericLt above) ∧ (¬ upTo.numericLt above → out.path = r.path) := by
  have hends := h.rangeScan_ends above upTo
  rw [Call.failureOf_cons, Call.failureOf_singleton, Call.failureOf_singleton, ha, hu] at hends
  obtain ⟨out, hout, k, l, hk, hl, hscan⟩ := hends.exists_ok
  obtain ⟨r, hr, hne, -⟩ := h.search_found ha
  have hsearch := h.search_ends above
  rw [Call.failureOf_singleton, ha, hr] at hsearch
  obtain ⟨r', rr, k', hk', hsearch⟩ := hsearch.exists_ok
  obtain rfl := Except.ok.inj rr
  obtain rfl := Except.ok.inj (hk.symm.trans hk')
  obtain ⟨keys, hkeys, ht⟩ := h
  obtain ⟨d, root, hin, hsort⟩ := Tree.inOrder_of_ofKeys ht
  obtain ⟨r', out', hr', hout', hbetween, hpath⟩ := hin.lawful.scanList_eq k l
  obtain rfl := Except.ok.inj (hscan.symm.trans hout')
  obtain rfl := Except.ok.inj (hsearch.symm.trans hr')
  have hgt : (compare k l).isGT = upTo.numericLt above := by
    rw [← Key.isLT_compare hl hk, Std.OrientedOrd.eq_swap (a := l), Ordering.isLT_swap]
  rw [hgt] at hpath
  refine ⟨out, r, hout, hr, ?_, ?_, by simp [hpath, hne], fun hle => hpath.trans (if_neg hle)⟩
  · rw [← map_number_filter (q := fun x => (compare k x).isLT && (compare x l).isLE)
      (Key.forall₂_of_mapM hkeys) fun v x hx => by rw [Key.isLT_compare hk hx, Key.isLE_compare hx hl],
      hbetween]
    exact (hsort.perm.filter _).map _
  · rw [hbetween]
    refine List.pairwise_map.mpr ((hin.sorted.filter _).imp fun hxy => ?_)
    rwa [← Key.isLE_compare_number]

end Holds

/-- The explorer behind a history holds what the history stores. -/
theorem holds_of_run {calls : List Call} {rs : List (Except Error Reply)}
    (h : (empty : Explorer o).run calls = .ok (rs, e)) : e.Holds (stored calls) := by
  rcases holds_empty.run_spec (o := o) calls with ⟨rs', e', hrun, hholds, -⟩ | ⟨hrun, -⟩
  · obtain ⟨rfl, rfl⟩ := Prod.mk.inj (Except.ok.inj (h.symm.trans hrun))
    exact hholds
  · rw [hrun] at h
    cases h

/-- **Behind every history, queries find the stored numbers by their values**, so that the two zeros find
each other and an infinity is a number like the others. A search fails for NaN, and otherwise finds a
number if one of the same value is stored. A range scan fails if one of its bounds is NaN, and otherwise
gives the stored numbers above the one bound and up to the other, each as often as it is stored, in
ascending order and with positive zeros; its path is that of a search for the lower bound, but empty if
the bounds are the wrong way round. -/
theorem queries_of_history {calls : List Call} {rs : List (Except Error Reply)}
    (h : (empty : Explorer o).run calls = .ok (rs, e)) :
    (∀ x, (e.search x = .error .invalidKey ↔ x.isNaN) ∧
      (x.isNaN = false →
        ∃ r, e.search x = .ok r ∧ (r.found ↔ ∃ v ∈ stored calls, v.numericEq x))) ∧
    ∀ above upTo, (e.rangeScan above upTo = .error .invalidKey ↔ above.isNaN ∨ upTo.isNaN) ∧
      (above.isNaN = false → upTo.isNaN = false →
        ∃ out r, e.rangeScan above upTo = .ok out ∧ e.search above = .ok r ∧
          (out.keys.map Key.number).Perm (((stored calls).filter fun v =>
            above.numericLt v && v.numericLe upTo).map Binary64.positiveZero) ∧
          (out.keys.map Key.number).Pairwise (fun x y => x.numericLe y) ∧
          (out.path = [] ↔ upTo.numericLt above) ∧ (¬ upTo.numericLt above → out.path = r.path)) := by
  have hholds := holds_of_run h
  refine ⟨fun x => ⟨?_, fun hx => ?_⟩, fun above upTo => ⟨?_, hholds.rangeScan_keys⟩⟩
  · rw [(hholds.search_ends x).eq_invalidKey_iff, List.any_cons, List.any_nil, Bool.or_false]
  · obtain ⟨r, hr, -, hfound⟩ := hholds.search_found hx
    exact ⟨r, hr, hfound⟩
  · rw [(hholds.rangeScan_ends above upTo).eq_invalidKey_iff, List.any_cons, List.any_cons, List.any_nil,
      Bool.or_false, Bool.or_eq_true]

/-- Both zeros and both infinities: negative zero finds zero, and a scan from below zero up to infinity
gives the zeros, positive, and infinity. -/
theorem queries_of_zeros_and_infinities : ∃ (rs : List (Except Error Reply)) (e : Explorer .standard),
    (empty : Explorer .standard).run [.bulkLoad [.negativeZero, .infinity, .negativeInfinity],
      .insert .zero] = .ok (rs, e) ∧
    (∃ r, e.search .negativeZero = .ok r ∧ r.found) ∧
    (∃ out, e.rangeScan .negativeInfinity .infinity = .ok out ∧
      (out.keys.map Key.number).Perm [.zero, .infinity, .zero]) ∧
    e.rangeScan .infinity .nan = .error .invalidKey := by
  have hrun : ((empty : Explorer .standard).run [.bulkLoad [.negativeZero, .infinity,
      .negativeInfinity], .insert .zero]).toOption.isSome := by decide +kernel
  rcases hx : (empty : Explorer .standard).run [.bulkLoad [.negativeZero, .infinity,
      .negativeInfinity], .insert .zero] with _ | ⟨rs, e⟩
  · rw [hx] at hrun
    cases hrun
  obtain ⟨hsearch, hscan⟩ := queries_of_history hx
  obtain ⟨r, hr, hfound⟩ := (hsearch .negativeZero).2 (by decide)
  obtain ⟨out, -, hout, -, hkeys, -⟩ :=
    (hscan .negativeInfinity .infinity).2 (by decide) (by decide)
  refine ⟨rs, e, rfl, ⟨r, hr, hfound.mpr ⟨.zero, by decide, by decide⟩⟩, ⟨out, hout, ?_⟩,
    (hscan .infinity .nan).1.mpr (.inr (by decide))⟩
  exact hkeys.trans (.of_eq (by decide +kernel))

end Explorer

end TracedIndex
