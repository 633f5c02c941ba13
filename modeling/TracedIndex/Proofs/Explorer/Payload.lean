import TracedIndex.Proofs.Explorer.Text
import TracedIndex.Proofs.IndexData.Text
import TracedIndex.Proofs.Json.Results

/-!
# Loading what a text gives

There are JSON numbers for finite numbers only, and all of these have keys. So each list of index data that
were read from a text can be loaded, whatever the text and whatever the explorer held before, and the
snapshot of the tree that arises can be written and read back.

* `IndexData.finite_of_parse`: the numbers of a text are finite;
* `Holds.len_eq`, `Holds.search_mem`, `Holds.snapshot_finite`: an explorer that holds some numbers;
* **`loadIndex_of_parse`**: what comes of loading a list of a text.
-/

namespace TracedIndex

open Json

/-! ## Texts -/

namespace IndexData

theorem finite_empty : empty.Finite := fun _ he => absurd he List.not_mem_nil

theorem finite_insert {d : IndexData} (h : d.Finite) (name : String) {xs : List Binary64}
    (hxs : ∀ x ∈ xs, x.isFinite) : (d.insert name xs).Finite := by
  intro e he
  rcases mem_insertEntry he with rfl | he
  · exact hxs
  · exact h e he

theorem readList_ensures : readList.Ensures fun xs => ∀ x ∈ xs, x.isFinite :=
  readArrayOf_ensures (readAs_ensures fun _ _ hs hx => hs.of_toBinary64? hx)

theorem readEntry_ensures (name : String) {d : IndexData} (h : d.Finite) :
    (readEntry name d).Ensures Finite := by
  intro fuel text d' rest hd
  obtain ⟨⟨xs, t⟩, hxs, hd⟩ := bind_eq_ok_iff.mp hd
  obtain ⟨rfl, -⟩ := Prod.mk.inj (Except.ok.inj hd)
  exact finite_insert h name (readList_ensures.afterColon _ _ _ _ hxs)

theorem read_ensures : IndexData.read.Ensures Finite := by
  intro fuel text d rest hd
  unfold IndexData.read at hd
  split at hd
  · exact readObject_ensures finite_empty (fun name d h => readEntry_ensures name h) _ _ _ _ hd
  · exact readOther_ensures (P := Finite) _ _ _ _ hd

/-- **All numbers that come from a text are finite.** -/
theorem finite_of_parse {text : String} {d : IndexData} (h : parse text = .ok d) : d.Finite :=
  read_ensures.of_parse h

theorem Finite.of_keys? {d : IndexData} (h : d.Finite) {name : String} {xs : List Binary64}
    (hxs : d.keys? name = some xs) : ∀ x ∈ xs, x.isFinite := by
  obtain ⟨front, back, hentries, -⟩ := List.lookup_eq_some_iff.mp hxs
  exact h (name, xs) (hentries ▸ List.mem_append_right _ List.mem_cons_self)

end IndexData

namespace Explorer

variable {o : Order} {e : Explorer o} {xs : List Binary64}

/-! ## Finite numbers -/

/-- A load of finite numbers does not fail. -/
theorem failureOf_of_isFinite (h : ∀ x ∈ xs, x.isFinite) : Call.failureOf xs = none := by
  refine if_neg fun hany => ?_
  obtain ⟨x, hx, hnan⟩ := List.any_eq_true.mp hany
  rw [Binary64.isNaN_of_isFinite (h x hx)] at hnan
  cases hnan

namespace Holds

theorem len_eq (h : e.Holds xs) : e.len = xs.length := by
  obtain ⟨d, root, hin, hkeyed⟩ := h.exists_root
  have hlength := hkeyed.perm.length_eq
  rw [List.length_map, List.length_map] at hlength
  exact hin.len_eq.trans hlength

theorem search_mem (h : e.Holds xs) {x : Binary64} (hx : x ∈ xs) (hfinite : x.isFinite) :
    ∃ r, e.search x = .ok r ∧ r.found := by
  have hnan := Binary64.isNaN_of_isFinite hfinite
  obtain ⟨r, hr, -, hfound⟩ := h.search_found hnan
  exact ⟨r, hr, hfound.mpr ⟨x, hx, Binary64.numericEq_self hnan⟩⟩

/-- The snapshot of finite numbers has finite keys, those that separate its leaves among them, and is read
back from its text. -/
theorem snapshot_finite (h : e.Holds xs) (hfinite : ∀ x ∈ xs, x.isFinite) :
    ∃ s, e.snapshot = .ok s ∧ (s.root.All fun k => k.number.isFinite) ∧
      (o.size < UInt64.size → xs.length < UInt64.size →
        Number.AllReadBack (xs.map Binary64.positiveZero) → Snapshot.parse s.write = .ok s) := by
  have hinfinite : ∀ x ∈ xs, ¬ x.isInfinite := fun x hx =>
    (Binary64.isFinite_iff_not_isInfinite (Binary64.isNaN_of_isFinite (hfinite x hx))).mp (hfinite x hx)
  obtain ⟨d, root, hin, hkeyed⟩ := h.exists_root
  have hs : e.snapshot = .ok ⟨o.size, d + 1, root.keysIn.length, root⟩ := by
    rw [snapshot, hin.snapshot_eq]
    rfl
  refine ⟨_, hs, hin.regular.all (hkeyed.isFinite hinfinite), fun ho hxs hexact => ?_⟩
  obtain ⟨s, hs', -, -, hread, -⟩ := h.snapshot_text (h.sized ho hxs)
  obtain rfl := Except.ok.inj (hs.symm.trans hs')
  exact (hread hexact).1.mpr hinfinite

end Holds

/-- **Whatever a text of index data is, its lists can be loaded**, into any explorer, and no other name can.
A load never fails for a number that has no key; only a list of more than `2 ^ 31` numbers may end it, for
want of a number for a node. The explorer then has as many numbers as the list and finds each of them, and
its snapshot, which holds finite keys only, is read back from its text. -/
theorem loadIndex_of_parse {text : String} {d : IndexData} (h : IndexData.parse text = .ok d)
    (e : Explorer o) (name : String) :
    (name ∉ d.names → e.loadIndex d name = .error (.unknownIndex name)) ∧
    e.loadIndex d name ≠ .error .invalidKey ∧
    (name ∈ d.names → ∃ xs, d.keys name = .ok xs ∧
      ((∃ e', e.loadIndex d name = .ok e' ∧ e'.len = xs.length ∧
          (∀ x ∈ xs, ∃ r, e'.search x = .ok r ∧ r.found) ∧
          ∃ s, e'.snapshot = .ok s ∧ (s.root.All fun k => k.number.isFinite) ∧
            (o.size < UInt64.size → xs.length < UInt64.size →
              Number.AllReadBack (xs.map Binary64.positiveZero) → Snapshot.parse s.write = .ok s)) ∨
        (e.loadIndex d name = .error (.fault .exhausted) ∧ 2 ^ 31 < xs.length))) := by
  have hends := loadIndex_ends e d name
  rw [IndexData.mem_names_iff, IndexData.keys]
  cases hkeys : d.keys? name with
  | none =>
    rw [Call.failure?, hkeys] at hends
    rw [hends.eq_error]
    exact ⟨fun _ => rfl, by rintro ⟨⟩, by rintro ⟨⟩⟩
  | some xs =>
    have hfinite := (IndexData.finite_of_parse h).of_keys? hkeys
    simp only [Call.failure?, hkeys, failureOf_of_isFinite hfinite, Option.getD_some] at hends
    refine ⟨fun hnone => absurd rfl hnone, ?_⟩
    generalize e.loadIndex d name = r at hends
    cases hends with
    | failed eq => cases eq
    | @done e' _ hholds =>
      exact ⟨by rintro ⟨⟩, fun _ => ⟨xs, rfl, .inl ⟨e', rfl, hholds.len_eq,
        fun x hx => hholds.search_mem hx (hfinite x hx), hholds.snapshot_finite hfinite⟩⟩⟩
    | exhausted _ many => exact ⟨by rintro ⟨⟩, fun _ => ⟨xs, rfl, .inr ⟨rfl, many⟩⟩⟩

/-- Lists with a negative zero and with none, loaded in place of what the explorer held. -/
theorem loadIndex_of_parse_zeros : ∃ (d : IndexData) (e e' : Explorer .standard) (s : Snapshot Key),
    IndexData.parse "\x7b\"a\": [1, -0.0, 1e0], \"b\": []\x7d" = .ok d ∧
    (empty : Explorer .standard).insert .infinity = .ok e ∧
    e.loadIndex d "a" = .ok e' ∧ e'.len = 3 ∧ (∃ r, e'.search .negativeZero = .ok r ∧ r.found) ∧
    e'.snapshot = .ok s ∧ Snapshot.parse s.write = .ok s ∧
    e.loadIndex d "c" = .error (.unknownIndex "c") := by
  obtain ⟨d, hd, hentries⟩ := exists_ok_of_any
    (x := IndexData.parse "\x7b\"a\": [1, -0.0, 1e0], \"b\": []\x7d")
    (p := fun d => d.entries = [("a", [.ofInt 1, .negativeZero, .ofInt 1]), ("b", [])]) (by decide +kernel)
  rw [decide_eq_true_eq] at hentries
  obtain ⟨e, he, -⟩ := exists_ok_of_any (p := fun _ => true)
    (x := (empty : Explorer .standard).insert .infinity) (by decide +kernel)
  have hlist : d.keys "a" = .ok [.ofInt 1, .negativeZero, .ofInt 1] := by
    rw [IndexData.keys, IndexData.keys?, hentries]
    rfl
  obtain ⟨xs, hxs, hload⟩ := (loadIndex_of_parse hd e "a").2.2 (by rw [IndexData.names, hentries]; decide)
  obtain rfl := Except.ok.inj (hlist.symm.trans hxs)
  rcases hload with ⟨e', he', hlen, hfound, s, hs, -, hread⟩ | ⟨-, hmany⟩
  · exact ⟨d, e, e', s, hd, he, he', hlen, hfound _ (by simp), hs,
      hread (by decide) (by decide) (by decide +kernel),
      (loadIndex_of_parse hd e "c").1 (by rw [IndexData.names, hentries]; decide)⟩
  · exact absurd hmany (by decide)

end Explorer

end TracedIndex
