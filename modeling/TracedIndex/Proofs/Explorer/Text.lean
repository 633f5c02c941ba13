import TracedIndex.Proofs.Explorer.Queries
import TracedIndex.Proofs.Json.Near
import TracedIndex.Proofs.Tree.Text

/-!
# The text of what an explorer holds

The snapshot of an explorer is read back from its text unless an infinity is stored. An infinity is written
as `null` wherever it stands, and since every separator is a key of some leaf, there is always a leaf that
cannot be read.

* `Keyed`: the keys of some numbers; `Keyed.readsBack`, `Keyed.exists_infinite`: what is so of their texts;
* `Holds.exists_root`: the keys of the tree of an explorer are those of the numbers that it holds;
* **`Holds.snapshot_text`**: the text of the snapshot of an explorer;
* **`snapshot_texts`**: the texts of the snapshots of trees and explorers.
-/

namespace TracedIndex

open Json

variable {o : Order}

/-! ## Keys of numbers -/

/-- The keys are those of the numbers, in some order. -/
structure Keyed (xs : List Binary64) (ks : List Key) : Prop where
  not_nan : ∀ x ∈ xs, x.isNaN = false
  perm : (ks.map Key.number).Perm (xs.map Binary64.positiveZero)

namespace Keyed

variable {xs : List Binary64} {ks : List Key}

theorem isFinite (h : Keyed xs ks) (hfinite : ∀ x ∈ xs, ¬ x.isInfinite) :
    ∀ k ∈ ks, k.number.isFinite := by
  intro k hk
  obtain ⟨x, hx, hxk⟩ := List.mem_map.mp (h.perm.mem_iff.mp (List.mem_map_of_mem hk))
  rw [← hxk, Binary64.isFinite_positiveZero]
  exact (Binary64.isFinite_iff_not_isInfinite (h.not_nan x hx)).mpr (hfinite x hx)

theorem readsBack (h : Keyed xs ks) (hexact : Number.AllReadBack (xs.map Binary64.positiveZero)) :
    ∀ k ∈ ks, k.number.isFinite → Number.ReadsBack k.number := fun k hk =>
  hexact k.number (h.perm.mem_iff.mp (List.mem_map_of_mem hk))

/-- An infinity is a key as it is, and lost in a text. -/
theorem exists_infinite (h : Keyed xs ks) {x : Binary64} (hx : x ∈ xs) (hinf : x.isInfinite) :
    ∃ k ∈ ks, k.number = x ∧ ¬ k.number.isFinite := by
  obtain ⟨k, hk, hkx⟩ := List.mem_map.mp (h.perm.mem_iff.mpr (List.mem_map_of_mem hx))
  have hfinite : ¬ x.isFinite := fun hfinite =>
    (Binary64.isFinite_iff_not_isInfinite (h.not_nan x hx)).mp hfinite hinf
  have hzero : x.positiveZero = x := if_neg fun hz => hfinite (Binary64.isFinite_of_isZero hz)
  exact ⟨k, hk, hkx.trans hzero, hkx.trans hzero ▸ hfinite⟩

end Keyed

namespace Explorer

variable {e : Explorer o} {xs : List Binary64}

/-! ## Explorers -/

namespace Holds

/-- **The keys of the tree of an explorer are those of the numbers that it holds.** -/
theorem exists_root (h : e.Holds xs) : ∃ d root, e.tree.InOrder d root ∧ Keyed xs root.keysIn := by
  obtain ⟨keys, hkeys, ht⟩ := h
  obtain ⟨d, root, hin, hsort⟩ := Tree.inOrder_of_ofKeys ht
  have hall := Key.forall₂_of_mapM hkeys
  have hmap : keys.map Key.number = xs.map Binary64.positiveZero := by
    simpa using map_number_filter (p := fun _ => true) (q := fun _ => true) hall fun _ _ _ => rfl
  have hnan : ¬ ∃ x ∈ xs, x.isNaN := by
    rw [exists_mem_iff_of_keys (Q := fun _ => False) hall fun x k hk => by
      simp [(Key.ofBinary64_eq_ok_iff.mp hk).1]]
    simp
  exact ⟨d, root, hin, fun x hx => Bool.eq_false_iff.mpr fun hx' => hnan ⟨x, hx, hx'⟩,
    hmap ▸ hsort.perm.map Key.number⟩

theorem sized (h : e.Holds xs) (ho : o.size < UInt64.size) (hxs : xs.length < UInt64.size) :
    e.tree.Sized := by
  obtain ⟨keys, hkeys, ht⟩ := h
  exact Tree.sized_of_ofKeys ht ho ((Key.forall₂_of_mapM hkeys).length_eq ▸ hxs)

/-- **The text of the snapshot of an explorer** is JSON with `null` in place of the infinities that it holds. If there
are none, it is read back as far as the numbers are; if there are, it is of another kind. -/
theorem snapshot_text (h : e.Holds xs) (ht : e.tree.Sized) :
    ∃ s, e.snapshot = .ok s ∧ s.Shallow ∧ s.toValue.shown.write = s.write.toList ∧
      (Number.AllReadBack (xs.map Binary64.positiveZero) →
        (Snapshot.parse s.write = .ok s ↔ ∀ x ∈ xs, ¬ x.isInfinite) ∧
        s.toValue.shown.Spelled s.write.toList) ∧
      ∀ x ∈ xs, x.isInfinite →
        (∃ k ∈ s.root.keysIn, k.number = x ∧ (KeyFormat.toValue k).shown = .scalar .null) ∧
        (Snapshot.parse s.write : Except Defect (Snapshot Key)) = .error .mismatched := by
  obtain ⟨d, root, hin, hkeyed⟩ := h.exists_root
  obtain ⟨s, hs, rfl, hsized, hlevels, hheight⟩ := hin.exists_snapshot ht
  -- whatever the finite keys are read as
  have hlegible : s.root.All (KeyFormat.Legible Number.reread) := hin.regular.all fun k _ =>
    KeyFormat.legible_key Number.readsAs_reread
  have hdepth : (s.toValue.shownAs Number.reread).depth = 2 * s.root.levels + 1 :=
    (Value.depth_shownAs _).trans s.depth_toValue
  have hlost : ∀ x ∈ xs, x.isInfinite →
      (∃ k ∈ s.root.keysIn, k.number = x ∧ (KeyFormat.toValue k).shown = .scalar .null) ∧
      (Snapshot.parse s.write : Except Defect (Snapshot Key)) = .error .mismatched := by
    intro x hx hinf
    obtain ⟨k, hk, hkx, hfinite⟩ := hkeyed.exists_infinite hx hinf
    exact ⟨⟨k, hk, hkx, congrArg Value.scalar (Scalar.shownAs_of_not_isFinite hfinite)⟩,
      Snapshot.parse_write_lost hlegible hsized (by omega) ⟨k, hk, KeyFormat.lost_key hfinite⟩⟩
  refine ⟨s, by rw [snapshot, hs]; rfl,
    Snapshot.shallow_of_spelled (Snapshot.spelled_shownAs hlegible hsized) hdepth hlevels hheight,
    s.write_shown, fun hexact => ⟨⟨fun hok x hx hinf => ?_, fun hfinite => ?_⟩, ?_⟩, hlost⟩
  · rw [(hlost x hx hinf).2] at hok
    cases hok
  · have hfaithful : s.root.All KeyFormat.Faithful := hin.regular.all fun k hk =>
      KeyFormat.faithful_key (hkeyed.readsBack hexact k hk (hkeyed.isFinite hfinite k hk))
    exact (Snapshot.parse_write hfaithful hsized).trans (if_pos (by omega))
  · exact Snapshot.spelled_shownAs (hin.regular.all fun k hk =>
      KeyFormat.legible_key (hkeyed.readsBack hexact k hk)) hsized

end Holds

/-- **Every tree can be read back from the text of its snapshot.** It has at most 32 levels, however its keys
came in, and its text nests at most 65 arrays and objects. If its keys are integers or strings, the text gives
the snapshot again. The snapshot of an explorer is given again if no infinity is stored, provided that its numbers
are read back; if one is, `null` stands in its place, and the text is JSON of another kind, whatever the other
numbers are. -/
theorem snapshot_texts :
    (∀ {K : Type} [Ord K] [Std.TransOrd K] (t : Tree K o), t.Reachable →
      t.nodeCount ≤ 2 ^ 32 ∧ ∃ height, t.height = .ok height ∧ height ≤ 32) ∧
    (∀ t : Tree Int64 o, t.Reachable → t.Sized →
      ∃ s, t.snapshot = .ok s ∧ s.Shallow ∧ Snapshot.parse s.write = .ok s) ∧
    (∀ t : Tree String o, t.Reachable → t.Sized →
      ∃ s, t.snapshot = .ok s ∧ s.Shallow ∧ Snapshot.parse s.write = .ok s) ∧
    ∀ (calls : List Call) (rs : List (Except Error Reply)) (e : Explorer o),
      (empty : Explorer o).run calls = .ok (rs, e) → e.tree.Sized →
      ∃ s, e.snapshot = .ok s ∧ s.Shallow ∧ s.toValue.shown.write = s.write.toList ∧
        (Number.AllReadBack ((stored calls).map Binary64.positiveZero) →
          (Snapshot.parse s.write = .ok s ↔ ∀ x ∈ stored calls, ¬ x.isInfinite) ∧
          s.toValue.shown.Spelled s.write.toList) ∧
        ∀ x ∈ stored calls, x.isInfinite →
          (∃ k ∈ s.root.keysIn, k.number = x ∧ (KeyFormat.toValue k).shown = .scalar .null) ∧
          ∃ d, (Snapshot.parse s.write : Except Defect (Snapshot Key)) = .error d ∧
            d.category = "data" := by
  refine ⟨fun t h => ?_, fun t h ht => ?_, fun t h ht => ?_, fun calls rs e hrun ht => ?_⟩
  · obtain ⟨d, root, hin⟩ := h.inOrder
    exact ⟨hin.nodeCount_le_numbers, d + 1, hin.height_eq, hin.height_le⟩
  · obtain ⟨d, root, hin⟩ := h.inOrder
    obtain ⟨s, hs, -, hread⟩ := hin.parse_write ht fun k _ => KeyFormat.faithful_int64 k
    exact ⟨s, hs, hread⟩
  · obtain ⟨d, root, hin⟩ := h.inOrder
    obtain ⟨s, hs, -, hread⟩ := hin.parse_write ht fun k _ => KeyFormat.faithful_string k
    exact ⟨s, hs, hread⟩
  · obtain ⟨s, hs, hshallow, hwrite, hread, hlost⟩ := (holds_of_run hrun).snapshot_text ht
    refine ⟨s, hs, hshallow, hwrite, hread, fun x hx hinf => ?_⟩
    obtain ⟨hnull, hparse⟩ := hlost x hx hinf
    exact ⟨hnull, _, hparse, rfl⟩

/-- Trees of integers and of strings, and an explorer before and after an infinity is put into the leaf on
the left. -/
theorem snapshot_texts_of_few_keys :
    (∃ (t : Tree Int64 .standard) (s : Snapshot Int64), Tree.ofKeys [3, -1, 3, 7] = .ok t ∧
      t.snapshot = .ok s ∧ s.Shallow ∧ Snapshot.parse s.write = .ok s) ∧
    (∃ (t : Tree String .standard) (s : Snapshot String), Tree.ofKeys ["b", "", "\"é\n"] = .ok t ∧
      t.snapshot = .ok s ∧ s.Shallow ∧ Snapshot.parse s.write = .ok s) ∧
    (∃ (rs : List (Except Error Reply)) (e : Explorer .standard) (s : Snapshot Key),
      (empty : Explorer .standard).run [.bulkLoad [.negativeZero, .ofInt 3, .ofInt (-7)]] = .ok (rs, e) ∧
      e.snapshot = .ok s ∧ Snapshot.parse s.write = .ok s) ∧
    ∃ (rs : List (Except Error Reply)) (e : Explorer .standard) (s : Snapshot Key),
      (empty : Explorer .standard).run [.bulkLoad [.negativeZero, .ofInt 3, .ofInt (-7)],
        .insert .negativeInfinity] = .ok (rs, e) ∧
      e.snapshot = .ok s ∧
      ∃ d, (Snapshot.parse s.write : Except Defect (Snapshot Key)) = .error d ∧ d.category = "data" := by
  obtain ⟨-, hint, hstring, hexplorer⟩ := snapshot_texts (o := .standard)
  refine ⟨?_, ?_, ?_, ?_⟩
  · obtain ⟨t, ht⟩ := Tree.exists_ofKeys (o := .standard) [(3 : Int64), -1, 3, 7] (by decide)
    obtain ⟨s, hs⟩ := hint t ⟨_, ht⟩ (Tree.sized_of_ofKeys ht (by decide) (by decide))
    exact ⟨t, s, ht, hs⟩
  · obtain ⟨t, ht⟩ := Tree.exists_ofKeys (o := .standard) ["b", "", "\"é\n"] (by decide)
    obtain ⟨s, hs⟩ := hstring t ⟨_, ht⟩ (Tree.sized_of_ofKeys ht (by decide) (by decide))
    exact ⟨t, s, ht, hs⟩
  · obtain ⟨⟨rs, e⟩, hx, -⟩ := exists_ok_of_any (p := fun _ => true) (x := (empty : Explorer .standard).run
      [.bulkLoad [.negativeZero, .ofInt 3, .ofInt (-7)]]) (by decide +kernel)
    obtain ⟨s, hs, -, -, hread, -⟩ := hexplorer _ rs e hx
      ((holds_of_run hx).sized (by decide) (by decide +kernel))
    exact ⟨rs, e, s, hx, hs, (hread (by decide +kernel)).1.mpr (by decide +kernel)⟩
  · obtain ⟨⟨rs, e⟩, hx, -⟩ := exists_ok_of_any (p := fun _ => true) (x := (empty : Explorer .standard).run
      [.bulkLoad [.negativeZero, .ofInt 3, .ofInt (-7)], .insert .negativeInfinity]) (by decide +kernel)
    obtain ⟨s, hs, -, -, -, hlost⟩ := hexplorer _ rs e hx
      ((holds_of_run hx).sized (by decide) (by decide +kernel))
    exact ⟨rs, e, s, hx, hs, (hlost .negativeInfinity (by decide +kernel) (by decide)).2⟩

end Explorer

end TracedIndex
