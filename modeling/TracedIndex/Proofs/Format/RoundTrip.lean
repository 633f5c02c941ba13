import TracedIndex.Proofs.Format.Outcome
import TracedIndex.Proofs.Format.Results

/-!
# Written and read again

A snapshot or an outcome is the same after it was written and read again, with two exceptions. A snapshot of
more than 63 levels nests more arrays and objects in its text than can be read, and an infinite key is written
as `null`, which is no number. Neither is ever read from a text, so what is read can be written and read again.

* **`Snapshot.readBackUnlessDeep`**: a snapshot is read back, or nests too deep;
* `Snapshot.parse_write_of_parse`, `ScanResult.finite_of_parse`: what is read has no exceptions;
* **`Format.written_and_read`**: snapshots and outcomes, over all kinds of keys.
-/

namespace TracedIndex

open Json

variable {K : Type} [KeyFormat K]

namespace Snapshot

/-- The snapshot is read back from its text; but if it has more than 63 levels, the text nests more than 127
arrays and objects, and is taken for malformed. -/
structure ReadBackUnlessDeep (s : Snapshot K) : Prop where
  of_le : s.root.levels ≤ 63 → parse s.write = .ok s
  of_lt : 63 < s.root.levels → (∃ v : Value, v.Spelled s.write.toList ∧ 127 < v.depth) ∧
    ∃ d, (parse s.write : Except Defect (Snapshot K)) = .error d ∧ d.category = "syntax"

theorem readBackUnlessDeep [ScalarFormat K] (hfaithful : ∀ k : K, KeyFormat.Faithful k) {s : Snapshot K}
    (hs : s.Sized) : s.ReadBackUnlessDeep where
  of_le h := (parse_write (s.root.all_of_forall hfaithful) hs).trans (if_pos h)
  of_lt h := by
    have hall := s.root.all_of_forall hfaithful
    have hspelled : s.toValue.Spelled s.write.toList := by
      rw [write, String.toList_ofList]
      exact spelled_toValue hall hs
    have hdepth : 127 < s.toValue.depth := by
      rw [depth_toValue]
      omega
    have hparse := (parse_write hall hs).trans (if_neg (Nat.not_le.mpr h))
    exact ⟨⟨s.toValue, hspelled, hdepth⟩, .malformed, hparse, rfl⟩

/-- **A snapshot that was read is read back from its own text.** -/
theorem parse_write_of_parse [ScalarFormat K] (hfaithful : ∀ k : K, KeyFormat.Faithful k) {text : String}
    {s : Snapshot K} (h : parse text = .ok s) : parse s.write = .ok s := by
  obtain ⟨hs, hlevels⟩ := read_ensures.of_parse h
  exact (readBackUnlessDeep hfaithful hs).of_le hlevels

end Snapshot

namespace ScanResult

/-- The finite numbers among the keys are read back to the last place. -/
def Exact (r : ScanResult Key) : Prop := ∀ k ∈ r.keys, k.number.isFinite → Number.ReadsBack k.number

instance (r : ScanResult Key) : Decidable r.Exact := by unfold Exact; infer_instance

/-- All keys are finite. -/
def Finite (r : ScanResult Key) : Prop := ∀ k ∈ r.keys, k.number.isFinite

instance (r : ScanResult Key) : Decidable r.Finite := by unfold Finite; infer_instance

theorem parse_write_key {r : ScanResult Key} (hexact : r.Exact) (hfinite : r.Finite) :
    parse r.write = .ok r :=
  parse_write fun k hk => KeyFormat.faithful_key (hexact k hk (hfinite k hk))

/-- No text gives an infinite key. -/
theorem finite_of_parse {text : String} {r : ScanResult Key} (h : parse text = .ok r) : r.Finite :=
  (read_ensures Key.read_ensures).of_parse h

end ScanResult

/-- **What is written is read back, and what was read is read back when it is written.** Snapshots may have
any shape, but not more than 63 levels; numeric keys have to be finite, with numbers that are read back. -/
theorem Format.written_and_read :
    ((∀ s : Snapshot Int64, s.Sized → s.ReadBackUnlessDeep) ∧
      (∀ s : Snapshot String, s.Sized → s.ReadBackUnlessDeep) ∧
      (∀ s : Search, Search.parse s.write = .ok s) ∧
      (∀ r : ScanResult Int64, ScanResult.parse r.write = .ok r) ∧
      (∀ r : ScanResult String, ScanResult.parse r.write = .ok r) ∧
      (∀ r : ScanResult Key, r.Exact → r.Finite → ScanResult.parse r.write = .ok r)) ∧
    (∀ text : String,
      (∀ s : Snapshot Int64, Snapshot.parse text = .ok s → Snapshot.parse s.write = .ok s) ∧
      (∀ s : Snapshot String, Snapshot.parse text = .ok s → Snapshot.parse s.write = .ok s) ∧
      (∀ s : Search, Search.parse text = .ok s → Search.parse s.write = .ok s) ∧
      (∀ r : ScanResult Int64, ScanResult.parse text = .ok r → ScanResult.parse r.write = .ok r) ∧
      (∀ r : ScanResult String, ScanResult.parse text = .ok r → ScanResult.parse r.write = .ok r) ∧
      (∀ r : ScanResult Key, r.Exact → ScanResult.parse text = .ok r →
        ScanResult.parse r.write = .ok r)) := by
  have hint (r : ScanResult Int64) : ScanResult.parse r.write = .ok r :=
    ScanResult.parse_write fun k _ => KeyFormat.faithful_int64 k
  have hstring (r : ScanResult String) : ScanResult.parse r.write = .ok r :=
    ScanResult.parse_write fun k _ => KeyFormat.faithful_string k
  refine ⟨⟨?_, ?_, Search.parse_write, hint, hstring, ?_⟩, fun text => ⟨?_, ?_, ?_, ?_, ?_, ?_⟩⟩
  · exact fun s hs => Snapshot.readBackUnlessDeep KeyFormat.faithful_int64 hs
  · exact fun s hs => Snapshot.readBackUnlessDeep KeyFormat.faithful_string hs
  · exact fun r => ScanResult.parse_write_key
  · exact fun s => Snapshot.parse_write_of_parse KeyFormat.faithful_int64
  · exact fun s => Snapshot.parse_write_of_parse KeyFormat.faithful_string
  · exact fun s _ => s.parse_write
  · exact fun r _ => hint r
  · exact fun r _ => hstring r
  · exact fun r hexact h => ScanResult.parse_write_key hexact (ScanResult.finite_of_parse h)

/-- A node that names itself as its next leaf beside one without children, a chain of 64 nodes, two numbers,
and texts that are not as they would be written. -/
theorem Format.written_and_read_oddities :
    (∃ s : Snapshot String, s.Sized ∧ s.root.levels = 2 ∧ Snapshot.parse s.write = .ok s) ∧
      (∃ s : Snapshot Int64, s.Sized ∧ s.root.levels = 64 ∧ ∃ d,
        (Snapshot.parse s.write : Except Defect (Snapshot Int64)) = .error d ∧ d.category = "syntax") ∧
      (∃ r : ScanResult Key, r.keys = [.ofInt32 30, .ofInt32 (-1)] ∧ ScanResult.parse r.write = .ok r) ∧
      (∃ s : Snapshot Int64, Snapshot.parse " [4, 0, 9, [\"leaf\", 3, [5, -5], 3]]" = .ok s ∧
        Snapshot.parse s.write = .ok s) ∧
      ∃ r : ScanResult Key, ScanResult.parse "[[3e1, -1], [1]]" = .ok r ∧
        ScanResult.parse r.write = .ok r := by
  obtain ⟨⟨hint, hstring, -, -, -, hkeys⟩, hread⟩ := written_and_read
  refine ⟨?_, ?_, ?_, ?_, ?_⟩
  · let s : Snapshot String := ⟨3, 0, 0, .branch ⟨1, by decide⟩ ["\n", "é"]
      [.leaf ⟨1, by decide⟩ [""] (some ⟨1, by decide⟩), .branch ⟨1, by decide⟩ [] []]⟩
    have hs : s.Sized := by decide
    exact ⟨s, hs, by decide, (hstring s hs).of_le (by decide)⟩
  · let s : Snapshot Int64 := ⟨3, 0, 0, (fun s => .branch ⟨0, by decide⟩ [] [s])^[63]
      (.leaf ⟨0, by decide⟩ [] none)⟩
    have hs : s.Sized := by decide
    have hlevels : s.root.levels = 64 := by decide +kernel
    exact ⟨s, hs, hlevels, ((hint s hs).of_lt (by rw [hlevels]; decide)).2⟩
  · let r : ScanResult Key := ⟨[.ofInt32 30, .ofInt32 (-1)], []⟩
    exact ⟨r, rfl, hkeys r (by decide +kernel) (by decide +kernel)⟩
  · have hsome : (Snapshot.parse " [4, 0, 9, [\"leaf\", 3, [5, -5], 3]]" :
        Except Defect (Snapshot Int64)).toOption.isSome := by decide +kernel
    cases hs : (Snapshot.parse " [4, 0, 9, [\"leaf\", 3, [5, -5], 3]]" :
        Except Defect (Snapshot Int64)) with
    | error d => rw [hs] at hsome; cases hsome
    | ok s => exact ⟨s, rfl, (hread _).1 s hs⟩
  · have hexact : (ScanResult.parse "[[3e1, -1], [1]]").toOption.any fun r => r.Exact := by
      decide +kernel
    cases hr : (ScanResult.parse "[[3e1, -1], [1]]" : Except Defect (ScanResult Key)) with
    | error d => rw [hr] at hexact; cases hexact
    | ok r =>
      rw [hr] at hexact
      exact ⟨r, rfl, (hread _).2.2.2.2.2 r (of_decide_eq_true hexact) hr⟩

end TracedIndex
