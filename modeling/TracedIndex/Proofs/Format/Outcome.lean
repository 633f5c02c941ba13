import TracedIndex.Format.Outcome
import TracedIndex.Proofs.Format.Key

/-!
# Outcomes read back

The outcome of a query is read field by field, and each field as it was written.

* `Search.collect`, `ScanResult.collect`: what a field adds to those that were read before;
* **`Search.parse_write`**, **`ScanResult.parse_write`**: an outcome is read back from its text.
-/

namespace TracedIndex

open Json

/-! ## Point searches -/

namespace Search

/-- What a field adds to those read before. -/
def collect (p : Partial) (m : String × Value) : Except Defect Partial :=
  if m.1 = "found" then
    (once p.found (asScalar Scalar.toBool? m.2)).map fun b => { p with found := some b }
  else
    (once p.path (asIds m.2)).map fun ids => { p with path := some ids }

theorem readField_gives {m : String × Value} (hm : m.1 = "found" ∨ m.1 = "path") (p : Partial) :
    (readField m.1 p).GivesBehind m.2 (collect p m) := by
  unfold readField collect
  split
  · exact ((readAs_gives Scalar.toBool? m.2).readOnce p.found).map fun b => { p with found := some b }
  · next hfound =>
    simp only [hm.resolve_left hfound, if_true]
    exact ((readIds_gives m.2).readOnce p.path).map fun ids => { p with path := some ids }

theorem read_gives {ms : List (String × Value)} (hms : ∀ m ∈ ms, m.1 = "found" ∨ m.1 = "path") :
    Search.read.Gives (.object ms)
      ((ms.foldlM collect ⟨none, none⟩).bind fun p => orMismatched (ofPartial? p)) :=
  readRecord_gives fun m hm p => readField_gives (hms m hm) p

theorem spelled_toValue (s : Search) : s.toValue.Spelled s.toValue.write :=
  Value.spelled_object <| List.forall_mem_cons.mpr
    ⟨Value.spelled_scalar (Scalar.spelled_bool s.found), List.forall_mem_cons.mpr
      ⟨spelled_idsValue s.path, List.forall_mem_nil _⟩⟩

/-- **The outcome of a search is read back.** -/
theorem parse_write (s : Search) : parse s.write = .ok s := by
  have hfields : [("found", .scalar (.bool s.found)), ("path", idsValue s.path)].foldlM collect
      ⟨none, none⟩ = .ok ⟨some s.found, some s.path⟩ := by
    simp [collect, once, asScalar, Scalar.toBool?, orMismatched, asIds_idsValue, Except.map, bind,
      Except.bind, pure, Except.pure]
  have hread : Search.read.Gives s.toValue _ := read_gives (by simp)
  rw [hfields] at hread
  exact Reader.parse_of_gives hread (String.toList_ofList.trans (List.append_nil _).symm)
    s.spelled_toValue blank_nil

end Search

/-! ## Range scans -/

namespace ScanResult

variable {K : Type} [KeyFormat K]

/-- What a field adds to those read before. -/
def collect (p : Partial K) (m : String × Value) : Except Defect (Partial K) :=
  if m.1 = "keys" then (once p.keys (asKeys m.2)).map fun keys => { p with keys := some keys }
  else (once p.path (asIds m.2)).map fun ids => { p with path := some ids }

theorem readField_gives [ScalarFormat K] {m : String × Value} (hm : m.1 = "keys" ∨ m.1 = "path")
    (p : Partial K) : (readField m.1 p).GivesBehind m.2 (collect p m) := by
  unfold readField collect
  split
  · exact ((readKeys_gives (K := K) m.2).readOnce p.keys).map fun keys => { p with keys := some keys }
  · next hkeys =>
    simp only [hm.resolve_left hkeys, if_true]
    exact ((readIds_gives m.2).readOnce p.path).map fun ids => { p with path := some ids }

theorem read_gives [ScalarFormat K] {ms : List (String × Value)}
    (hms : ∀ m ∈ ms, m.1 = "keys" ∨ m.1 = "path") :
    (ScanResult.read : Reader (ScanResult K)).Gives (.object ms)
      ((ms.foldlM collect ⟨none, none⟩).bind fun p => orMismatched (ofPartial? p)) :=
  readRecord_gives fun m hm p => readField_gives (hms m hm) p

theorem spelled_toValue {r : ScanResult K} (h : ∀ k ∈ r.keys, KeyFormat.Faithful k) :
    r.toValue.Spelled r.toValue.write :=
  Value.spelled_object <| List.forall_mem_cons.mpr
    ⟨spelled_keysValue h, List.forall_mem_cons.mpr ⟨spelled_idsValue r.path, List.forall_mem_nil _⟩⟩

/-- **The outcome of a range scan is read back**, if its keys are. -/
theorem parse_write [ScalarFormat K] {r : ScanResult K} (h : ∀ k ∈ r.keys, KeyFormat.Faithful k) :
    parse r.write = .ok r := by
  have hfields : [("keys", keysValue r.keys), ("path", idsValue r.path)].foldlM collect
      (⟨none, none⟩ : Partial K) = .ok ⟨some r.keys, some r.path⟩ := by
    simp [collect, once, asKeys_keysValue h, asIds_idsValue, Except.map, bind, Except.bind, pure,
      Except.pure]
  have hread : (ScanResult.read : Reader (ScanResult K)).Gives r.toValue _ := read_gives (by simp)
  rw [hfields] at hread
  exact Reader.parse_of_gives hread (String.toList_ofList.trans (List.append_nil _).symm)
    (spelled_toValue h) blank_nil

end ScanResult

end TracedIndex
