import TracedIndex.Proofs.Format.Snapshot
import TracedIndex.Proofs.Json.Shown
import TracedIndex.Proofs.Subtree.Lists

/-!
# Keys that a text does not show

An infinite key is written as `null`, which stands for no key. A leaf with such a key is no leaf then, a
branch with such a leaf below it no branch, and so the text of a snapshot that has an infinite key anywhere
is JSON, but of no snapshot. What the finite keys are read as does not matter for this.

* `KeyFormat.Legible`, `KeyFormat.Lost`: a key whose text is JSON, and one whose text stands for no key;
* `Subtree.spelled_shownAs`, `Snapshot.spelled_shownAs`: the text spells what it shows;
* `Subtree.ofFields?_lost`: what is shown of a node above a lost key is no node;
* **`Snapshot.parse_write_lost`**: a snapshot with a lost key is not read back.
-/

namespace TracedIndex

open Json

variable {f : Binary64 → Binary64}

/-! ## Keys -/

namespace KeyFormat

variable {K : Type} [KeyFormat K]

/-- The text of the key spells what it shows, where that of a finite number `x` is read as `f x`. -/
def Legible (f : Binary64 → Binary64) (k : K) : Prop := ((toValue k).shownAs f).Spelled (toValue k).write

/-- What the text of the key shows stands for no key. -/
def Lost (f : Binary64 → Binary64) (k : K) : Prop := ofValue? (K := K) ((toValue k).shownAs f) = none

theorem legible_key {k : Key} (h : k.number.isFinite → Number.ReadsAs k.number (f k.number)) : Legible f k :=
  Value.spelled_scalar (Scalar.spelled_real_shownAs h)

theorem lost_key {k : Key} (h : ¬ k.number.isFinite) : Lost f k := by
  have hshown : (toValue k).shownAs f = .scalar .null :=
    congrArg Value.scalar (Scalar.shownAs_of_not_isFinite h)
  rw [Lost, hshown]
  rfl

end KeyFormat

variable {K : Type} [KeyFormat K]

theorem spelled_keysValue_shownAs {keys : List K} (h : ∀ k ∈ keys, KeyFormat.Legible f k) :
    ((keysValue keys).shownAs f).Spelled (keysValue keys).write := by
  rw [keysValue, Value.shownAs_array]
  exact Value.spelled_array_map (List.forall_mem_map.mpr h)

namespace Subtree

theorem keysOf?_lost {keys : List K} (h : ∃ k ∈ keys, KeyFormat.Lost f k) :
    keysOf? (K := K) ((keysValue keys).shownAs f) = none := by
  obtain ⟨k, hk, hlost⟩ := h
  rw [keysOf?, keysValue, Value.shownAs_array, List.map_map, Value.elements?]
  exact mapM_eq_none_of_mem (List.mem_map_of_mem hk) hlost

/-! ## Nodes -/

/-- What is shown of the members of the object of a node, but for its kind. -/
def shownFields (f : Binary64 → Binary64) (s : Subtree K) : List (String × Value) :=
  s.fields.map fun m => (m.1, m.2.shownAs f)

theorem shownAs_toValue (s : Subtree K) :
    s.toValue.shownAs f = .object (("kind", .ofText s.kind.name) :: s.shownFields f) := by
  rw [toValue_eq, Value.shownAs_object, List.map_cons, Value.shownAs_ofText]
  rfl

theorem ne_kind_of_mem_shownFields (s : Subtree K) : ∀ m ∈ s.shownFields f, m.1 ≠ "kind" :=
  List.forall_mem_map.mpr s.ne_kind_of_mem_fields

theorem depth_shownFields [ScalarFormat K] (s : Subtree K) :
    Value.depthOfMembers (s.shownFields f) + 1 = 2 * s.levels := by
  rw [shownFields, ← Value.membersShownAs_eq, Value.depthOfMembers_shownAs, depth_fields]

/-- The object of a node spells what it shows, if the values of its fields do. -/
theorem spelled_toValue_shownAs {s : Subtree K} (h : ∀ m ∈ s.fields, (m.2.shownAs f).Spelled m.2.write) :
    (s.toValue.shownAs f).Spelled s.toValue.write := by
  rw [toValue_eq, Value.shownAs_object]
  refine Value.spelled_object_map (List.forall_mem_cons.mpr ⟨?_, h⟩)
  rw [Value.shownAs_ofText]
  exact Value.spelled_scalar (Scalar.spelled_string _)

theorem shownAs_id (id : NodeId) : id.toValue.shownAs f = id.toValue := Value.shownAs_ofNat _

theorem shownAs_next (next : Option NodeId) : (next.elim (.scalar .null) NodeId.toValue : Value).shownAs f =
    next.elim (.scalar .null) NodeId.toValue := by
  cases next with
  | none => exact Value.shownAs_scalar _
  | some id => exact shownAs_id id

/-- **The text of a node spells what it shows.** -/
theorem spelled_shownAs {s : Subtree K} (h : s.All (KeyFormat.Legible f)) :
    (s.toValue.shownAs f).Spelled s.toValue.write := by
  induction s using induction with
  | leaf id keys next =>
    refine spelled_toValue_shownAs ?_
    simp only [fields, List.forall_mem_cons, shownAs_id, shownAs_next]
    exact ⟨id.spelled_toValue, spelled_keysValue_shownAs h, spelled_next next, List.forall_mem_nil _⟩
  | branch id keys children ih =>
    refine spelled_toValue_shownAs ?_
    simp only [fields, List.forall_mem_cons, shownAs_id, Value.shownAs_array]
    refine ⟨id.spelled_toValue, spelled_keysValue_shownAs h.1, Value.spelled_array_map ?_, List.forall_mem_nil _⟩
    rw [toValues_eq]
    exact List.forall_mem_map.mpr fun c hc => ih c hc (all_of_mem h.2 c hc)

/-- **What is shown of a node above a lost key is no node**, if that is so for its children. -/
theorem ofFields?_lost {child? : Value → Option (Subtree K)} {s : Subtree K}
    (h : ∃ k ∈ s.keysIn, KeyFormat.Lost f k)
    (hchild : ∀ c : Subtree K, (∃ k ∈ c.keysIn, KeyFormat.Lost f k) → child? (c.toValue.shownAs f) = none) :
    ofFields? child? s.kind (.named (s.shownFields f)) = none := by
  cases s with
  | leaf id keys next =>
    rw [keysIn_leaf] at h
    simp only [kind, shownFields, fields, List.map_cons, List.map_nil]
    rw [ofFields?_leaf _ _ _ _ (List.forall_mem_nil _), keysOf?_lost h]
    cases idOf? (id.toValue.shownAs f) <;> rfl
  | branch id keys children =>
    obtain ⟨k, hk, hlost⟩ := h
    rw [keysIn_branch, List.mem_flatMap] at hk
    obtain ⟨c, hc, hk⟩ := hk
    have hnone : ((toValues children).map (Value.shownAs f)).mapM child? = none := by
      rw [toValues_eq, List.map_map]
      exact mapM_eq_none_of_mem (List.mem_map_of_mem hc) (hchild c ⟨k, hk, hlost⟩)
    simp only [kind, shownFields, fields, List.map_cons, List.map_nil, Value.shownAs_array]
    rw [ofFields?_internal _ _ _ _ (List.forall_mem_nil _), Value.elements?]
    simp only [bind, Option.bind_some, hnone]
    cases idOf? (id.toValue.shownAs f) with
    | none => rfl
    | some id =>
      cases keysOf? (K := K) ((keysValue keys).shownAs f) <;> rfl

theorem ofValueWithin?_lost {levels : Nat} {s : Subtree K} (h : ∃ k ∈ s.keysIn, KeyFormat.Lost f k) :
    ofValueWithin? (K := K) levels (s.toValue.shownAs f) = none := by
  induction levels generalizing s with
  | zero =>
    rw [shownAs_toValue]
    rfl
  | succ levels ih =>
    have hothers : (("kind", .ofText s.kind.name) :: s.shownFields f).filter (fun m => m.1 != "kind") =
        s.shownFields f := by
      simpa using s.ne_kind_of_mem_shownFields
    rw [shownAs_toValue, ofValueWithin?, requiredField?_cons_self _ s.ne_kind_of_mem_shownFields, hothers]
    simp only [bind, Option.bind_some, Value.ofText, Kind.ofValue?, Kind.ofName?_name]
    exact ofFields?_lost h fun c hc => ih hc

/-- A root node above a lost key is read as JSON, but as no node. -/
theorem read_gives_lost [ScalarFormat K] {depth : Nat} {s : Subtree K}
    (h : ∃ k ∈ s.keysIn, KeyFormat.Lost f k) (hdepth : 2 * s.levels ≤ depth + 1) :
    (Subtree.read depth : Reader (Subtree K)).Gives (s.toValue.shownAs f) (.error .mismatched) := by
  have hnone : ofFields? (K := K) ofValue? s.kind (.named (s.shownFields f)) = none :=
    ofFields?_lost h fun c hc => ofValueWithin?_lost hc
  have hread := read_gives_fields (K := K) depth s.kind (s.ne_kind_of_mem_shownFields (f := f))
  rw [← shownAs_toValue, hnone] at hread
  have hle : Value.depthOfMembers (s.shownFields f) ≤ depth := by
    have := s.depth_shownFields (f := f)
    omega
  rwa [if_pos hle] at hread

end Subtree

/-! ## Snapshots -/

namespace Snapshot

theorem shownAs_toValue (s : Snapshot K) : s.toValue.shownAs f =
    .object [("order", .ofNat s.order), ("height", .ofNat s.height), ("len", .ofNat s.len),
      ("root", s.root.toValue.shownAs f)] := by
  rw [toValue, Value.shownAs_object]
  simp only [List.map_cons, List.map_nil, Value.shownAs_ofNat]

theorem spelled_shownAs {s : Snapshot K} (h : s.root.All (KeyFormat.Legible f)) (hs : s.Sized) :
    (s.toValue.shownAs f).Spelled s.write.toList := by
  rw [write, String.toList_ofList, toValue, Value.shownAs_object]
  refine Value.spelled_object_map ?_
  simp only [List.forall_mem_cons, Value.shownAs_ofNat]
  exact ⟨spelled_ofNat hs.1, spelled_ofNat hs.2.1, spelled_ofNat hs.2.2, s.root.spelled_shownAs h,
    List.forall_mem_nil _⟩

/-- The text of a snapshot is that of the value with `null` in place of its infinite keys. -/
theorem write_shown (s : Snapshot K) : s.toValue.shown.write = s.write.toList := by
  rw [Value.write_shown, write, String.toList_ofList]

/-- **A snapshot with a lost key is not read back**: its text is JSON, but of another kind. -/
theorem parse_write_lost [ScalarFormat K] {s : Snapshot K} (h : s.root.All (KeyFormat.Legible f))
    (hs : s.Sized) (hlevels : s.root.levels ≤ 63) (hlost : ∃ k ∈ s.root.keysIn, KeyFormat.Lost f k) :
    (parse s.write : Except Defect (Snapshot K)) = .error .mismatched := by
  have hroot : (readRoot : Reader (Subtree K)).Gives (s.root.toValue.shownAs f) (.error .mismatched) :=
    Subtree.read_gives_lost hlost (by rw [maxDepth]; omega)
  have hread := read_gives_root hroot hs.1 hs.2.1 hs.2.2
  rw [← shownAs_toValue] at hread
  exact Reader.parse_of_gives hread (List.append_nil _).symm (spelled_shownAs h hs) blank_nil

end Snapshot

end TracedIndex
