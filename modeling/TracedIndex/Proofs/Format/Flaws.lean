import TracedIndex.Proofs.Format.FlawedNodes
import TracedIndex.Proofs.Format.Presentation

/-!
# Snapshots with one flaw

A snapshot with one flaw in its object, or in that of any of its nodes, is not read, however it is laid out. The text is
JSON all the same, so it is of another kind. This takes numbers that have a value: with `-1e999` for its order, a text is
malformed instead.

* `Snapshot.FlawedAs`: the values of a snapshot with one flaw;
* `Snapshot.Told`: what is known of a snapshot that was read; `Snapshot.FlawedAs.not_told`;
* `Snapshot.read_gives_flawed`: what is read of a snapshot with a flaw;
* **`Snapshot.parse_flawed`**: its texts are refused; `Snapshot.parse_too_large`: two numbers without a value.
-/

namespace TracedIndex

open Json

variable {K : Type} [KeyFormat K]

/-- The text is one of those of the value, perhaps with white space behind it. -/
def Json.Value.WrittenIn (v : Value) (text : String) : Prop :=
  ∃ t sp, text.toList = t ++ sp ∧ v.Text t ∧ Blank sp

namespace Snapshot

open Subtree (field? asRoot)

/-! ## Snapshots with a flaw -/

/-- The field has a number that does not fit a word. -/
def BadValue (name : String) (v : Value) : Prop :=
  (name = "order" ∨ name = "height" ∨ name = "len") ∧ ∃ n : Number, v = .scalar (.number n) ∧ n.OutOf UInt64.size

/-- The value is that of the snapshot, but for one flaw in its object or in that of one of its nodes. -/
inductive FlawedAs (s : Snapshot K) : Value → Prop
  | here {ms ms' : List (String × Value)} (value : s.toValue = .object ms)
    (flaw : Flawed ["order", "height", "len", "root"] BadValue ms ms') : FlawedAs s (.object ms')
  | root {v : Value} (flaw : s.root.FlawedAs v) : FlawedAs s (.object [("order", .ofNat s.order),
      ("height", .ofNat s.height), ("len", .ofNat s.len), ("root", v)])

theorem depth_of_badValue {name : String} {v : Value} (h : BadValue name v) : v.depth = 0 := by
  obtain ⟨-, n, rfl, -⟩ := h
  rfl

theorem toNat?_of_badValue {name : String} {v : Value} (h : BadValue name v) (n : Nat) :
    asScalar Scalar.toNat? v ≠ .ok n := by
  obtain ⟨-, m, rfl, hout⟩ := h
  rw [asScalar, Scalar.toNat?_of_outOf hout, Ne, orMismatched_eq_ok_iff]
  simp

/-- A flaw adds no names, and no depth to the values. -/
theorem FlawedAs.exists_members [ScalarFormat K] {s : Snapshot K} {v : Value} (h : s.FlawedAs v) :
    ∃ ms, v = .object ms ∧ ∀ m ∈ ms, (m.1 = "order" ∨ m.1 = "height" ∨ m.1 = "len" ∨ m.1 = "root") ∧
      m.2.depth ≤ 2 * s.root.levels := by
  cases h with
  | @here ms ms' value flaw =>
    refine ⟨ms', rfl, fun m hm => ?_⟩
    obtain ⟨m₀, hm₀, hname, hdepth⟩ := flaw.exists_mem (fun _ _ => depth_of_badValue) m hm
    rw [hname]
    obtain rfl := Value.object.inj value
    have hall : ∀ m ∈ [("order", Value.ofNat s.order), ("height", .ofNat s.height), ("len", .ofNat s.len),
        ("root", s.root.toValue)], (m.1 = "order" ∨ m.1 = "height" ∨ m.1 = "len" ∨ m.1 = "root") ∧
        m.2.depth ≤ 2 * s.root.levels := by
      simp [Value.ofNat, Value.depth, Subtree.depth_toValue]
    exact ⟨(hall m₀ hm₀).1, hdepth.trans (hall m₀ hm₀).2⟩
  | @root v flaw =>
    refine ⟨_, rfl, ?_⟩
    simpa [Value.ofNat, Value.depth] using flaw.depth_le

/-! ### What was read -/

omit [KeyFormat K] in
/-- A member that was read is one of the fields, and was not read before. -/
theorem collect_cases {root : Value → Except Defect (Subtree K)} {p p' : Partial K} {m : String × Value}
    (h : collect root p m = .ok p') :
    (m.1 = "order" ∧ p.order = none ∧ ∃ n, asScalar Scalar.toNat? m.2 = .ok n ∧ p' = { p with order := some n }) ∨
    (m.1 = "height" ∧ p.height = none ∧
      ∃ n, asScalar Scalar.toNat? m.2 = .ok n ∧ p' = { p with height := some n }) ∨
    (m.1 = "len" ∧ p.len = none ∧ ∃ n, asScalar Scalar.toNat? m.2 = .ok n ∧ p' = { p with len := some n }) ∨
    (m.1 ≠ "order" ∧ m.1 ≠ "height" ∧ m.1 ≠ "len" ∧ p.root = none ∧
      ∃ t, root m.2 = .ok t ∧ p' = { p with root := some t }) := by
  unfold collect at h
  split at h
  · next hname =>
    obtain ⟨n, hn, rfl⟩ := map_eq_ok_iff.mp h
    obtain ⟨hnone, hn⟩ := once_eq_ok_iff.mp hn
    exact Or.inl ⟨hname, hnone, n, hn, rfl⟩
  split at h
  · next hname =>
    obtain ⟨n, hn, rfl⟩ := map_eq_ok_iff.mp h
    obtain ⟨hnone, hn⟩ := once_eq_ok_iff.mp hn
    exact Or.inr (Or.inl ⟨hname, hnone, n, hn, rfl⟩)
  split at h
  · next hname =>
    obtain ⟨n, hn, rfl⟩ := map_eq_ok_iff.mp h
    obtain ⟨hnone, hn⟩ := once_eq_ok_iff.mp hn
    exact Or.inr (Or.inr (Or.inl ⟨hname, hnone, n, hn, rfl⟩))
  · next horder hheight hlen =>
    obtain ⟨t, ht, rfl⟩ := map_eq_ok_iff.mp h
    obtain ⟨hnone, ht⟩ := once_eq_ok_iff.mp ht
    exact Or.inr (Or.inr (Or.inr ⟨horder, hheight, hlen, hnone, t, ht, rfl⟩))

/-- What is known of the fields of a snapshot that was read. -/
structure Told (root : Value → Except Defect (Subtree K)) (ms : List (String × Value)) : Prop where
  order : ∃ n v, field? "order" ms = some (some v) ∧ asScalar Scalar.toNat? v = .ok n
  height : ∃ n v, field? "height" ms = some (some v) ∧ asScalar Scalar.toNat? v = .ok n
  len : ∃ n v, field? "len" ms = some (some v) ∧ asScalar Scalar.toNat? v = .ok n
  root : ∃ t v, field? "root" ms = some (some v) ∧ root v = .ok t

omit [KeyFormat K] in
theorem told_of_foldlM {root : Value → Except Defect (Subtree K)} {ms : List (String × Value)}
    (hnames : ∀ m ∈ ms, m.1 = "order" ∨ m.1 = "height" ∨ m.1 = "len" ∨ m.1 = "root") {p : Partial K}
    (h : ms.foldlM (collect root) ⟨none, none, none, none⟩ = .ok p) {s : Snapshot K}
    (hs : ofPartial? p = some s) : Told root ms := by
  obtain ⟨order, horder, hs⟩ := Option.bind_eq_some_iff.mp hs
  obtain ⟨height, hheight, hs⟩ := Option.bind_eq_some_iff.mp hs
  obtain ⟨len, hlen, hs⟩ := Option.bind_eq_some_iff.mp hs
  obtain ⟨t, ht, -⟩ := Option.bind_eq_some_iff.mp hs
  refine ⟨⟨order, exists_field_of_foldlM (g := Partial.order) ?_ ?_ h rfl horder⟩,
    ⟨height, exists_field_of_foldlM (g := Partial.height) ?_ ?_ h rfl hheight⟩,
    ⟨len, exists_field_of_foldlM (g := Partial.len) ?_ ?_ h rfl hlen⟩,
    ⟨t, exists_field_of_foldlM (g := Partial.root) ?_ ?_ h rfl ht⟩⟩
  -- for each field, a member of that name sets it for the first time, and no other one does
  all_goals
    intros
    have hcases := collect_cases ‹collect root _ _ = .ok _›
    grind

omit [KeyFormat K] in
/-- A snapshot of which all is known has no bad field. -/
theorem Told.not_badField {root : Value → Except Defect (Subtree K)} {ms : List (String × Value)}
    (h : Told root ms) {name : String}
    (hname : name = "order" ∨ name = "height" ∨ name = "len" ∨ name = "root") :
    ¬ BadField ["order", "height", "len", "root"] BadValue name ms := by
  have hnumber {name : String}
      (hread : ∃ n v, field? name ms = some (some v) ∧ asScalar Scalar.toNat? v = .ok n) :
      ¬ BadField ["order", "height", "len", "root"] BadValue name ms := by
    obtain ⟨n, v, hfield, hv⟩ := hread
    exact TracedIndex.not_badField hfield fun hbad => toNat?_of_badValue hbad n hv
  rcases hname with rfl | rfl | rfl | rfl
  · exact hnumber h.order
  · exact hnumber h.height
  · exact hnumber h.len
  · obtain ⟨t, v, hfield, -⟩ := h.root
    exact TracedIndex.not_badField hfield (by simp [BadValue])

/-- The fields of a snapshot with a flaw do not tell what it is. -/
theorem FlawedAs.not_told {s : Snapshot K} {ms : List (String × Value)} (h : s.FlawedAs (.object ms)) (depth : Nat) :
    ¬ Told (K := K) (asRoot depth) ms := by
  intro htold
  generalize hv : Value.object ms = v at h
  cases h with
  | @here ms₀ ms' value flaw =>
    obtain rfl := Value.object.inj hv
    obtain rfl := Value.object.inj value
    obtain ⟨name, hname, hbad, -⟩ := flaw.exists_badField (by simp)
    exact htold.not_badField (by simpa using hname) hbad
  | @root v flaw =>
    obtain rfl := Value.object.inj hv
    obtain ⟨t, w, hfield, hw⟩ := htold.root
    rw [Subtree.field?_cons_of_ne (by simp), Subtree.field?_cons_of_ne (by simp), Subtree.field?_cons_of_ne (by simp),
      Subtree.field?_cons_self _ (by simp)] at hfield
    obtain rfl : v = w := by simpa using hfield
    exact Subtree.asRoot_flawed flaw t hw

/-! ## Reading -/

/-- **A snapshot with a flaw is of another kind**, if it does not nest too deep. -/
theorem read_gives_flawed [ScalarFormat K] {s : Snapshot K} (hlevels : s.root.levels ≤ 63) {v : Value}
    (h : s.FlawedAs v) : (Snapshot.read : Reader (Snapshot K)).Gives v (.error .mismatched) := by
  obtain ⟨ms, rfl, hms⟩ := h.exists_members
  have hgives := read_gives (asRoot (maxDepth - 2)) (fun m hm => (hms m hm).1)
    fun m _ _ => Subtree.read_gives_any (K := K) (maxDepth - 2) m.2
  have honly : OnlyMismatched ((ms.foldlM (collect (asRoot (maxDepth - 2)))
      (⟨none, none, none, none⟩ : Partial K)).bind fun p => orMismatched (ofPartial? p)) := by
    refine (OnlyMismatched.foldlM (fun m hm p => ?_) _).bind fun p => .orMismatched _
    have hroot : OnlyMismatched (asRoot (maxDepth - 2) m.2 : Except Defect (Subtree K)) := by
      apply Subtree.onlyMismatched_asRoot
      have := (hms m hm).2
      rw [maxDepth]
      omega
    unfold collect
    split
    · exact ((OnlyMismatched.asScalar _ _).once _).map _
    split
    · exact ((OnlyMismatched.asScalar _ _).once _).map _
    split
    · exact ((OnlyMismatched.asScalar _ _).once _).map _
    · exact (hroot.once _).map _
  rw [honly.eq_error] at hgives
  · exact hgives
  · intro t ht
    obtain ⟨p, hp, ht⟩ := bind_eq_ok_iff.mp ht
    exact h.not_told _ (told_of_foldlM (fun m hm => (hms m hm).1) hp (orMismatched_eq_ok_iff.mp ht))

theorem parse_of_flawedAs [ScalarFormat K] {s : Snapshot K} (hlevels : s.root.levels ≤ 63) {v : Value}
    (h : s.FlawedAs v) {text : String} (htext : v.WrittenIn text) :
    (parse text : Except Defect (Snapshot K)) = .error .mismatched := by
  obtain ⟨t, sp, htext, ht, hsp⟩ := htext
  exact Reader.parse_of_gives (read_gives_flawed hlevels h) htext ht.spelled hsp

/-- **A snapshot with one flaw is refused as a text of another kind**: in the object of the snapshot or of one of its
nodes, a field that must be there is missing, a field comes twice, a kind is no kind, or a number is negative, has a
fraction or an exponent, or is too large for its field. -/
theorem parse_flawed :
    (∀ s : Snapshot Int64, s.root.levels ≤ 63 → ∀ v, s.FlawedAs v → ∀ text, v.WrittenIn text →
      ∃ d, (parse text : Except Defect (Snapshot Int64)) = .error d ∧ d.category = "data") ∧
    (∀ s : Snapshot String, s.root.levels ≤ 63 → ∀ v, s.FlawedAs v → ∀ text, v.WrittenIn text →
      ∃ d, (parse text : Except Defect (Snapshot String)) = .error d ∧ d.category = "data") ∧
    ∀ (bound : Nat) (l : Literal) (n : Number), bound ≤ UInt64.size → l.value? = some n →
      (n.OutOf bound ↔ l.negative ∨ l.fraction.isSome ∨ l.exponent.isSome ∨ bound ≤ Literal.natOf l.whole) := by
  refine ⟨fun s hs v hv text htext => ?_, fun s hs v hv text htext => ?_, fun bound l n hbound hn => ?_⟩
  · exact ⟨.mismatched, parse_of_flawedAs hs hv htext, rfl⟩
  · exact ⟨.mismatched, parse_of_flawedAs hs hv htext, rfl⟩
  · exact Number.outOf_iff hbound hn

/-- An order with a fraction; a second kind behind the other fields of the root; a leaf below the root that does not
tell its keys. -/
theorem parse_flawed_at_three_places :
    (∃ d, (parse ("\x7b\"order\":1.5,\"height\":1,\"len\":0," ++
      "\"root\":\x7b\"kind\":\"leaf\",\"id\":0,\"keys\":[],\"next\":null\x7d\x7d") :
        Except Defect (Snapshot Int64)) = .error d ∧ d.category = "data") ∧
    (∃ d, (parse ("\x7b\"order\":3,\"height\":1,\"len\":0," ++
      "\"root\":\x7b\"kind\":\"leaf\",\"id\":0,\"keys\":[],\"next\":null,\"kind\":\"internal\"\x7d\x7d") :
        Except Defect (Snapshot Int64)) = .error d ∧ d.category = "data") ∧
    ∃ d, (parse ("\x7b\"order\":3,\"height\":2,\"len\":0," ++
      "\"root\":\x7b\"kind\":\"internal\",\"id\":1,\"keys\":[]," ++
        "\"children\":[\x7b\"kind\":\"leaf\",\"id\":0,\"next\":null\x7d]\x7d\x7d") :
        Except Defect (Snapshot String)) = .error d ∧ d.category = "data" := by
  obtain ⟨hint, hstring, hout⟩ := parse_flawed
  let s : Snapshot Int64 := ⟨3, 1, 0, .leaf ⟨0, by decide⟩ [] none⟩
  have hkeys : (keysValue ([] : List Int64)).Text (keysValue ([] : List Int64)).write :=
    Subtree.text_keysValue KeyFormat.textual_int64 []
  have hnull : (Value.scalar .null).Text (Value.scalar .null).write := Value.text_scalar rfl
  have hnat {n : Nat} (hn : n < UInt64.size := by decide) : (Value.ofNat n).Text (Value.ofNat n).write :=
    Value.text_ofNat hn
  refine ⟨?_, ?_, ?_⟩
  · let l : Literal := ⟨false, ['1'], some ['5'], none⟩
    let half : Number := .real ⟨0x3ff8000000000000⟩
    have hl : l.value? = some half := by decide +kernel
    have hfraction : half.OutOf UInt64.size := (hout _ l half (Nat.le_refl _) hl).mpr (Or.inr (Or.inl rfl))
    have hdigits {c : Char} (hc : isDigit c) : Literal.Digits [c] := ⟨nofun, List.forall_mem_singleton.mpr hc⟩
    have htext : (Value.scalar (.number half)).Text (Value.scalar (.number half)).write :=
      Value.text_scalar ⟨l, ⟨['.', '5'], [], by decide +kernel, hdigits rfl, nofun, ⟨rfl, hdigits rfl⟩, rfl⟩, hl⟩
    let ms : List (String × Value) := [("order", .scalar (.number half)), ("height", .ofNat 1), ("len", .ofNat 0),
      ("root", s.root.toValue)]
    have hflaw : s.FlawedAs (.object ms) :=
      .here rfl (@Flawed.replaced _ _ [] _ _ _ _ ⟨Or.inl rfl, half, rfl, hfraction⟩)
    refine hint s (by decide) _ hflaw _ ⟨(Value.object ms).write, [], by decide +kernel, ?_, blank_nil⟩
    apply Value.text_object
    simp only [ms, List.forall_mem_cons]
    exact ⟨htext, hnat, hnat, s.root.text_toValue KeyFormat.textual_int64, List.forall_mem_nil _⟩
  · let ms : List (String × Value) := [("kind", .ofText "leaf"), ("id", .ofNat 0),
      ("keys", keysValue ([] : List Int64)), ("next", .scalar .null), ("kind", .ofText "internal")]
    let v : Value := .object [("order", .ofNat 3), ("height", .ofNat 1), ("len", .ofNat 0), ("root", .object ms)]
    have hflaw : s.root.FlawedAs (.object ms) :=
      .here rfl (@Flawed.repeated _ _ (ms.take 4) [] "kind" (.ofText "leaf") _ (by simp [ms]) (Nat.le_refl 0))
    have htext : v.Text v.write := by
      apply Value.text_object
      simp only [List.forall_mem_cons]
      refine ⟨hnat, hnat, hnat, Value.text_object ?_, List.forall_mem_nil _⟩
      simp only [ms, List.forall_mem_cons]
      exact ⟨Value.text_ofText _, hnat, hkeys, hnull, Value.text_ofText _, List.forall_mem_nil _⟩
    exact hint s (by decide) v (.root hflaw) _ ⟨v.write, [], by decide +kernel, htext, blank_nil⟩
  · let c : Subtree String := .leaf ⟨0, by decide⟩ [] none
    let t : Snapshot String := ⟨3, 2, 0, .branch ⟨1, by decide⟩ [] ([] ++ c :: [])⟩
    let ms : List (String × Value) := [("kind", .ofText "leaf"), ("id", .ofNat 0), ("next", .scalar .null)]
    let r : Value := .object [("kind", .ofText "internal"), ("id", .ofNat 1), ("keys", keysValue ([] : List String)),
      ("children", .array [.object ms])]
    let v : Value := .object [("order", .ofNat 3), ("height", .ofNat 2), ("len", .ofNat 0), ("root", r)]
    have hchild : c.FlawedAs (.object ms) :=
      .here rfl (@Flawed.missing _ _ [("kind", .ofText "leaf"), ("id", .ofNat 0)] [("next", .scalar .null)] "keys" _
        (by decide))
    have htext : v.Text v.write := by
      apply Value.text_object
      simp only [List.forall_mem_cons]
      refine ⟨hnat, hnat, hnat, Value.text_object ?_, List.forall_mem_nil _⟩
      simp only [List.forall_mem_cons]
      refine ⟨Value.text_ofText _, hnat, Subtree.text_keysValue KeyFormat.textual_string [], ?_, List.forall_mem_nil _⟩
      apply Value.text_array
      refine List.forall_mem_singleton.mpr (Value.text_object ?_)
      simp only [ms, List.forall_mem_cons]
      exact ⟨Value.text_ofText _, hnat, hnull, List.forall_mem_nil _⟩
    exact hstring t (by decide) v (.root (.child hchild)) _ ⟨v.write, [], by decide +kernel, htext, blank_nil⟩

/-- An order that is negative, and one with a fraction, both too large for a value: the text is malformed, and not of
another kind. -/
theorem parse_too_large :
    let s : Snapshot Int64 := ⟨3, 1, 0, .leaf ⟨0, by decide⟩ [] none⟩
    let behind := ",\"height\":1,\"len\":0,\"root\":\x7b\"kind\":\"leaf\",\"id\":0,\"keys\":[],\"next\":null\x7d\x7d"
    s.write = "\x7b\"order\":" ++ "3" ++ behind ∧
    Literal.Text ⟨true, ['1'], none, some (false, ['9', '9', '9'])⟩ "-1e999".toList ∧
    Literal.Text ⟨false, ['1'], some ['5'], some (false, ['9', '9', '9'])⟩ "1.5e999".toList ∧
    ∀ order ∈ ["-1e999", "1.5e999"],
      (parse ("\x7b\"order\":" ++ order ++ behind) : Except Defect (Snapshot Int64)) = .error .malformed ∧
        Defect.malformed.category = "syntax" := by
  have hone : Literal.Digits ['1'] := Literal.digits_toDigits 1
  have hfive : Literal.Digits ['5'] := Literal.digits_toDigits 5
  have hnines : Literal.Digits ['9', '9', '9'] := Literal.digits_toDigits 999
  have hexponent : Literal.ExponentText (some (false, ['9', '9', '9'])) ['e', '9', '9', '9'] :=
    ⟨'e', [], rfl, Or.inl rfl, Or.inl rfl, hnines⟩
  refine ⟨by decide +kernel, ?_, ?_, by decide +kernel⟩
  · exact ⟨[], ['e', '9', '9', '9'], rfl, hone, nofun, rfl, hexponent⟩
  · exact ⟨['.', '5'], ['e', '9', '9', '9'], rfl, hone, nofun, ⟨rfl, hfive⟩, hexponent⟩

end Snapshot

end TracedIndex
