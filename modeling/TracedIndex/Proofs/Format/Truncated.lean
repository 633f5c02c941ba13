import TracedIndex.Proofs.Format.Snapshot
import TracedIndex.Proofs.IndexData.Text
import TracedIndex.Proofs.Json.BrokenValues
import TracedIndex.Proofs.Json.Near
import TracedIndex.Proofs.Subtree.Lists

/-!
# Texts that are cut off

The text of index data and that of a snapshot is an object, so its last character is the brace that ends it. What is
left when the end of the text is cut off is refused because it ends too early, and for no other reason: each part that
is whole is read, and the part that is cut is read up to the end.

* `Json.Scalar.breakable_real`: the texts of finite numbers;
* `IndexData.read_fallsShort`, `Subtree.read_fallsShort`, `Snapshot.read_fallsShort`: the three kinds of objects;
* **`Format.refuses_cut_texts`**: index data and snapshots.
-/

namespace TracedIndex

open Json

/-! ## Numbers -/

namespace Json.Scalar

/-- **The text of a finite number is read as a number, and so is what is left of it**, unless it is too short. -/
theorem breakable_real {x : Binary64} (hx : x.isFinite) :
    (number (.real (Number.reread x))).Breakable (number (.real x)).write fun s => s.toBinary64?.isSome := by
  obtain ⟨l, y, h⟩ := Number.exists_readNear hx
  refine breakable_number (Number.readsAs_reread hx) h.text fun l' hl' => ?_
  obtain ⟨m, hm⟩ := Option.isSome_iff_exists.mp (hl'.isSome_value? h.digits_lt h.exponent_le)
  exact ⟨m, hm, rfl⟩

end Json.Scalar

/-! ## Index data -/

namespace IndexData

theorem opens_real {x : Binary64} (hx : x.isFinite) : (Value.scalar (.number (.real x))).Opens := by
  obtain ⟨c, cs, hwrite, hspace, -, -, hclose⟩ := (Scalar.breakable_real hx).exists_cons
  exact ⟨c, cs, hwrite, hspace, hclose⟩

theorem handles_list {xs : List Binary64} (h : ∀ x ∈ xs, x.isFinite) :
    readList.Handles (listValue xs).write (xs.map Number.reread) where
  reads := by
    have hgives := readArrayOf_gives (readAs_gives Scalar.toBinary64?) ((listValue xs).shownAs Number.reread)
    have hlist := asList_shownAs (f := Number.reread) xs
    rw [asList, if_pos h] at hlist
    rw [hlist] at hgives
    exact hgives.reads (spelled_listValue_shownAs fun x _ hx => Number.readsAs_reread hx)
  breaksOff := by
    apply Reader.FallsShort.breaksOff
    apply readArrayOf_fallsShort
    · exact List.forall_mem_map.mpr fun x hx => opens_real (h x hx)
    · intro v hv
      obtain ⟨x, hx, rfl⟩ := List.mem_map.mp hv
      exact ⟨_, (Scalar.breakable_real (h x hx)).handles_readAs rfl fun _ hs => hs⟩

theorem handlesMembers_entries {es : List (String × List Binary64)} (h : ∀ e ∈ es, ∀ x ∈ e.2, x.isFinite)
    (d : IndexData) : HandlesMembers readEntry d (es.map fun e => (e.1, listValue e.2)) := by
  induction es generalizing d with
  | nil => trivial
  | cons e es ih =>
    obtain ⟨he, hes⟩ := List.forall_mem_cons.mp h
    exact ⟨_, (handles_list he).afterColon.map fun ys => d.insert e.1 ys, ih hes _⟩

/-- **The text of index data that breaks off is found to be too short**, if all numbers are finite. -/
theorem read_fallsShort {d : IndexData} (h : d.Finite) : IndexData.read.FallsShort d.toValue.write := by
  intro p fuel hp hfuel
  rw [toValue, Value.write] at hp
  rcases hp.cases_cons with rfl | ⟨q, rfl, hq⟩
  · rfl
  · exact readObject_broken (handlesMembers_entries h empty) hq (Nat.le_of_succ_le hfuel)

end IndexData

/-! ## Keys and nodes -/

namespace KeyFormat

/-- The text of every key may break off anywhere. -/
def Breakable (K : Type) [KeyFormat K] : Prop := ∀ k : K, (toValue k).Breakable

theorem breakable_int64 : Breakable Int64 := fun n =>
  Value.breakable_scalar (Scalar.breakable_whole n.le_toInt (by have := n.toInt_lt; omega))

theorem breakable_string : Breakable String := fun s =>
  Value.breakable_scalar (P := fun _ => True) (Scalar.breakable_string s)

end KeyFormat

variable {K : Type} [KeyFormat K]

theorem breakable_keysValue (h : KeyFormat.Breakable K) (keys : List K) : (keysValue keys).Breakable :=
  Value.breakable_array (List.forall_mem_map.mpr fun k _ => h k)

namespace Subtree

theorem breakable_id (id : NodeId) : id.toValue.Breakable :=
  Value.breakable_scalar (Scalar.breakable_nat (Nat.lt_trans id.index_lt (by decide)))

theorem breakable_next (next : Option NodeId) : (next.elim (.scalar .null) NodeId.toValue : Value).Breakable := by
  cases next with
  | none => exact Value.breakable_scalar (P := fun _ => True) Scalar.breakable_null
  | some id => exact breakable_id id

/-- The values of the fields may break off, if those of the children may. -/
theorem breakable_fields (hkey : KeyFormat.Breakable K) {s : Subtree K}
    (hchildren : ∀ id keys children, s = .branch id keys children → ∀ c ∈ children, c.toValue.Breakable) :
    ∀ m ∈ s.fields, m.2.Breakable := by
  cases s with
  | leaf id keys next =>
    simp only [fields, List.forall_mem_cons]
    exact ⟨breakable_id id, breakable_keysValue hkey keys, breakable_next next, List.forall_mem_nil _⟩
  | branch id keys children =>
    have harray : (Value.array (toValues children)).Breakable := by
      rw [toValues_eq]
      exact Value.breakable_array (List.forall_mem_map.mpr (hchildren id keys children rfl))
    simp only [fields, List.forall_mem_cons]
    exact ⟨breakable_id id, breakable_keysValue hkey keys, harray, List.forall_mem_nil _⟩

/-- **The text of a node may break off anywhere.** -/
theorem breakable_toValue (hkey : KeyFormat.Breakable K) (s : Subtree K) : s.toValue.Breakable := by
  have hnode {s : Subtree K} (h : ∀ m ∈ s.fields, m.2.Breakable) : s.toValue.Breakable := by
    rw [toValue_eq]
    apply Value.breakable_object
    exact List.forall_mem_cons.mpr
      ⟨Value.breakable_scalar (P := fun _ => True) (Scalar.breakable_string s.kind.name), h⟩
  induction s using induction with
  | leaf id keys next => exact hnode (breakable_fields hkey nofun)
  | branch id keys children ih =>
    apply hnode
    apply breakable_fields hkey
    rintro _ _ _ ⟨⟩
    exact ih

/-! ## The root -/

omit [KeyFormat K] in
theorem handles_kind (depth : Nat) (kind : Kind) (ms : List (String × Value)) :
    (readMember depth "kind" ⟨none, ms⟩).HandlesBehind (Value.ofText kind.name).write ⟨some kind, ms⟩ := by
  have hstring := Scalar.breakable_string (P := fun _ => False) kind.name
  have hread : Kind.read.Handles (Value.ofText kind.name).write kind :=
    hstring.handles_readAs (Kind.ofName?_name kind) fun _ h => h.elim
  unfold readMember
  simp only [if_true]
  exact hread.readOnce.map fun kind => (⟨some kind, ms⟩ : Partial)

omit [KeyFormat K] in
theorem handlesMembers_fields {ms : List (String × Value)} {depth : Nat} (hname : ∀ m ∈ ms, m.1 ≠ "kind")
    (h : ∀ m ∈ ms, m.2.Breakable) (hdepth : ∀ m ∈ ms, m.2.depth ≤ depth) (p : Partial) :
    HandlesMembers (readMember depth) p ms := by
  induction ms generalizing p with
  | nil => trivial
  | cons m ms ih =>
    obtain ⟨hne, hnames⟩ := List.forall_mem_cons.mp hname
    obtain ⟨hm, hms⟩ := List.forall_mem_cons.mp h
    obtain ⟨hd, hds⟩ := List.forall_mem_cons.mp hdepth
    refine ⟨{ p with members := m :: p.members }, ?_, ih hnames hms hds _⟩
    unfold readMember
    simp only [if_neg hne]
    exact ((hm.handles hd).afterColon.map fun v => (m.1, v) :: p.members).map fun ms => { p with members := ms }

/-- **The text of a root node that breaks off is found to be too short.** -/
theorem read_fallsShort [ScalarFormat K] (hkey : KeyFormat.Breakable K) {s : Subtree K} {depth : Nat}
    (hdepth : 2 * s.levels ≤ depth + 1) :
    (Subtree.read depth : Reader (Subtree K)).FallsShort s.toValue.write := by
  have hdepths : ∀ m ∈ s.fields, m.2.depth ≤ depth := by
    apply Value.depthOfMembers_le.mp
    have := s.depth_fields
    omega
  have hfields := breakable_fields hkey (s := s) fun _ _ _ _ c _ => breakable_toValue hkey c
  have hmembers : HandlesMembers (readMember depth) ⟨none, []⟩ (("kind", .ofText s.kind.name) :: s.fields) :=
    ⟨_, handles_kind depth s.kind [], handlesMembers_fields s.ne_kind_of_mem_fields hfields hdepths _⟩
  intro p fuel hp hfuel
  rw [toValue_eq, Value.write] at hp
  rcases hp.cases_cons with rfl | ⟨q, rfl, hq⟩
  · rfl
  · have hread := readObject_broken hmembers hq (Nat.le_of_succ_le hfuel)
    rw [Subtree.read, skipSpace_cons (show isSpace '\x7b' = false by decide)]
    simp only [Reader.filterMap, hread]
    rfl

end Subtree

/-! ## Snapshots -/

namespace Snapshot

theorem handles_readNat {n : Nat} (hn : n < UInt64.size) : readNat.Handles (Value.ofNat n).write n := by
  have hvalue : Scalar.toNat? (.number (.whole n)) = some n := by
    rw [Scalar.toNat?, if_pos ⟨by omega, by omega⟩, Int.toNat_natCast]
  exact (Scalar.breakable_nat hn).handles_readAs hvalue fun _ hs => hs

theorem handles_readRoot [ScalarFormat K] (hfaithful : ∀ k : K, KeyFormat.Faithful k)
    (hkey : KeyFormat.Breakable K) {root : Subtree K} (hlevels : root.levels ≤ 63) :
    readRoot.Handles root.toValue.write root where
  reads := by
    have hall := root.all_of_forall hfaithful
    have hgives := Subtree.read_gives (maxDepth - 2) hall
    rw [if_pos (by rw [maxDepth]; omega)] at hgives
    exact hgives.reads (Subtree.spelled_toValue hall)
  breaksOff := (Subtree.read_fallsShort hkey (by rw [maxDepth]; omega)).breaksOff

/-- **The text of a snapshot that breaks off is found to be too short**, unless it nests too deep. -/
theorem read_fallsShort [ScalarFormat K] (hfaithful : ∀ k : K, KeyFormat.Faithful k)
    (hkey : KeyFormat.Breakable K) {s : Snapshot K} (hs : s.Sized) (hlevels : s.root.levels ≤ 63) :
    (Snapshot.read : Reader (Snapshot K)).FallsShort s.toValue.write := by
  apply readRecord_fallsShort
  refine ⟨⟨some s.order, none, none, none⟩, ?_, ⟨some s.order, some s.height, none, none⟩, ?_,
    ⟨some s.order, some s.height, some s.len, none⟩, ?_, ⟨some s.order, some s.height, some s.len, some s.root⟩, ?_,
    trivial⟩
  · exact (handles_readNat hs.1).readOnce.map fun n => (⟨some n, none, none, none⟩ : Partial K)
  · exact (handles_readNat hs.2.1).readOnce.map fun n => (⟨some s.order, some n, none, none⟩ : Partial K)
  · exact (handles_readNat hs.2.2).readOnce.map fun n => (⟨some s.order, some s.height, some n, none⟩ : Partial K)
  · exact (handles_readRoot hfaithful hkey hlevels).readOnce.map
      fun root => (⟨some s.order, some s.height, some s.len, some root⟩ : Partial K)

end Snapshot

/-! ## Whole texts -/

namespace Format

/-- Whatever is left of the text when its end is cut off, it is refused because it ends too early. -/
def RefusesCuts {α : Type} (parse : String → Except Defect α) (text : String) : Prop :=
  ∀ front : String, front.toList <+: text.toList → front ≠ text →
    ∃ d, parse front = .error d ∧ d.category = "eof"

theorem refusesCuts_of_fallsShort {α : Type} {r : Reader α} {t : List Char} (h : r.FallsShort t) :
    RefusesCuts r.parse (.ofList t) := by
  intro front hfront hne
  rw [String.toList_ofList] at hfront
  exact ⟨.truncated, h.parse hfront hne, rfl⟩

/-- **A text whose end is cut off is refused because it ends too early**, wherever the cut is: in a number, in a
word, in a string or an escape, between two parts, or in front of the last brace. -/
theorem refuses_cut_texts :
    (∀ d : IndexData, d.Finite → RefusesCuts IndexData.parse d.write) ∧
    (∀ s : Snapshot Int64, s.Sized → s.root.levels ≤ 63 →
      RefusesCuts (Snapshot.parse : String → Except Defect (Snapshot Int64)) s.write) ∧
    (∀ s : Snapshot String, s.Sized → s.root.levels ≤ 63 →
      RefusesCuts (Snapshot.parse : String → Except Defect (Snapshot String)) s.write) := by
  refine ⟨fun d hd => ?_, fun s hs hlevels => ?_, fun s hs hlevels => ?_⟩
  · exact refusesCuts_of_fallsShort (IndexData.read_fallsShort hd)
  · exact refusesCuts_of_fallsShort
      (Snapshot.read_fallsShort KeyFormat.faithful_int64 KeyFormat.breakable_int64 hs hlevels)
  · exact refusesCuts_of_fallsShort
      (Snapshot.read_fallsShort KeyFormat.faithful_string KeyFormat.breakable_string hs hlevels)

/-- Nothing is left, or the cut is in an escape, behind the mark of an exponent, in an exponent, in an integer, in
`null`, or in front of the last brace. -/
theorem refuses_cut_texts_anywhere :
    (∀ front ∈ ["", "\x7b\"\\", "\x7b\"\\n\":[7e", "\x7b\"\\n\":[7e+2", "\x7b\"\\n\":[7e+23]"],
      ∃ d, IndexData.parse front = .error d ∧ d.category = "eof") ∧
    (∀ behind ∈ ["1", "12,\"root\":\x7b\"kind\":\"leaf\",\"id\":0,\"keys\":[-1"],
      ∃ d, (Snapshot.parse ("\x7b\"order\":3,\"height\":1,\"len\":" ++ behind) :
        Except Defect (Snapshot Int64)) = .error d ∧ d.category = "eof") ∧
    ∃ d, (Snapshot.parse ("\x7b\"order\":3,\"height\":1,\"len\":1," ++
      "\"root\":\x7b\"kind\":\"leaf\",\"id\":0,\"keys\":[\"é\"],\"next\":nul") :
        Except Defect (Snapshot String)) = .error d ∧ d.category = "eof" := by
  obtain ⟨hdata, hint, hstring⟩ := refuses_cut_texts
  refine ⟨fun front hfront => ?_, fun behind hbehind => ?_, ?_⟩
  · let d : IndexData := ⟨[("\n", [⟨0x44e287626ee52198⟩])], by decide⟩
    have hcut : front.toList <+: d.write.toList ∧ front ≠ d.write := by
      revert front
      decide +kernel
    exact hdata d (by decide +kernel) front hcut.1 hcut.2
  · let s : Snapshot Int64 := ⟨3, 1, 12, .leaf ⟨0, by decide⟩ [-15] none⟩
    have hcut : ("\x7b\"order\":3,\"height\":1,\"len\":" ++ behind).toList <+: s.write.toList ∧
        "\x7b\"order\":3,\"height\":1,\"len\":" ++ behind ≠ s.write := by
      revert behind
      decide +kernel
    exact hint s (by decide) (by decide) _ hcut.1 hcut.2
  · let s : Snapshot String := ⟨3, 1, 1, .leaf ⟨0, by decide⟩ ["é"] none⟩
    exact hstring s (by decide) (by decide) _ (by decide +kernel) (by decide +kernel)

end Format

end TracedIndex
