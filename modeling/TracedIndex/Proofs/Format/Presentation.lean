import Mathlib.Data.List.Permutation
import TracedIndex.Proofs.Format.RoundTrip
import TracedIndex.Proofs.Json.Skipped
import TracedIndex.Proofs.Json.Texts
import TracedIndex.Proofs.Subtree.Lists

/-!
# Presentations of a snapshot

The text of a snapshot may be laid out in other ways than it is written. White space may stand between the
parts, the fields of an object may come in any order, others that the object does not know may stand among
them, and a missing next leaf need not be told.

* `Subtree.PresentedBy`, `Snapshot.PresentedBy`: the values and the texts that present a node and a snapshot;
* `Subtree.ofValueWithin?_presented`: a value that presents a node stands for it;
* `Subtree.read_presented`: the root node, read from its text;
* **`Snapshot.parse_presented`**: every presentation of a snapshot is read as the snapshot.
-/

namespace TracedIndex

open Json

namespace KeyFormat

/-- Every key is written as one of the texts of its value. -/
def Textual (K : Type) [KeyFormat K] : Prop := ∀ k : K, (toValue k).Text (toValue k).write

theorem textual_int64 : Textual Int64 := fun n =>
  Value.text_whole n.le_toInt (by have := n.toInt_lt; omega)

theorem textual_string : Textual String := Value.text_ofText

end KeyFormat

variable {K : Type} [KeyFormat K]

namespace Subtree

/-- The value presents the node: its fields come in any order, a missing next leaf perhaps not at all, among
others that a node of its kind does not know. -/
inductive PresentedBy : Subtree K → Value → Prop
  | leaf {id : NodeId} {keys : List K} {next : Option NodeId} {last others ms : List (String × Value)}
    (told : last = [("next", next.elim (.scalar .null) NodeId.toValue)] ∨ next = none ∧ last = [])
    (unknown : ∀ m ∈ others, m.1 ∉ ["kind", "id", "keys", "next"])
    (fields : ms.Perm (("kind", .ofText "leaf") :: ("id", id.toValue) :: ("keys", keysValue keys) ::
      (last ++ others))) :
    PresentedBy (.leaf id keys next) (.object ms)
  | branch {id : NodeId} {keys : List K} {children : List (Subtree K)} {vs : List Value}
    {others ms : List (String × Value)} (length : children.length = vs.length)
    (nodes : ∀ p ∈ children.zip vs, PresentedBy p.1 p.2)
    (unknown : ∀ m ∈ others, m.1 ∉ ["kind", "id", "keys", "children"])
    (fields : ms.Perm (("kind", .ofText "internal") :: ("id", id.toValue) :: ("keys", keysValue keys) ::
      ("children", .array vs) :: others)) :
    PresentedBy (.branch id keys children) (.object ms)

/-! ## Fields in any order -/

section

variable {name : String} {ms ms' : List (String × Value)}

omit [KeyFormat K]

/-- **The order of the members does not matter** for a field that comes at most once. -/
theorem field?_perm (h : ms.Perm ms') : field? name ms = field? name ms' := by
  have hfilter := h.filter fun m => m.1 == name
  unfold field?
  generalize ms.filter (fun m => m.1 == name) = l at hfilter
  generalize ms'.filter (fun m => m.1 == name) = l' at hfilter
  match l, l', hfilter with
  | [], _, hfilter => rw [hfilter.nil_eq]
  | [m], _, hfilter => rw [← List.singleton_perm.mp hfilter]
  | _ :: _ :: _, _ :: _ :: _, _ => rfl
  | _ :: _ :: _, [], hfilter => cases hfilter.length_eq
  | _ :: _ :: _, [_], hfilter => cases hfilter.length_eq

theorem requiredField?_perm (h : ms.Perm ms') : requiredField? name ms = requiredField? name ms' := by
  rw [requiredField?, requiredField?, field?_perm h]

end

theorem ofFields?_perm {ms ms' : List (String × Value)} (child? : Value → Option (Subtree K)) (kind : Kind)
    (h : ms.Perm ms') : ofFields? child? kind (.named ms) = ofFields? child? kind (.named ms') := by
  cases kind <;> simp only [ofFields?, requiredField?_perm h, field?_perm h]

/-! ## Nodes as values -/

variable (hfaithful : ∀ k : K, KeyFormat.Faithful k)

include hfaithful

/-- **A value that presents a node has its kind, and other members that tell the node** if the children can be
told from values that nest less. -/
theorem PresentedBy.exists_fields {s : Subtree K} {v : Value} (h : s.PresentedBy v) :
    ∃ ms fields, v = .object ms ∧ ms.Perm (("kind", .ofText s.kind.name) :: fields) ∧
      (∀ m ∈ fields, m.1 ≠ "kind") ∧ ∀ child? : Value → Option (Subtree K),
        (∀ c w, w.depth < v.depth → c.PresentedBy w → child? w = some c) →
          ofFields? child? s.kind (.named fields) = some s := by
  cases h with
  | @leaf id keys next last others ms told unknown fields =>
    have hkind : ∀ m ∈ others, m.1 ≠ "kind" := by grind
    have hothers : ∀ m ∈ others, m.1 ≠ "id" ∧ m.1 ≠ "keys" ∧ m.1 ≠ "next" := by grind
    rcases told with rfl | ⟨rfl, rfl⟩
    · refine ⟨ms, _, rfl, fields, by simpa using hkind, fun child? _ => ?_⟩
      rw [List.singleton_append, kind, ofFields?_leaf _ _ _ _ hothers, idOf?_toValue,
        keysOf?_keysValue fun k _ => hfaithful k, nextOf?_next]
      rfl
    · refine ⟨ms, _, rfl, fields, by simpa using hkind, fun child? _ => ?_⟩
      rw [List.nil_append, kind, ofFields?_last _ _ _ hothers, idOf?_toValue,
        keysOf?_keysValue fun k _ => hfaithful k]
      rfl
  | @branch id keys children vs others ms length nodes unknown fields =>
    have hkind : ∀ m ∈ others, m.1 ≠ "kind" := by grind
    have hothers : ∀ m ∈ others, m.1 ≠ "id" ∧ m.1 ≠ "keys" ∧ m.1 ≠ "children" := by grind
    refine ⟨ms, _, rfl, fields, by simpa using hkind, fun child? hchild => ?_⟩
    have hdepth : ∀ w ∈ vs, w.depth < (Value.object ms).depth := by
      intro w hw
      have hmem : ("children", .array vs) ∈ ms := fields.mem_iff.mpr (by simp)
      have harray := Value.depthOfMembers_le.mp (Nat.le_refl _) _ hmem
      have helement := Value.depthOfElements_le.mp (Nat.le_refl _) w hw
      simp only [Value.depth] at harray ⊢
      omega
    have hchildren : vs.mapM child? = some children := mapM_of_zip length fun p hp =>
      hchild p.1 p.2 (hdepth p.2 (List.of_mem_zip hp).2) (nodes p hp)
    rw [kind, ofFields?_internal _ _ _ _ hothers, idOf?_toValue, keysOf?_keysValue fun k _ => hfaithful k,
      Value.elements?]
    simp only [bind, Option.bind_some, hchildren]
    rfl

theorem ofValueWithin?_presented {s : Subtree K} {v : Value} (h : s.PresentedBy v) {levels : Nat}
    (hlevels : v.depth ≤ levels) : ofValueWithin? levels v = some s := by
  induction levels generalizing s v with
  | zero =>
    obtain ⟨ms, -, rfl, -⟩ := h.exists_fields hfaithful
    simp [Value.depth] at hlevels
  | succ levels ih =>
    obtain ⟨ms, fields, rfl, hperm, hkind, hnode⟩ := h.exists_fields hfaithful
    have hothers : (ms.filter fun m => m.1 != "kind").Perm fields := by
      have hfilter := hperm.filter fun m => m.1 != "kind"
      have hall : fields.filter (fun m => m.1 != "kind") = fields := by simpa using hkind
      rwa [List.filter_cons_of_neg (by simp), hall] at hfilter
    rw [ofValueWithin?, requiredField?_perm hperm, requiredField?_cons_self _ hkind]
    simp only [bind, Option.bind_some, Value.ofText, Kind.ofValue?, Kind.ofName?_name,
      ofFields?_perm _ s.kind hothers]
    exact hnode _ fun c w hw hc => ih hc (by omega)

/-- **A value that presents a node stands for it.** -/
theorem ofValue?_presented {s : Subtree K} {v : Value} (h : s.PresentedBy v) : ofValue? v = some s :=
  ofValueWithin?_presented hfaithful h (Nat.le_refl _)

/-! ## The root -/

omit hfaithful

/-- The kind may stand anywhere among the other members. -/
theorem foldlM_collect_kind {depth : Nat} (kind : Kind) {before behind : List (String × Value)}
    (hkind : ∀ m ∈ before ++ behind, m.1 ≠ "kind") (hdepth : ∀ m ∈ before ++ behind, m.2.depth ≤ depth) :
    (before ++ ("kind", .ofText kind.name) :: behind).foldlM (collect depth) ⟨none, []⟩ =
      .ok ⟨some kind, (before ++ behind).reverse⟩ := by
  obtain ⟨hbefore, hbehind⟩ := List.forall_mem_append.mp hkind
  obtain ⟨hbefore', hbehind'⟩ := List.forall_mem_append.mp hdepth
  have htold (p : Partial) (hp : p.kind = none) : collect depth p ("kind", .ofText kind.name) =
      .ok { p with kind := some kind } := by
    rw [collect, if_pos rfl, Value.ofText, asScalar, Scalar.toText?, Option.bind_some, Kind.ofName?_name,
      hp]
    rfl
  rw [List.foldlM_append, foldlM_collect depth none before [] hbefore,
    if_pos (Value.depthOfMembers_le.mpr hbefore')]
  simp only [bind, Except.bind, List.foldlM_cons, htold, foldlM_collect depth _ behind _ hbehind,
    if_pos (Value.depthOfMembers_le.mpr hbehind'), List.reverse_append, List.append_nil]

include hfaithful

/-- **The root is read from every text of a value that presents it**, unless it nests too many arrays and
objects. -/
theorem read_presented {depth : Nat} {s : Subtree K} {v : Value} (h : s.PresentedBy v)
    (hdepth : v.depth ≤ depth + 1) {text : List Char} (htext : v.Text text) :
    (Subtree.read depth).Reads text (.ok s) := by
  obtain ⟨ms, fields, rfl, hperm, hkind, hnode⟩ := h.exists_fields hfaithful
  obtain ⟨before, behind, rfl⟩ := List.append_of_mem (hperm.mem_iff.mpr List.mem_cons_self)
  have hothers : (before ++ behind).Perm fields := (List.perm_middle.symm.trans hperm).cons_inv
  have hdepths : ∀ m ∈ before ++ behind, m.2.depth ≤ depth := fun m hm =>
    Value.depthOfMembers_le.mp (Nat.le_of_succ_le_succ hdepth) m (by grind)
  have hread := read_gives_object (K := K) depth (before ++ ("kind", .ofText s.kind.name) :: behind)
  have hnode := hnode ofValue? fun c w _ hc => ofValue?_presented hfaithful hc
  rw [foldlM_collect_kind s.kind (fun m hm => hkind m (hothers.mem_iff.mp hm)) hdepths, Except.bind, ofPartial?,
    List.reverse_reverse] at hread
  simp only [bind, Option.bind_some, ofFields?_perm _ s.kind hothers, hnode] at hread
  exact hread.reads htext.spelled

/-! ## The written value -/

omit hfaithful

/-- **The value that a node is written as presents it.** -/
theorem presentedBy_toValue (s : Subtree K) : s.PresentedBy s.toValue := by
  induction s using induction with
  | leaf id keys next => exact .leaf (.inl rfl) (List.forall_mem_nil _) (.refl _)
  | branch id keys children ih =>
    refine .branch (by rw [toValues_eq, List.length_map]) (fun p hp => ?_) (List.forall_mem_nil _) (.refl _)
    rw [toValues_eq, ← List.map_id children, List.map_map, List.zip_map'] at hp
    obtain ⟨c, hc, rfl⟩ := List.mem_map.mp hp
    exact ih c (by simpa using hc)

theorem text_keysValue (h : KeyFormat.Textual K) (keys : List K) :
    (keysValue keys).Text (keysValue keys).write :=
  Value.text_array (List.forall_mem_map.mpr fun k _ => h k)

theorem text_id (id : NodeId) : id.toValue.Text id.toValue.write :=
  Value.text_ofNat (Nat.lt_trans id.index_lt (by decide))

theorem text_toValue (hkey : KeyFormat.Textual K) (s : Subtree K) : s.toValue.Text s.toValue.write := by
  induction s using induction with
  | leaf id keys next =>
    have hnext : (next.elim (.scalar .null) NodeId.toValue : Value).Text
        (next.elim (.scalar .null) NodeId.toValue : Value).write := by
      cases next with
      | none => exact Value.text_scalar rfl
      | some id => exact text_id id
    rw [toValue]
    refine Value.text_object ?_
    simp only [List.forall_mem_cons]
    exact ⟨Value.text_ofText _, text_id id, text_keysValue hkey keys, hnext, List.forall_mem_nil _⟩
  | branch id keys children ih =>
    have hchildren : ∀ v ∈ toValues children, v.Text v.write := by
      rw [toValues_eq]
      exact List.forall_mem_map.mpr ih
    rw [toValue]
    refine Value.text_object ?_
    simp only [List.forall_mem_cons]
    exact ⟨Value.text_ofText _, text_id id, text_keysValue hkey keys, Value.text_array hchildren,
      List.forall_mem_nil _⟩

end Subtree

namespace Snapshot

/-! ## Snapshots -/

/-- The names and texts of the fields of a snapshot, in any order, among others that it does not know. -/
inductive FieldsText (s : Snapshot K) : List (String × List Char) → Prop
  | intro {o h l r : List Char} {v : Value} {others ts : List (String × List Char)}
    (order : (Value.ofNat s.order).Text o) (height : (Value.ofNat s.height).Text h)
    (len : (Value.ofNat s.len).Text l) (root : s.root.PresentedBy v) (text : v.Text r)
    (depth : v.depth < maxDepth)
    (unknown : ∀ t ∈ others, t.1 ∉ ["order", "height", "len", "root"] ∧ WellFormed t.2)
    (fields : ts.Perm (("order", o) :: ("height", h) :: ("len", l) :: ("root", r) :: others)) :
    FieldsText s ts

/-- The text presents the snapshot: it is an object of its fields, with white space wherever it may stand. -/
def PresentedBy (s : Snapshot K) (text : String) : Prop :=
  ∃ sp ts t sp', text.toList = sp ++ '\x7b' :: (t ++ sp') ∧ Blank sp ∧ Blank sp' ∧
    MembersText Quoted.Text ts t ∧ s.FieldsText ts

/-- What a field that tells of the snapshot adds to those read before. -/
def collectTold (s : Snapshot K) (p : Partial K) (t : String × List Char) : Except Defect (Partial K) :=
  if t.1 = "order" then (once p.order (.ok s.order)).map fun n => { p with order := some n }
  else if t.1 = "height" then (once p.height (.ok s.height)).map fun n => { p with height := some n }
  else if t.1 = "len" then (once p.len (.ok s.len)).map fun n => { p with len := some n }
  else if t.1 = "root" then (once p.root (.ok s.root)).map fun n => { p with root := some n }
  else .ok p

/-- The field tells of the snapshot what its name says. -/
structure Tells (s : Snapshot K) (t : String × List Char) : Prop where
  order : t.1 = "order" → (readNat).Reads t.2 (.ok s.order)
  height : t.1 = "height" → (readNat).Reads t.2 (.ok s.height)
  len : t.1 = "len" → (readNat).Reads t.2 (.ok s.len)
  root : t.1 = "root" → readRoot.Reads t.2 (.ok s.root)
  others : t.1 ∉ ["order", "height", "len", "root"] → skipValue.Reads t.2 (.ok ())

theorem readField_told {s : Snapshot K} {t : String × List Char} (h : s.Tells t) (p : Partial K) :
    (readField t.1 p).ReadsBehind t.2 (s.collectTold p t) := by
  unfold readField collectTold
  split
  · next hname => exact ((h.order hname).readOnce p.order).map fun n => { p with order := some n }
  split
  · next hname => exact ((h.height hname).readOnce p.height).map fun n => { p with height := some n }
  split
  · next hname => exact ((h.len hname).readOnce p.len).map fun n => { p with len := some n }
  split
  · next hname => exact ((h.root hname).readOnce p.root).map fun n => { p with root := some n }
  · next horder hheight hlen hroot =>
    exact (h.others (by simp [horder, hheight, hlen, hroot])).afterColon.map fun _ => p

/-- The fields of the snapshot, but for those still to come. -/
def but (s : Snapshot K) (names : List String) : Partial K where
  order := if "order" ∈ names then none else some s.order
  height := if "height" ∈ names then none else some s.height
  len := if "len" ∈ names then none else some s.len
  root := if "root" ∈ names then none else some s.root

omit [KeyFormat K] in
/-- A field that does not come again is read, or does not matter. -/
theorem collectTold_but (s : Snapshot K) (t : String × List Char) {names : List String}
    (h : t.1 ∈ ["order", "height", "len", "root"] → t.1 ∉ names) :
    s.collectTold (s.but (t.1 :: names)) t = .ok (s.but names) := by
  obtain ⟨name, text⟩ := t
  unfold collectTold
  split
  · next hname => obtain rfl : name = "order" := hname; simp [but, once, Except.map, h]
  split
  · next hname => obtain rfl : name = "height" := hname; simp [but, once, Except.map, h]
  split
  · next hname => obtain rfl : name = "len" := hname; simp [but, once, Except.map, h]
  split
  · next hname => obtain rfl : name = "root" := hname; simp [but, once, Except.map, h]
  · next horder hheight hlen hroot => simp [but, Ne.symm horder, Ne.symm hheight, Ne.symm hlen, Ne.symm hroot]

omit [KeyFormat K] in
theorem foldlM_collectTold (s : Snapshot K) {ts : List (String × List Char)}
    (h : ts.Pairwise fun t u => t.1 = u.1 → t.1 ∉ ["order", "height", "len", "root"]) :
    ts.foldlM s.collectTold (s.but (ts.map Prod.fst)) = .ok (s.but []) := by
  induction ts with
  | nil => rfl
  | cons t ts ih =>
    obtain ⟨ht, hts⟩ := List.pairwise_cons.mp h
    have hfirst : t.1 ∈ ["order", "height", "len", "root"] → t.1 ∉ ts.map Prod.fst := fun hname hmem => by
      obtain ⟨u, hu, heq⟩ := List.mem_map.mp hmem
      exact ht u hu heq.symm hname
    have hstep := s.collectTold_but t hfirst
    rw [List.foldlM_cons, List.map_cons, hstep]
    exact ih hts

theorem FieldsText.foldlM_collectTold {s : Snapshot K} {ts : List (String × List Char)} (h : s.FieldsText ts) :
    ts.foldlM s.collectTold ⟨none, none, none, none⟩ = .ok (s.but []) := by
  obtain @⟨_, _, _, _, _, others, _, -, -, -, -, -, -, unknown, fields⟩ := h
  have hstart : s.but (ts.map Prod.fst) = ⟨none, none, none, none⟩ := by
    have hmem : ∀ name ∈ ["order", "height", "len", "root"], name ∈ ts.map Prod.fst := by
      intro name hname
      rw [(fields.map Prod.fst).mem_iff]
      simp only [List.map_cons, List.mem_cons, List.not_mem_nil, or_false] at hname ⊢
      tauto
    simp only [List.forall_mem_cons] at hmem
    simp [but, hmem]
  have hpairwise : ts.Pairwise fun t u => t.1 = u.1 → t.1 ∉ ["order", "height", "len", "root"] := by
    refine (fields.pairwise_iff fun {t u} h heq => heq ▸ h heq.symm).mpr ?_
    have hothers : others.Pairwise fun t u => t.1 = u.1 → t.1 ∉ ["order", "height", "len", "root"] :=
      List.pairwise_of_forall_mem_list fun t ht _ _ _ => (unknown t ht).1
    simp only [List.pairwise_cons, List.forall_mem_cons, hothers, and_true]
    grind
  rw [← hstart]
  exact Snapshot.foldlM_collectTold s hpairwise

theorem FieldsText.tells (hfaithful : ∀ k : K, KeyFormat.Faithful k) {s : Snapshot K} (hs : s.Sized)
    {ts : List (String × List Char)} (h : s.FieldsText ts) : ∀ t ∈ ts, s.Tells t := by
  obtain ⟨order, height, len, root, text, depth, unknown, fields⟩ := h
  have hnat {n : Nat} (hn : n < UInt64.size) {t : List Char} (ht : (Value.ofNat n).Text t) :
      readNat.Reads t (.ok n) := by
    have hread := readAs_gives Scalar.toNat? (.ofNat n)
    rw [asScalar_ofNat hn] at hread
    exact hread.reads ht.spelled
  have hdepth : _ ≤ maxDepth - 2 + 1 := Nat.le_sub_one_of_lt depth
  have hroot := Subtree.read_presented hfaithful root hdepth text
  intro t ht
  have hmem := fields.mem_iff.mp ht
  simp only [List.mem_cons] at hmem
  obtain rfl | rfl | rfl | rfl | hothers := hmem
  · constructor <;> simp [hnat hs.1 order]
  · constructor <;> simp [hnat hs.2.1 height]
  · constructor <;> simp [hnat hs.2.2 len]
  · constructor <;> simp [hroot, readRoot]
  · obtain ⟨hname, hwell⟩ := unknown t hothers
    simp only [List.mem_cons, List.not_mem_nil, or_false, not_or] at hname
    constructor <;> simp [hname, skipValue_reads hwell]

/-- Every presentation of a snapshot is read as the snapshot. -/
theorem parse_of_presentedBy (hfaithful : ∀ k : K, KeyFormat.Faithful k) {s : Snapshot K} (hs : s.Sized)
    {text : String} (h : s.PresentedBy text) : parse text = .ok s := by
  obtain ⟨sp, ts, t, sp', htext, hsp, hsp', ht, hts⟩ := h
  let S (i : String × List Char) (u : List Char) : Prop := u = i.2
  have hmember : ∀ i ∈ ts, ∀ p u, S i u → (readField i.1 p).ReadsBehind u (s.collectTold p i) := by
    rintro i hi p _ rfl
    exact readField_told (hts.tells hfaithful hs i hi) p
  have hfuel : t.length ≤ text.toList.length := by
    rw [htext]
    simp only [List.length_append, List.length_cons]
    omega
  have hread := readObject_of_texts (fun _ _ fuel rest hq => Quoted.spelled_of_text hq fuel rest) sp' hmember
    (List.forall₂_same.mpr fun _ _ => ⟨rfl, rfl⟩) ht hfuel ⟨none, none, none, none⟩
  rw [hts.foldlM_collectTold] at hread
  have hobject : (Snapshot.read : Reader (Snapshot K)) text.toList.length text.toList = .ok (s, sp') := by
    rw [htext] at hread ⊢
    rw [Snapshot.read, readRecord, skipSpace_append_cons hsp (show isSpace '\x7b' = false by decide)]
    simp only [Reader.filterMap, hread]
    simp [but, ofPartial?, Except.map, bind, Except.bind, pure, Except.pure]
  rw [parse, Reader.parse, hobject]
  simp only [bind, Except.bind, skipSpace_of_blank hsp']
  rfl

/-! ## The written text -/

/-- The written text of a snapshot is one of its presentations, unless it nests too deep. -/
theorem presentedBy_write [ScalarFormat K] (hkey : KeyFormat.Textual K) {s : Snapshot K} (hs : s.Sized)
    (hlevels : s.root.levels ≤ 63) : s.PresentedBy s.write := by
  have hdepth : s.root.toValue.depth < maxDepth := by
    rw [Subtree.depth_toValue, maxDepth]
    omega
  have hfields := FieldsText.intro (s := s) (Value.text_ofNat hs.1) (Value.text_ofNat hs.2.1)
    (Value.text_ofNat hs.2.2) s.root.presentedBy_toValue (s.root.text_toValue hkey) hdepth
    (List.forall_mem_nil _) (.refl _)
  have htext := Value.membersText_writeMembers [("order", .ofNat s.order), ("height", .ofNat s.height),
    ("len", .ofNat s.len), ("root", s.root.toValue)]
  refine ⟨[], _, _, [], ?_, blank_nil, blank_nil, htext, hfields⟩
  rw [write, String.toList_ofList, List.append_nil]
  rfl

/-- **Every presentation of a snapshot is read as the snapshot**, and what it is written as is one of them,
unless this nests too many arrays and objects. -/
theorem parse_presented :
    (∀ s : Snapshot Int64, s.Sized →
      (s.root.levels ≤ 63 → s.PresentedBy s.write) ∧ ∀ text, s.PresentedBy text → parse text = .ok s) ∧
    (∀ s : Snapshot String, s.Sized →
      (s.root.levels ≤ 63 → s.PresentedBy s.write) ∧ ∀ text, s.PresentedBy text → parse text = .ok s) := by
  refine ⟨fun s hs => ⟨presentedBy_write KeyFormat.textual_int64 hs, fun text h => ?_⟩,
    fun s hs => ⟨presentedBy_write KeyFormat.textual_string hs, fun text h => ?_⟩⟩
  · exact parse_of_presentedBy KeyFormat.faithful_int64 hs h
  · exact parse_of_presentedBy KeyFormat.faithful_string hs h

/-- The fields of both objects turned round, so that the kind comes last, among others that are not known; the
next leaf is not told. -/
theorem parse_presented_reversed :
    parse (" \x7b\"u\":[[]],\"root\":\x7b\"children\":null,\"keys\":[5],\"id\":0,\"kind\":\"leaf\"\x7d," ++
      "\"len\":1,\"height\":1,\"order\":3\x7d\n") =
      .ok (⟨3, 1, 1, .leaf ⟨0, by decide⟩ [5] none⟩ : Snapshot Int64) := by
  let s : Snapshot Int64 := ⟨3, 1, 1, .leaf ⟨0, by decide⟩ [5] none⟩
  let leaf : List (String × Value) := [("children", .scalar .null), ("keys", keysValue [(5 : Int64)]),
    ("id", .ofNat 0), ("kind", .ofText "leaf")]
  let ms : List (String × Value) := [("u", .array [.array []]), ("root", .object leaf), ("len", .ofNat 1),
    ("height", .ofNat 1), ("order", .ofNat 3)]
  have hleaf : s.root.PresentedBy (.object leaf) :=
    .leaf (.inr ⟨rfl, rfl⟩) (by decide) (List.reverse_perm leaf).symm
  have htext : (Value.object leaf).Text (Value.object leaf).write := by
    refine Value.text_object ?_
    simp only [leaf, List.forall_mem_cons]
    exact ⟨Value.text_scalar rfl, Subtree.text_keysValue KeyFormat.textual_int64 [5],
      Value.text_ofNat (by decide), Value.text_ofText _, List.forall_mem_nil _⟩
  have hnone : ElementsText [] [']'] := ⟨[], rfl, blank_nil⟩
  have hone : ElementsText [['[', ']']] ['[', ']', ']'] := ⟨[], rfl, blank_nil⟩
  have hwell : WellFormed ['[', '[', ']', ']'] :=
    .array blank_nil hone (List.forall_mem_singleton.mpr (.array blank_nil hnone (List.forall_mem_nil _)))
  have hfields : s.FieldsText (ms.map fun m => (m.1, m.2.write)) :=
    .intro (Value.text_ofNat (by decide)) (Value.text_ofNat (by decide)) (Value.text_ofNat (by decide)) hleaf
      htext (by decide) (List.forall_mem_singleton.mpr ⟨by decide, hwell⟩) (List.reverse_perm _).symm
  exact (parse_presented.1 s (by decide)).2 _ ⟨[' '], _, Value.writeMembers ms, ['\n'], by decide +kernel,
    List.forall_mem_singleton.mpr rfl, List.forall_mem_singleton.mpr rfl, Value.membersText_writeMembers ms,
    hfields⟩

instance {α : Type} (r : Except Defect α) (d : Defect) : Decidable (r = .error d) :=
  match r with
  | .ok _ => isFalse nofun
  | .error e => decidable_of_iff (e = d) ⟨congrArg _, Except.error.inj⟩

/-- Not every well-formed field may be added to a node: a number must not be too large, and neither a string nor
the name may hold half of a surrogate pair. -/
theorem parse_refuses_fields :
    let s : Snapshot Int64 := ⟨3, 1, 0, .leaf ⟨0, by decide⟩ [] none⟩
    let front := "\x7b\"order\":3,\"height\":1,\"len\":0," ++
      "\"root\":\x7b\"kind\":\"leaf\",\"id\":0,\"keys\":[],\"next\":null"
    s.write = front ++ "\x7d\x7d" ∧ WellFormed "1e999".toList ∧ WellFormed "\"\\ud800\"".toList ∧
      ∀ field ∈ ["\"u\":1e999", "\"u\":\"\\ud800\"", "\"\\ud800\":0"],
        (parse (front ++ "," ++ field ++ "\x7d\x7d") : Except Defect (Snapshot Int64)) = .error .malformed := by
  refine ⟨by decide +kernel, ?_, ?_, ?_⟩
  · have hone : Literal.Digits ['1'] := Literal.digits_toDigits 1
    have hnines : Literal.Digits ['9', '9', '9'] := Literal.digits_toDigits 999
    have hliteral : Literal.Text ⟨false, ['1'], none, some (false, ['9', '9', '9'])⟩
        ['1', 'e', '9', '9', '9'] :=
      ⟨[], ['e', '9', '9', '9'], rfl, hone, by decide, rfl, 'e', [], rfl, .inl rfl, .inl rfl, hnines⟩
    exact .scalar blank_nil (.number hliteral)
  · exact .scalar blank_nil (.string (.code (n := 0xd800) rfl .close))
  · simp only [List.forall_mem_cons]
    refine ⟨?_, ?_, ?_, List.forall_mem_nil _⟩ <;> decide +kernel

end Snapshot

end TracedIndex
