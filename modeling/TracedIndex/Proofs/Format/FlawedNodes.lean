import TracedIndex.Proofs.Basic
import TracedIndex.Proofs.Format.Root
import TracedIndex.Proofs.Json.Bounds

/-!
# Nodes with one flaw

A node has a flaw if its own object has one, or that of a node below it. Then its fields do not tell what it is, or it
is a branch one of whose children is no node. So the flaw goes all the way up, and the root is no node either.

* `Subtree.FlawedAs`: the values of a node with one flaw;
* `Subtree.Told`: what is known of a node that its fields tell;
* `Subtree.FlawedAs.ofFields?_eq_none`: the fields of a node with a flaw do not tell it;
* **`Subtree.ofValueWithin?_flawed`**, **`Subtree.asRoot_flawed`**: a node with a flaw is none, and neither is a root.
-/

namespace TracedIndex

open Json

theorem NodeId.ofScalar?_of_outOf {n : Number} (h : n.OutOf UInt32.size) : ofScalar? (.number n) = none := by
  rw [ofScalar?]
  cases hn : Scalar.toNat? (.number n) with
  | none => rfl
  | some m =>
    cases n with
    | real x => cases hn
    | whole i =>
      rw [Scalar.toNat?] at hn
      split at hn
      · next hi =>
        obtain rfl := Option.some.inj hn
        rw [Option.bind_some, ofNat?, dif_neg]
        intro hlt
        refine h i.toNat hlt ?_
        rw [Int.toNat_of_nonneg hi.1]
      · cases hn

variable {K : Type} [KeyFormat K]

namespace Subtree

/-! ## Nodes with a flaw -/

/-- The kind is none, or the number of a node is none. -/
def BadValue (name : String) (v : Value) : Prop :=
  (name = "kind" ∧ ∃ k : String, v = .ofText k ∧ k ≠ "leaf" ∧ k ≠ "internal") ∨
    (name = "id" ∨ name = "next") ∧ ∃ n : Number, v = .scalar (.number n) ∧ n.OutOf UInt32.size

/-- The fields that must be there, if the node has them. -/
def required : List String := ["kind", "id", "keys", "children"]

/-- The value is that of the node, but for one flaw in its object or in that of a node below it. -/
inductive FlawedAs : Subtree K → Value → Prop
  | here {s : Subtree K} {ms ms' : List (String × Value)} (value : s.toValue = .object ms)
    (flaw : Flawed required BadValue ms ms') : FlawedAs s (.object ms')
  | child {id : NodeId} {keys : List K} {before behind : List (Subtree K)} {c : Subtree K} {v : Value}
    (flaw : FlawedAs c v) :
    FlawedAs (.branch id keys (before ++ c :: behind)) (.object [("kind", .ofText "internal"), ("id", id.toValue),
      ("keys", keysValue keys), ("children", .array (toValues before ++ v :: toValues behind))])

theorem nodup_names {s : Subtree K} {ms : List (String × Value)} (h : s.toValue = .object ms) :
    (ms.map Prod.fst).Nodup := by
  cases s with
  | leaf id keys next =>
    rw [toValue] at h
    obtain rfl := Value.object.inj h
    simp
  | branch id keys children =>
    rw [toValue] at h
    obtain rfl := Value.object.inj h
    simp

omit [KeyFormat K] in
theorem depth_of_badValue {name : String} {v : Value} (h : BadValue name v) : v.depth = 0 := by
  rcases h with ⟨-, k, rfl, -⟩ | ⟨-, n, rfl, -⟩ <;> rfl

omit [KeyFormat K] in
theorem idOf?_of_badValue {v : Value} (h : BadValue "id" v) : idOf? v = none := by
  rcases h with ⟨hname, -⟩ | ⟨-, n, rfl, hout⟩
  · simp at hname
  · exact NodeId.ofScalar?_of_outOf hout

omit [KeyFormat K] in
theorem nextOf?_of_badValue {v : Value} (h : BadValue "next" v) : nextOf? v = none := by
  rcases h with ⟨hname, -⟩ | ⟨-, n, rfl, hout⟩
  · simp at hname
  · exact congrArg (Option.map some) (NodeId.ofScalar?_of_outOf hout)

omit [KeyFormat K] in
theorem kindOf?_of_badValue {v : Value} (h : BadValue "kind" v) : Kind.ofValue? v = none := by
  rcases h with ⟨-, k, rfl, hleaf, hinternal⟩ | ⟨hname, -⟩
  · rw [Value.ofText, Kind.ofValue?, Kind.ofName?, if_neg hleaf, if_neg hinternal]
  · simp at hname

/-- A flaw adds no depth. -/
theorem FlawedAs.depth_le [ScalarFormat K] {s : Subtree K} {v : Value} (h : s.FlawedAs v) :
    v.depth ≤ 2 * s.levels := by
  induction h with
  | @here s ms ms' value flaw =>
    rw [← depth_toValue, value, Value.depth, Value.depth]
    apply Nat.succ_le_succ
    apply Value.depthOfMembers_le.mpr
    intro m hm
    obtain ⟨m₀, hm₀, -, hdepth⟩ := flaw.exists_mem (fun _ _ => depth_of_badValue) m hm
    exact hdepth.trans (Value.depthOfMembers_le.mp (Nat.le_refl _) m₀ hm₀)
  | @child id keys before behind c v flaw ih =>
    have hchild {t : Subtree K} (ht : t ∈ before ++ c :: behind) :
        2 * t.levels ≤ 2 * levelsList (before ++ c :: behind) := Nat.mul_le_mul_left 2 (levels_le_of_mem t ht)
    have helements : Value.depthOfElements (toValues before ++ v :: toValues behind) ≤
        2 * levelsList (before ++ c :: behind) := by
      apply Value.depthOfElements_le.mpr
      simp only [toValues_eq, List.forall_mem_append, List.forall_mem_cons, List.forall_mem_map, depth_toValue]
      exact ⟨fun t ht => hchild (by simp [ht]), ih.trans (hchild (by simp)), fun t ht => hchild (by simp [ht])⟩
    simp only [Value.depth, Value.depthOfMembers, Value.ofText, NodeId.toValue, Value.ofNat, depth_keysValue, levels]
    omega

/-! ## No nodes -/

/-- What is known of the fields of a node by their names. -/
structure Told (child? : Value → Option (Subtree K)) (kind : Kind) (ms : List (String × Value)) : Prop where
  id : ∃ v id, field? "id" ms = some (some v) ∧ idOf? v = some id
  keys : ∃ v, field? "keys" ms = some (some v)
  next : kind = .leaf → ∃ o, field? "next" ms = some o ∧ ∀ v, o = some v → ∃ next, nextOf? v = some next
  children : kind = .internal → ∃ v vs children, field? "children" ms = some (some v) ∧ v.elements? = some vs ∧
    vs.mapM child? = some children

omit [KeyFormat K] in
theorem field?_of_requiredField? {name : String} {ms : List (String × Value)} {v : Value}
    (h : requiredField? name ms = some v) : field? name ms = some (some v) := Option.join_eq_some_iff.mp h

theorem told_of_ofFields? {child? : Value → Option (Subtree K)} {kind : Kind} {ms : List (String × Value)}
    {s : Subtree K} (h : ofFields? child? kind (.named ms) = some s) : Told child? kind ms := by
  cases kind with
  | leaf =>
    obtain ⟨i, hi, h⟩ := Option.bind_eq_some_iff.mp h
    obtain ⟨id, hid, h⟩ := Option.bind_eq_some_iff.mp h
    obtain ⟨k, hk, h⟩ := Option.bind_eq_some_iff.mp h
    obtain ⟨keys, -, h⟩ := Option.bind_eq_some_iff.mp h
    obtain ⟨o, ho, h⟩ := Option.bind_eq_some_iff.mp h
    obtain ⟨next, hnext, -⟩ := Option.bind_eq_some_iff.mp h
    refine ⟨⟨i, id, field?_of_requiredField? hi, hid⟩, ⟨k, field?_of_requiredField? hk⟩, fun _ => ⟨o, ho, ?_⟩, nofun⟩
    rintro v rfl
    exact ⟨next, hnext⟩
  | internal =>
    obtain ⟨i, hi, h⟩ := Option.bind_eq_some_iff.mp h
    obtain ⟨id, hid, h⟩ := Option.bind_eq_some_iff.mp h
    obtain ⟨k, hk, h⟩ := Option.bind_eq_some_iff.mp h
    obtain ⟨keys, -, h⟩ := Option.bind_eq_some_iff.mp h
    obtain ⟨v, hv, h⟩ := Option.bind_eq_some_iff.mp h
    obtain ⟨vs, hvs, h⟩ := Option.bind_eq_some_iff.mp h
    obtain ⟨children, hchildren, -⟩ := Option.bind_eq_some_iff.mp h
    exact ⟨⟨i, id, field?_of_requiredField? hi, hid⟩, ⟨k, field?_of_requiredField? hk⟩, nofun,
      fun _ => ⟨v, vs, children, field?_of_requiredField? hv, hvs, hchildren⟩⟩

/-- A node of which all is known has no bad field. -/
theorem Told.not_badField {child? : Value → Option (Subtree K)} {s : Subtree K} {ms : List (String × Value)}
    (h : Told child? s.kind ms) {name : String} (hname : name ∈ s.fields.map Prod.fst) :
    ¬ BadField required BadValue name ms := by
  have hid : ¬ BadField required BadValue "id" ms := by
    obtain ⟨v, id, hfield, hv⟩ := h.id
    refine TracedIndex.not_badField hfield fun hbad => ?_
    rw [idOf?_of_badValue hbad] at hv
    cases hv
  have hkeys : ¬ BadField required BadValue "keys" ms := by
    obtain ⟨v, hfield⟩ := h.keys
    exact TracedIndex.not_badField hfield (by simp [BadValue])
  cases s with
  | leaf id keys next =>
    have hnext : ¬ BadField required BadValue "next" ms := by
      obtain ⟨o, hfield, ho⟩ := h.next rfl
      cases o with
      | none => simp [BadField, required, hfield]
      | some v =>
        obtain ⟨next, hv⟩ := ho v rfl
        refine TracedIndex.not_badField hfield fun hbad => ?_
        rw [nextOf?_of_badValue hbad] at hv
        cases hv
    simp only [fields, List.map_cons, List.map_nil, List.mem_cons, List.not_mem_nil, or_false] at hname
    rcases hname with rfl | rfl | rfl
    · exact hid
    · exact hkeys
    · exact hnext
  | branch id keys children =>
    have hchildren : ¬ BadField required BadValue "children" ms := by
      obtain ⟨v, -, -, hfield, -⟩ := h.children rfl
      exact TracedIndex.not_badField hfield (by simp [BadValue])
    simp only [fields, List.map_cons, List.map_nil, List.mem_cons, List.not_mem_nil, or_false] at hname
    rcases hname with rfl | rfl | rfl
    · exact hid
    · exact hkeys
    · exact hchildren

theorem field?_filter_of_ne {name : String} (h : name ≠ "kind") (ms : List (String × Value)) :
    field? name (ms.filter fun m => m.1 != "kind") = field? name ms := by
  have hfilter : (ms.filter fun m => m.1 != "kind").filter (fun m => m.1 == name) =
      ms.filter fun m => m.1 == name := by
    rw [List.filter_filter]
    refine List.filter_congr fun m _ => ?_
    by_cases hm : m.1 = name
    · simp [hm, h]
    · simp [hm]
  rw [field?, hfilter, ← field?.eq_1]

/-- **A node with a flaw has no kind, or its other fields do not tell what it is**, if no child with a flaw is taken
for one. -/
theorem FlawedAs.ofFields?_eq_none {s : Subtree K} {v : Value} (h : s.FlawedAs v) : ∃ ms, v = .object ms ∧
    ∀ child? : Value → Option (Subtree K), (∀ (c : Subtree K) w, c.FlawedAs w → child? w = none) →
      ∀ k kind, field? "kind" ms = some (some k) → Kind.ofValue? k = some kind →
        ofFields? child? kind (.named (ms.filter fun m => m.1 != "kind")) = none := by
  cases h with
  | @here s ms ms' value flaw =>
    refine ⟨ms', rfl, fun child? _ k kind hk hkind => ?_⟩
    obtain ⟨name, hname, hbad, hothers⟩ := flaw.exists_badField (nodup_names value)
    rw [toValue_eq] at value
    obtain rfl := Value.object.inj value
    rcases List.mem_cons.mp hname with rfl | hname
    · refine absurd hbad (not_badField hk fun hbad => ?_)
      rw [kindOf?_of_badValue hbad] at hkind
      cases hkind
    have hne : name ≠ "kind" := by
      obtain ⟨m, hm, rfl⟩ := List.mem_map.mp hname
      exact s.ne_kind_of_mem_fields m hm
    -- the kind is as it was
    rw [hothers "kind" hne.symm, field?_cons_self _ s.ne_kind_of_mem_fields] at hk
    obtain rfl : Value.ofText s.kind.name = k := by simpa using hk
    obtain rfl : s.kind = kind := by simpa [Value.ofText, Kind.ofValue?, Kind.ofName?_name] using hkind
    rw [Option.eq_none_iff_forall_ne_some]
    intro t ht
    refine (told_of_ofFields? ht).not_badField hname ?_
    rw [BadField, field?_filter_of_ne hne]
    exact hbad
  | @child id keys before behind c v flaw =>
    refine ⟨_, rfl, fun child? hchild k kind hk hkind => ?_⟩
    rw [field?_cons_self _ (by simp)] at hk
    obtain rfl : Value.ofText "internal" = k := by simpa using hk
    obtain rfl : Kind.internal = kind := by simpa [Value.ofText, Kind.ofValue?, Kind.ofName?] using hkind
    rw [Option.eq_none_iff_forall_ne_some]
    intro t ht
    obtain ⟨v', vs, children, hfield, hvs, hmap⟩ := (told_of_ofFields? ht).children rfl
    rw [field?_filter_of_ne (by decide), field?_cons_of_ne (by simp), field?_cons_of_ne (by simp),
      field?_cons_of_ne (by simp), field?_cons_self _ (by simp)] at hfield
    obtain rfl : Value.array (toValues before ++ v :: toValues behind) = v' := by simpa using hfield
    obtain rfl := Option.some.inj hvs
    rw [mapM_eq_none_of_mem (x := v) (by simp) (hchild c v flaw)] at hmap
    cases hmap

/-- **A node with a flaw is none**, as deep as it may be. -/
theorem ofValueWithin?_flawed {levels : Nat} {s : Subtree K} {v : Value} (h : s.FlawedAs v) :
    ofValueWithin? (K := K) levels v = none := by
  induction levels generalizing s v with
  | zero =>
    obtain ⟨ms, rfl, -⟩ := h.ofFields?_eq_none
    rfl
  | succ levels ih =>
    obtain ⟨ms, rfl, hnone⟩ := h.ofFields?_eq_none
    rw [Option.eq_none_iff_forall_ne_some]
    intro t ht
    obtain ⟨k, hk, ht⟩ := Option.bind_eq_some_iff.mp ht
    obtain ⟨kind, hkind, ht⟩ := Option.bind_eq_some_iff.mp ht
    rw [hnone _ (fun c w hw => ih hw) k kind (field?_of_requiredField? hk) hkind] at ht
    cases ht

/-! ## The root -/

/-- **A root with a flaw is refused.** -/
theorem asRoot_flawed {depth : Nat} {s : Subtree K} {v : Value} (h : s.FlawedAs v) (t : Subtree K) :
    asRoot depth v ≠ .ok t := by
  obtain ⟨ms, rfl, hnone⟩ := h.ofFields?_eq_none
  intro ht
  rw [asRoot] at ht
  obtain ⟨p, hp, ht⟩ := bind_eq_ok_iff.mp ht
  obtain ⟨kind, hkind, ht⟩ := Option.bind_eq_some_iff.mp (orMismatched_eq_ok_iff.mp ht)
  obtain ⟨k, hk, hvalue⟩ := kind_of_foldlM hp hkind
  have hmembers := members_of_foldlM hp
  rw [List.reverse_nil, List.nil_append] at hmembers
  rw [hmembers, hnone ofValue? (fun c w hw => ofValueWithin?_flawed hw) k kind hk hvalue] at ht
  cases ht

end Subtree

end TracedIndex
