import TracedIndex.Format.Snapshot
import TracedIndex.Proofs.Format.Key

/-!
# Snapshots read back

Each level of a tree nests two brackets, the object of a node and the array of its children, or of its keys
at the last level. The objects of the nodes are told apart by their kind, and each holds all that the node
holds, so a snapshot is read back unless its nodes nest too deep.

* `Subtree.All`: a property of all keys of a subtree;
* `Subtree.depth_toValue`: two brackets for each level;
* `Subtree.ofValueWithin?_toValue`: a node is the one that its value stands for;
* `Subtree.read_gives`: the root, read from its text;
* **`Snapshot.parse_write`**: a snapshot is read back, or nests too deep.
-/

namespace TracedIndex

open Json

variable {K : Type}

namespace Subtree

mutual

/-- All keys and separators have the property. -/
def All (P : K → Prop) : Subtree K → Prop
  | .leaf _ keys _ => ∀ k ∈ keys, P k
  | .branch _ keys children => (∀ k ∈ keys, P k) ∧ AllList P children

def AllList (P : K → Prop) : List (Subtree K) → Prop
  | [] => True
  | s :: ss => All P s ∧ AllList P ss

end

mutual

theorem all_of_forall {P : K → Prop} (h : ∀ k, P k) : ∀ s : Subtree K, s.All P
  | .leaf .. => fun k _ => h k
  | .branch _ _ children => ⟨fun k _ => h k, allList_of_forall h children⟩

theorem allList_of_forall {P : K → Prop} (h : ∀ k, P k) : ∀ ss : List (Subtree K), AllList P ss
  | [] => trivial
  | s :: ss => ⟨all_of_forall h s, allList_of_forall h ss⟩

end

variable [KeyFormat K]

/-! ## Fields -/

namespace Kind

def name : Kind → String
  | leaf => "leaf"
  | internal => "internal"

theorem ofName?_name (kind : Kind) : ofName? kind.name = some kind := by cases kind <;> rfl

end Kind

def kind : Subtree K → Kind
  | .leaf .. => .leaf
  | .branch .. => .internal

/-- The members of the object of a node, but for its kind. -/
def fields : Subtree K → List (String × Value)
  | .leaf id keys next =>
    [("id", id.toValue), ("keys", keysValue keys), ("next", next.elim (.scalar .null) NodeId.toValue)]
  | .branch id keys children =>
    [("id", id.toValue), ("keys", keysValue keys), ("children", .array (toValues children))]

theorem toValue_eq (s : Subtree K) : s.toValue = .object (("kind", .ofText s.kind.name) :: s.fields) := by
  cases s <;> simp only [toValue, fields, kind, Kind.name]

theorem toValues_eq (ss : List (Subtree K)) : toValues ss = ss.map toValue := by
  induction ss with
  | nil => rfl
  | cons s ss ih => rw [toValues, ih, List.map_cons]

/-- No field is named as the kind is. -/
theorem ne_kind_of_mem_fields (s : Subtree K) : ∀ m ∈ s.fields, m.1 ≠ "kind" := by
  cases s <;> simp [fields]

/-! ## Depth -/

theorem depth_next (next : Option NodeId) :
    (next.elim (.scalar .null) NodeId.toValue : Value).depth = 0 := by cases next <;> rfl

mutual

/-- **Every level nests two brackets.** -/
theorem depth_toValue [ScalarFormat K] : ∀ s : Subtree K, s.toValue.depth = 2 * s.levels
  | .leaf id keys next => by
    simp only [toValue, Value.depth, Value.depthOfMembers, Value.ofText, NodeId.toValue, Value.ofNat,
      depth_keysValue, depth_next, levels]
    rfl
  | .branch id keys children => by
    have := depthOfElements_toValues children
    simp only [toValue, Value.depth, Value.depthOfMembers, Value.ofText, NodeId.toValue, Value.ofNat,
      depth_keysValue, levels, this]
    omega

theorem depthOfElements_toValues [ScalarFormat K] : ∀ ss : List (Subtree K),
    Value.depthOfElements (toValues ss) = 2 * levelsList ss
  | [] => rfl
  | s :: ss => by
    rw [toValues, Value.depthOfElements, depth_toValue s, depthOfElements_toValues ss, levelsList]
    omega

end

theorem depth_fields [ScalarFormat K] (s : Subtree K) :
    Value.depthOfMembers s.fields + 1 = 2 * s.levels := by
  rw [← depth_toValue, toValue_eq, Value.depth, Value.depthOfMembers]
  simp [Value.ofText, Value.depth]

/-! ## Nodes as values -/

theorem spelled_next (next : Option NodeId) : (next.elim (.scalar .null) NodeId.toValue : Value).Spelled
    (next.elim (.scalar .null) NodeId.toValue : Value).write := by
  cases next with
  | none => exact Value.spelled_scalar Scalar.spelled_null
  | some id => exact id.spelled_toValue

mutual

theorem spelled_toValue : ∀ {s : Subtree K}, s.All KeyFormat.Faithful → s.toValue.Spelled s.toValue.write
  | .leaf id keys next, h => by
    rw [toValue]
    refine Value.spelled_object ?_
    simp only [List.forall_mem_cons]
    exact ⟨Value.spelled_scalar (Scalar.spelled_string _), id.spelled_toValue, spelled_keysValue h,
      spelled_next next, nofun⟩
  | .branch id keys children, h => by
    rw [toValue]
    refine Value.spelled_object ?_
    simp only [List.forall_mem_cons]
    exact ⟨Value.spelled_scalar (Scalar.spelled_string _), id.spelled_toValue, spelled_keysValue h.1,
      Value.spelled_array (spelled_toValues h.2), nofun⟩

theorem spelled_toValues : ∀ {ss : List (Subtree K)}, AllList KeyFormat.Faithful ss →
    ∀ v ∈ toValues ss, v.Spelled v.write
  | [], _ => nofun
  | _ :: _, h => List.forall_mem_cons.mpr ⟨spelled_toValue h.1, spelled_toValues h.2⟩

end

theorem idOf?_toValue (id : NodeId) : idOf? id.toValue = some id := by
  rw [NodeId.toValue, Value.ofNat, idOf?, id.ofScalar?_index]

theorem nextOf?_next (next : Option NodeId) :
    nextOf? (next.elim (.scalar .null) NodeId.toValue) = some next := by
  cases next with
  | none => rfl
  | some id =>
    rw [Option.elim_some, NodeId.toValue, Value.ofNat, nextOf?, ← Value.ofNat, ← NodeId.toValue,
      idOf?_toValue, Option.map_some]
    nofun

theorem keysOf?_keysValue {keys : List K} (h : ∀ k ∈ keys, KeyFormat.Faithful k) :
    keysOf? (keysValue keys) = some keys := by
  rw [keysOf?, keysValue, Value.elements?]
  exact mapM_ofValue?_keys h

/-! ## Members by name -/

section

variable {name : String} {m : String × Value} {ms : List (String × Value)}

omit [KeyFormat K]

theorem field?_of_ne (h : ∀ m ∈ ms, m.1 ≠ name) : field? name ms = some none := by
  have hnone : ms.filter (fun m => m.1 == name) = [] := by simpa using h
  rw [field?, hnone]

theorem field?_cons_self (v : Value) (h : ∀ m ∈ ms, m.1 ≠ name) :
    field? name ((name, v) :: ms) = some (some v) := by
  have hnone : ms.filter (fun m => m.1 == name) = [] := by simpa using h
  rw [field?, List.filter_cons_of_pos (by simp), hnone]

theorem field?_cons_of_ne (h : m.1 ≠ name) : field? name (m :: ms) = field? name ms := by
  rw [field?, field?, List.filter_cons_of_neg (by simpa using h)]

theorem requiredField?_cons_self (v : Value) (h : ∀ m ∈ ms, m.1 ≠ name) :
    requiredField? name ((name, v) :: ms) = some v := by
  rw [requiredField?, field?_cons_self v h]
  rfl

theorem requiredField?_cons_of_ne (h : m.1 ≠ name) :
    requiredField? name (m :: ms) = requiredField? name ms := by
  rw [requiredField?, requiredField?, field?_cons_of_ne h]

end

section

variable (child? : Value → Option (Subtree K)) (i k v : Value) {others : List (String × Value)}

/-- The fields of a leaf, and others that do not matter. -/
theorem ofFields?_leaf (h : ∀ m ∈ others, m.1 ≠ "id" ∧ m.1 ≠ "keys" ∧ m.1 ≠ "next") :
    ofFields? child? .leaf (.named (("id", i) :: ("keys", k) :: ("next", v) :: others)) =
      (do pure (.leaf (← idOf? i) (← keysOf? k) (← nextOf? v))) := by
  have hid : ∀ m ∈ others, m.1 ≠ "id" := fun m hm => (h m hm).1
  have hkeys : ∀ m ∈ others, m.1 ≠ "keys" := fun m hm => (h m hm).2.1
  have hnext : ∀ m ∈ others, m.1 ≠ "next" := fun m hm => (h m hm).2.2
  rw [ofFields?, requiredField?_cons_self _ (by simpa using hid), requiredField?_cons_of_ne (by simp),
    requiredField?_cons_self _ (by simpa using hkeys), field?_cons_of_ne (by simp), field?_cons_of_ne (by simp),
    field?_cons_self _ hnext]
  rfl

/-- A leaf that does not tell the next one has none. -/
theorem ofFields?_last (h : ∀ m ∈ others, m.1 ≠ "id" ∧ m.1 ≠ "keys" ∧ m.1 ≠ "next") :
    ofFields? child? .leaf (.named (("id", i) :: ("keys", k) :: others)) =
      (do pure (.leaf (← idOf? i) (← keysOf? k) none)) := by
  have hid : ∀ m ∈ others, m.1 ≠ "id" := fun m hm => (h m hm).1
  have hkeys : ∀ m ∈ others, m.1 ≠ "keys" := fun m hm => (h m hm).2.1
  have hnext : ∀ m ∈ others, m.1 ≠ "next" := fun m hm => (h m hm).2.2
  rw [ofFields?, requiredField?_cons_self _ (by simpa using hid), requiredField?_cons_of_ne (by simp),
    requiredField?_cons_self _ hkeys, field?_of_ne (by simpa using hnext)]
  rfl

/-- The fields of a branch, and others that do not matter. -/
theorem ofFields?_internal (h : ∀ m ∈ others, m.1 ≠ "id" ∧ m.1 ≠ "keys" ∧ m.1 ≠ "children") :
    ofFields? child? .internal (.named (("id", i) :: ("keys", k) :: ("children", v) :: others)) =
      (do pure (.branch (← idOf? i) (← keysOf? k) (← (← v.elements?).mapM child?))) := by
  have hid : ∀ m ∈ others, m.1 ≠ "id" := fun m hm => (h m hm).1
  have hkeys : ∀ m ∈ others, m.1 ≠ "keys" := fun m hm => (h m hm).2.1
  have hchildren : ∀ m ∈ others, m.1 ≠ "children" := fun m hm => (h m hm).2.2
  rw [ofFields?, requiredField?_cons_self _ (by simpa using hid), requiredField?_cons_of_ne (by simp),
    requiredField?_cons_self _ (by simpa using hkeys), requiredField?_cons_of_ne (by simp),
    requiredField?_cons_of_ne (by simp), requiredField?_cons_self _ hchildren]
  rfl

end

/-- **The fields of a node tell what it is**, if the children can be told. -/
theorem ofFields?_fields {child? : Value → Option (Subtree K)} {s : Subtree K}
    (h : s.All KeyFormat.Faithful)
    (hchildren : ∀ id keys children, s = .branch id keys children →
      (toValues children).mapM child? = some children) :
    ofFields? child? s.kind (.named s.fields) = some s := by
  cases s with
  | leaf id keys next =>
    rw [kind, fields, ofFields?_leaf _ _ _ _ (List.forall_mem_nil _), idOf?_toValue, keysOf?_keysValue h,
      nextOf?_next]
    rfl
  | branch id keys children =>
    rw [kind, fields, ofFields?_internal _ _ _ _ (List.forall_mem_nil _), idOf?_toValue,
      keysOf?_keysValue h.1, Value.elements?]
    simp only [bind, Option.bind_some, hchildren id keys children rfl]
    rfl

omit [KeyFormat K] in
theorem all_of_mem {P : K → Prop} {ss : List (Subtree K)} (h : AllList P ss) : ∀ s ∈ ss, s.All P := by
  induction ss with
  | nil => nofun
  | cons s ss ih => exact List.forall_mem_cons.mpr ⟨h.1, ih h.2⟩

omit [KeyFormat K] in
theorem allList_of_mem {P : K → Prop} {ss : List (Subtree K)} (h : ∀ s ∈ ss, s.All P) : AllList P ss := by
  induction ss with
  | nil => trivial
  | cons s ss ih => exact ⟨h s List.mem_cons_self, ih fun t ht => h t (List.mem_cons_of_mem _ ht)⟩

omit [KeyFormat K] in
theorem levels_le_of_mem {ss : List (Subtree K)} : ∀ s ∈ ss, s.levels ≤ levelsList ss := by
  induction ss with
  | nil => nofun
  | cons s ss ih =>
    exact List.forall_mem_cons.mpr ⟨Nat.le_max_left _ _, fun t ht =>
      Nat.le_trans (ih t ht) (Nat.le_max_right _ _)⟩

/-- **A node is the one that its value stands for**, if it may have as many levels. -/
theorem ofValueWithin?_toValue {levels : Nat} {s : Subtree K} (h : s.All KeyFormat.Faithful)
    (hlevels : s.levels ≤ levels) : ofValueWithin? levels s.toValue = some s := by
  induction levels generalizing s with
  | zero => cases s <;> simp [Subtree.levels] at hlevels
  | succ levels ih =>
    have hfields : ofFields? (ofValueWithin? levels) s.kind (.named s.fields) = some s := by
      refine ofFields?_fields h fun id keys children hs => ?_
      subst hs
      rw [toValues_eq]
      exact mapM_map_eq_pure fun c hc => ih (all_of_mem h.2 c hc)
        (Nat.le_trans (levels_le_of_mem c hc) (Nat.le_of_succ_le_succ hlevels))
    have hothers :
        (("kind", .ofText s.kind.name) :: s.fields).filter (fun m => m.1 != "kind") = s.fields := by
      simpa using s.ne_kind_of_mem_fields
    rw [toValue_eq, ofValueWithin?, requiredField?_cons_self _ s.ne_kind_of_mem_fields, hothers]
    simp only [bind, Option.bind_some, Value.ofText, Kind.ofValue?, Kind.ofName?_name, hfields]

/-- The node that a value of a node stands for. -/
theorem ofValue?_toValue [ScalarFormat K] {s : Subtree K} (h : s.All KeyFormat.Faithful) :
    ofValue? s.toValue = some s :=
  ofValueWithin?_toValue h (by rw [depth_toValue]; omega)

/-! ## The root -/

/-- What a member adds to those read before. -/
def collect (depth : Nat) (p : Partial) (m : String × Value) : Except Defect Partial :=
  if m.1 = "kind" then
    (once p.kind (asScalar (fun s => s.toText?.bind Kind.ofName?) m.2)).map
      fun kind => { p with kind := some kind }
  else ((m.2.within depth).map fun v => (m.1, v) :: p.members).map fun ms => { p with members := ms }

omit [KeyFormat K] in
theorem readMember_gives (depth : Nat) (m : String × Value) (p : Partial) :
    (readMember depth m.1 p).GivesBehind m.2 (collect depth p m) := by
  unfold readMember collect
  split
  · exact ((readAs_gives (fun s => s.toText?.bind Kind.ofName?) m.2).readOnce p.kind).map
      fun kind => { p with kind := some kind }
  · exact (Value.readMember_gives (Value.read_gives depth m.2) m.1 p.members).map
      fun ms => { p with members := ms }

omit [KeyFormat K] in
theorem foldlM_collect (depth : Nat) (kind : Option Kind) (ms acc : List (String × Value))
    (h : ∀ m ∈ ms, m.1 ≠ "kind") : ms.foldlM (collect depth) ⟨kind, acc⟩ =
      if Value.depthOfMembers ms ≤ depth then .ok ⟨kind, ms.reverse ++ acc⟩ else .error .malformed := by
  induction ms generalizing acc with
  | nil => rfl
  | cons m ms ih =>
    obtain ⟨hm, hms⟩ := List.forall_mem_cons.mp h
    rw [List.foldlM_cons, collect, if_neg hm, Value.within]
    by_cases hv : m.2.depth ≤ depth
    · rw [if_pos hv]
      refine (ih (m :: acc) hms).trans ?_
      simp [Value.depthOfMembers, hv]
    · rw [if_neg hv, if_neg (by simp [Value.depthOfMembers, hv])]
      rfl

theorem read_gives_object (depth : Nat) (ms : List (String × Value)) :
    (Subtree.read depth : Reader (Subtree K)).Gives (.object ms)
      ((ms.foldlM (collect depth) ⟨none, []⟩).bind fun p => orMismatched (ofPartial? p)) := by
  rintro text fuel rest ⟨sp, t, rfl, hsp, ht⟩ hfuel hrest
  simp only [List.length_append, List.length_cons] at hfuel
  rw [Subtree.read, List.append_assoc, List.cons_append,
    skipSpace_append_cons hsp (show isSpace '\x7b' = false by decide)]
  exact readObject_filterMap_eq (fun m _ p => readMember_gives depth m p) ht (by omega)

/-- The object of a root node is read by its fields, unless these nest too many arrays and objects. -/
theorem read_gives_fields (depth : Nat) (kind : Kind) {ms : List (String × Value)}
    (hms : ∀ m ∈ ms, m.1 ≠ "kind") :
    (Subtree.read depth : Reader (Subtree K)).Gives (.object (("kind", .ofText kind.name) :: ms))
      (if Value.depthOfMembers ms ≤ depth then orMismatched (ofFields? ofValue? kind (.named ms))
        else .error .malformed) := by
  have hfields : (("kind", Value.ofText kind.name) :: ms).foldlM (collect depth) ⟨none, []⟩ =
      if Value.depthOfMembers ms ≤ depth then .ok ⟨some kind, ms.reverse⟩ else .error .malformed := by
    rw [List.foldlM_cons, collect, if_pos rfl, Value.ofText, asScalar, Scalar.toText?, Option.bind_some,
      Kind.ofName?_name, ← List.append_nil ms.reverse]
    exact foldlM_collect depth (some kind) ms [] hms
  have hread := read_gives_object (K := K) depth (("kind", Value.ofText kind.name) :: ms)
  rw [hfields] at hread
  split at hread
  · next hle =>
    rw [if_pos hle]
    rwa [Except.bind, ofPartial?, List.reverse_reverse] at hread
  · next hgt =>
    rw [if_neg hgt]
    exact hread

/-- **The root is read back**, unless its values nest too many arrays and objects. -/
theorem read_gives [ScalarFormat K] (depth : Nat) {s : Subtree K} (h : s.All KeyFormat.Faithful) :
    (Subtree.read depth).Gives s.toValue
      (if 2 * s.levels ≤ depth + 1 then .ok s else .error .malformed) := by
  have hnode : ofFields? ofValue? s.kind (.named s.fields) = some s :=
    ofFields?_fields h fun id keys children hs => by
      subst hs
      rw [toValues_eq]
      exact mapM_map_eq_pure fun c hc => ofValue?_toValue (all_of_mem h.2 c hc)
  have hread := read_gives_fields (K := K) depth s.kind s.ne_kind_of_mem_fields
  rw [← toValue_eq, hnode] at hread
  simp only [← depth_fields, Nat.add_le_add_iff_right]
  exact hread

end Subtree

namespace Snapshot

variable [KeyFormat K]

/-! ## Snapshots -/

/-- What a field adds to those read before, where `root` tells what a root node is read as. -/
def collect (root : Value → Except Defect (Subtree K)) (p : Partial K) (m : String × Value) :
    Except Defect (Partial K) :=
  if m.1 = "order" then
    (once p.order (asScalar Scalar.toNat? m.2)).map fun n => { p with order := some n }
  else if m.1 = "height" then
    (once p.height (asScalar Scalar.toNat? m.2)).map fun n => { p with height := some n }
  else if m.1 = "len" then
    (once p.len (asScalar Scalar.toNat? m.2)).map fun n => { p with len := some n }
  else (once p.root (root m.2)).map fun s => { p with root := some s }

theorem readField_gives {root : Value → Except Defect (Subtree K)} {m : String × Value}
    (hname : m.1 = "order" ∨ m.1 = "height" ∨ m.1 = "len" ∨ m.1 = "root")
    (hroot : m.1 = "root" → readRoot.Gives m.2 (root m.2)) (p : Partial K) :
    (readField m.1 p).GivesBehind m.2 (collect root p m) := by
  have hnat := readAs_gives Scalar.toNat? m.2
  unfold readField collect
  split
  · exact (hnat.readOnce p.order).map fun n => { p with order := some n }
  split
  · exact (hnat.readOnce p.height).map fun n => { p with height := some n }
  split
  · exact (hnat.readOnce p.len).map fun n => { p with len := some n }
  · next horder hheight hlen =>
    have hm := ((hname.resolve_left horder).resolve_left hheight).resolve_left hlen
    simp only [hm, if_true]
    exact ((hroot hm).readOnce p.root).map fun s => { p with root := some s }

theorem read_gives (root : Value → Except Defect (Subtree K)) {ms : List (String × Value)}
    (hname : ∀ m ∈ ms, m.1 = "order" ∨ m.1 = "height" ∨ m.1 = "len" ∨ m.1 = "root")
    (hroot : ∀ m ∈ ms, m.1 = "root" → readRoot.Gives m.2 (root m.2)) :
    (Snapshot.read : Reader (Snapshot K)).Gives (.object ms)
      ((ms.foldlM (collect root) ⟨none, none, none, none⟩).bind fun p => orMismatched (ofPartial? p)) :=
  readRecord_gives fun m hm p => readField_gives (hname m hm) (hroot m hm) p

omit [KeyFormat K] in
/-- The four fields, put together. -/
theorem foldlM_collect {o h l r : Value} {order height len : Nat} (ho : asScalar Scalar.toNat? o = .ok order)
    (hh : asScalar Scalar.toNat? h = .ok height) (hl : asScalar Scalar.toNat? l = .ok len)
    (root : Value → Except Defect (Subtree K)) :
    [("order", o), ("height", h), ("len", l), ("root", r)].foldlM (collect root)
      ⟨none, none, none, none⟩ = (root r).map fun s => ⟨some order, some height, some len, some s⟩ := by
  cases hr : root r <;>
    simp [collect, once, ho, hh, hl, hr, Except.map, bind, Except.bind, pure, Except.pure]

theorem asScalar_ofNat {n : Nat} (h : n < UInt64.size) :
    asScalar Scalar.toNat? (.ofNat n) = .ok n := by
  have hsize : 0 ≤ (n : Int) ∧ (n : Int) < UInt64.size := by omega
  rw [Value.ofNat, asScalar, Scalar.toNat?, if_pos hsize]
  rfl

theorem spelled_ofNat {n : Nat} (h : n < UInt64.size) : (Value.ofNat n).Spelled (Value.ofNat n).write := by
  have hsize : UInt64.size = 2 ^ 64 := rfl
  exact Value.spelled_scalar (Scalar.spelled_whole (by omega) (by omega))

theorem spelled_toValue {s : Snapshot K} (h : s.root.All KeyFormat.Faithful) (hs : s.Sized) :
    s.toValue.Spelled s.toValue.write := by
  refine Value.spelled_object ?_
  simp only [List.forall_mem_cons]
  exact ⟨spelled_ofNat hs.1, spelled_ofNat hs.2.1, spelled_ofNat hs.2.2, s.root.spelled_toValue h, nofun⟩

theorem depth_toValue [ScalarFormat K] (s : Snapshot K) : s.toValue.depth = 2 * s.root.levels + 1 := by
  simp [toValue, Value.depth, Value.depthOfMembers, Value.ofNat, Subtree.depth_toValue]

/-- The object of a snapshot is read as its root node is. -/
theorem read_gives_root {order height len : Nat} {v : Value} {y : Except Defect (Subtree K)}
    (hv : readRoot.Gives v y) (ho : order < UInt64.size) (hh : height < UInt64.size)
    (hl : len < UInt64.size) : (Snapshot.read : Reader (Snapshot K)).Gives
      (.object [("order", .ofNat order), ("height", .ofNat height), ("len", .ofNat len), ("root", v)])
      (y.map fun root => ⟨order, height, len, root⟩) := by
  let ms : List (String × Value) :=
    [("order", .ofNat order), ("height", .ofNat height), ("len", .ofNat len), ("root", v)]
  have hroot : ∀ m ∈ ms, m.1 = "root" → readRoot.Gives m.2 y := by
    intro m hm hname
    obtain rfl : m = ("root", v) := by simpa [ms, hname, Prod.ext_iff] using hm
    exact hv
  have hread := read_gives (fun _ => y) (by simp [ms]) hroot
  rw [foldlM_collect (asScalar_ofNat ho) (asScalar_ofNat hh) (asScalar_ofNat hl)] at hread
  cases y <;> exact hread

/-- **A snapshot is read back from its text**, unless it has more than 63 levels: then the text nests too
many arrays and objects. -/
theorem parse_write [ScalarFormat K] {s : Snapshot K} (h : s.root.All KeyFormat.Faithful) (hs : s.Sized) :
    parse s.write = if s.root.levels ≤ 63 then .ok s else .error .malformed := by
  have hlevels : 2 * s.root.levels ≤ maxDepth - 2 + 1 ↔ s.root.levels ≤ 63 := by
    rw [maxDepth]
    omega
  have hroot : readRoot.Gives s.root.toValue _ := Subtree.read_gives (maxDepth - 2) h
  simp only [hlevels] at hroot
  have hread := read_gives_root hroot hs.1 hs.2.1 hs.2.2
  rw [parse, write, Reader.parse_of_gives hread (String.toList_ofList.trans (List.append_nil _).symm)
    (spelled_toValue h hs) blank_nil]
  split <;> rfl

end Snapshot

end TracedIndex
