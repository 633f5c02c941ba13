import TracedIndex.Format.Outcome
import TracedIndex.Proofs.Format.Snapshot
import TracedIndex.Proofs.Json.Results

/-!
# What is accepted as an outcome or a snapshot

Whatever a text is, a numeric key that is read from it is finite, and a snapshot fits its machine words and
has no more levels than its own text could nest.

* `Key.read_made`, `Key.read_ensures`, `ScanResult.read_ensures`: keys, and those of a range scan;
* `Subtree.levels_of_ofValue?`: a node has no more levels than half the depth of its value;
* **`Snapshot.read_ensures`**: the size and the levels of a snapshot.
-/

namespace TracedIndex

open Json

/-! ## Keys -/

/-- A key that is read is made of a finite number. -/
theorem Key.read_made : (KeyFormat.read : Reader Key).Ensures fun k =>
    ∃ x : Binary64, x.isFinite ∧ ofBinary64? x = some k := by
  refine readAs_ensures fun s k hs hk => ?_
  obtain ⟨x, hx, hk⟩ := Option.bind_eq_some_iff.mp hk
  exact ⟨x, hs.of_toBinary64? hx, hk⟩

theorem Key.read_ensures : (KeyFormat.read : Reader Key).Ensures fun k => k.number.isFinite := by
  intro fuel text k rest hk
  obtain ⟨x, hx, hk⟩ := read_made fuel text k rest hk
  rwa [(ofBinary64?_eq_some_iff.mp hk).2, Binary64.isFinite_positiveZero]

namespace ScanResult

variable {K : Type} [KeyFormat K] {P : K → Prop}

/-- The keys, if they were read, have the property. -/
def Partial.KeysHave (P : K → Prop) (p : Partial K) : Prop := ∀ keys, p.keys = some keys → ∀ k ∈ keys, P k

theorem readField_ensures (h : (KeyFormat.read : Reader K).Ensures P) (name : String) (p : Partial K)
    (hp : p.KeysHave P) : (readField name p).Ensures (Partial.KeysHave P) := by
  have hkeys : (readKeys : Reader (List K)).Ensures fun keys => ∀ k ∈ keys, P k := readArrayOf_ensures h
  have hids : readIds.Ensures fun _ => True := fun _ _ _ _ _ => trivial
  intro fuel text p₁ rest hp₁
  unfold readField at hp₁
  split at hp₁
  · exact hkeys.collect p.keys (fun keys => { p with keys := some keys })
      (fun keys hk keys' hkeys' => Option.some.inj hkeys' ▸ hk) _ _ _ _ hp₁
  split at hp₁
  · exact hids.collect p.path (fun ids => { p with path := some ids }) (fun _ _ => hp) _ _ _ _ hp₁
  · obtain rfl := readOver_ensures p _ _ _ _ hp₁
    exact hp

theorem readInOrder_ensures (h : (KeyFormat.read : Reader K).Ensures P) :
    (readInOrder : Reader (ScanResult K)).Ensures fun r => ∀ k ∈ r.keys, P k := by
  intro fuel text r rest hr
  obtain ⟨⟨keys, t⟩, hkeys, hr⟩ := bind_eq_ok_iff.mp hr
  obtain ⟨⟨path, t'⟩, -, hr⟩ := bind_eq_ok_iff.mp hr
  obtain ⟨rfl, -⟩ := Prod.mk.inj (Except.ok.inj hr)
  exact nextElement_ensures (readArrayOf_ensures h) true _ _ _ _ hkeys

/-- The keys of a range scan are all read as keys are. -/
theorem read_ensures (h : (KeyFormat.read : Reader K).Ensures P) :
    (ScanResult.read : Reader (ScanResult K)).Ensures fun r => ∀ k ∈ r.keys, P k := by
  refine readRecord_ensures (I := Partial.KeysHave P) nofun (readField_ensures h) (fun p r hp hr => ?_)
    (readInOrder_ensures h)
  obtain ⟨keys, hkeys, hr⟩ := Option.bind_eq_some_iff.mp hr
  obtain ⟨path, -, hr⟩ := Option.bind_eq_some_iff.mp hr
  obtain rfl := Option.some.inj hr
  exact hp keys hkeys

end ScanResult

/-! ## Nodes -/

namespace Subtree

variable {K : Type} [KeyFormat K]

omit [KeyFormat K] in
theorem mem_of_requiredField? {name : String} {ms : List (String × Value)} {v : Value}
    (h : requiredField? name ms = some v) : v ∈ ms.map Prod.snd := by
  unfold requiredField? field? at h
  split at h
  · cases h
  · next m hm =>
    obtain rfl := Option.some.inj h
    have hmem : m ∈ ms.filter fun m => m.1 == name := hm ▸ List.mem_singleton_self m
    exact List.mem_map_of_mem (List.mem_filter.mp hmem).1
  · cases h

theorem depth_pos_of_keysOf? {v : Value} {keys : List K} (h : keysOf? v = some keys) : 1 ≤ v.depth := by
  cases v with
  | array vs => exact Nat.le_add_left 1 _
  | _ => cases h

omit [KeyFormat K] in
/-- The levels of some children, and the depth of the array that they stand in. -/
theorem levels_of_mapM {child? : Value → Option (Subtree K)}
    (hchild : ∀ v c, child? v = some c → 2 * c.levels ≤ v.depth) {vs : List Value}
    {children : List (Subtree K)} (h : vs.mapM child? = some children) :
    2 * levelsList children ≤ Value.depthOfElements vs := by
  induction vs generalizing children with
  | nil =>
    obtain rfl := Option.some.inj h
    exact Nat.le_refl 0
  | cons v vs ih =>
    rw [List.mapM_cons] at h
    obtain ⟨c, hc, h⟩ := Option.bind_eq_some_iff.mp h
    obtain ⟨cs, hcs, h⟩ := Option.bind_eq_some_iff.mp h
    obtain rfl := Option.some.inj h
    have := hchild v c hc
    have := ih hcs
    rw [levelsList, Value.depthOfElements]
    omega

omit [KeyFormat K] in
theorem depth_of_elements? {v : Value} {vs : List Value} (h : v.elements? = some vs) :
    v.depth = Value.depthOfElements vs + 1 := by
  cases v with
  | array ws => rw [Option.some.inj h, Value.depth]
  | _ => cases h

/-- The values of the fields. -/
def Fields.values : Fields → List Value
  | .named ms => ms.map Prod.snd
  | .inOrder vs => vs

/-- A leaf and its keys come from the fields, and so do a branch and its children. -/
theorem ofFields?_cases {child? : Value → Option (Subtree K)} {kind : Kind} {fields : Fields}
    {s : Subtree K} (h : ofFields? child? kind fields = some s) :
    (∃ v ∈ fields.values, ∃ id keys next, keysOf? v = some keys ∧ s = .leaf id keys next) ∨
    ∃ v ∈ fields.values, ∃ vs id keys children, v.elements? = some vs ∧
      vs.mapM child? = some children ∧ s = .branch id keys children := by
  unfold ofFields? at h
  split at h
  · next ms =>
    obtain ⟨i, -, h⟩ := Option.bind_eq_some_iff.mp h
    obtain ⟨id, -, h⟩ := Option.bind_eq_some_iff.mp h
    obtain ⟨v, hv, h⟩ := Option.bind_eq_some_iff.mp h
    obtain ⟨keys, hkeys, h⟩ := Option.bind_eq_some_iff.mp h
    obtain ⟨n, -, h⟩ := Option.bind_eq_some_iff.mp h
    obtain ⟨next, -, h⟩ := Option.bind_eq_some_iff.mp h
    exact .inl ⟨v, mem_of_requiredField? hv, id, keys, next, hkeys, (Option.some.inj h).symm⟩
  · next ms =>
    obtain ⟨i, -, h⟩ := Option.bind_eq_some_iff.mp h
    obtain ⟨id, -, h⟩ := Option.bind_eq_some_iff.mp h
    obtain ⟨k, -, h⟩ := Option.bind_eq_some_iff.mp h
    obtain ⟨keys, -, h⟩ := Option.bind_eq_some_iff.mp h
    obtain ⟨v, hv, h⟩ := Option.bind_eq_some_iff.mp h
    obtain ⟨vs, hvs, h⟩ := Option.bind_eq_some_iff.mp h
    obtain ⟨children, hchildren, h⟩ := Option.bind_eq_some_iff.mp h
    exact .inr ⟨v, mem_of_requiredField? hv, vs, id, keys, children, hvs, hchildren,
      (Option.some.inj h).symm⟩
  · next i v n =>
    obtain ⟨id, -, h⟩ := Option.bind_eq_some_iff.mp h
    obtain ⟨keys, hkeys, h⟩ := Option.bind_eq_some_iff.mp h
    obtain ⟨next, -, h⟩ := Option.bind_eq_some_iff.mp h
    exact .inl ⟨v, by simp [Fields.values], id, keys, next, hkeys, (Option.some.inj h).symm⟩
  · next i k v =>
    obtain ⟨id, -, h⟩ := Option.bind_eq_some_iff.mp h
    obtain ⟨keys, -, h⟩ := Option.bind_eq_some_iff.mp h
    obtain ⟨vs, hvs, h⟩ := Option.bind_eq_some_iff.mp h
    obtain ⟨children, hchildren, h⟩ := Option.bind_eq_some_iff.mp h
    exact .inr ⟨v, by simp [Fields.values], vs, id, keys, children, hvs, hchildren,
      (Option.some.inj h).symm⟩
  · cases h

/-- A node has no more levels than half the depth of its value, if its children have not. -/
theorem levels_of_ofFields? {child? : Value → Option (Subtree K)} {kind : Kind} {fields : Fields}
    {s : Subtree K} {d : Nat} (hd : ∀ v ∈ fields.values, v.depth ≤ d)
    (hchild : ∀ v c, child? v = some c → 2 * c.levels ≤ v.depth)
    (h : ofFields? child? kind fields = some s) : 2 * s.levels ≤ d + 1 := by
  rcases ofFields?_cases h with ⟨v, hv, id, keys, next, hkeys, rfl⟩ |
    ⟨v, hv, vs, id, keys, children, hvs, hchildren, rfl⟩
  · have := depth_pos_of_keysOf? hkeys
    have := hd v hv
    rw [levels]
    omega
  · have := depth_of_elements? hvs
    have := levels_of_mapM hchild hchildren
    have := hd v hv
    rw [levels]
    omega

/-- **A node has no more levels than half the depth of its value.** -/
theorem levels_of_ofValueWithin? {levels : Nat} {v : Value} {s : Subtree K}
    (h : ofValueWithin? levels v = some s) : 2 * s.levels ≤ v.depth := by
  induction levels generalizing v s with
  | zero => cases v <;> cases h
  | succ levels ih =>
    cases v with
    | scalar s => cases h
    | object ms =>
      obtain ⟨k, -, h⟩ := Option.bind_eq_some_iff.mp h
      obtain ⟨kind, -, h⟩ := Option.bind_eq_some_iff.mp h
      refine levels_of_ofFields? (fun w hw => ?_) (fun w c hc => ih hc) h
      obtain ⟨m, hm, rfl⟩ := List.mem_map.mp hw
      exact Value.depthOfMembers_le.mp (Nat.le_refl _) m (List.mem_filter.mp hm).1
    | array vs =>
      cases vs with
      | nil => cases h
      | cons k vs =>
        obtain ⟨kind, -, h⟩ := Option.bind_eq_some_iff.mp h
        refine levels_of_ofFields? (fun w hw => ?_) (fun w c hc => ih hc) h
        exact Value.depthOfElements_le.mp (Nat.le_refl _) w (List.mem_cons_of_mem _ hw)

theorem levels_of_ofValue? {v : Value} {s : Subtree K} (h : ofValue? v = some s) :
    2 * s.levels ≤ v.depth := levels_of_ofValueWithin? h

/-! ## The root -/

omit [KeyFormat K] in
theorem readMember_ensures (depth : Nat) (name : String) (p : Partial)
    (hp : ∀ m ∈ p.members, m.2.depth ≤ depth) :
    (readMember depth name p).Ensures fun p => ∀ m ∈ p.members, m.2.depth ≤ depth := by
  intro fuel text p' rest hp'
  unfold readMember at hp'
  split at hp'
  · obtain ⟨⟨kind, t⟩, -, hp'⟩ := bind_eq_ok_iff.mp hp'
    obtain ⟨rfl, -⟩ := Prod.mk.inj (Except.ok.inj hp')
    exact hp
  · obtain ⟨⟨ms, t⟩, hms, hp'⟩ := bind_eq_ok_iff.mp hp'
    obtain ⟨rfl, -⟩ := Prod.mk.inj (Except.ok.inj hp')
    exact Value.readMember_ensures (Value.read_ensures depth) name hp _ _ _ _ hms

omit [KeyFormat K] in
theorem readOthers_ensures (depth : Nat) :
    (readOthers depth).Ensures fun vs => ∀ v ∈ vs, v.depth ≤ depth := by
  intro fuel text vs rest hvs
  unfold readOthers at hvs
  split at hvs
  · cases hvs
  split at hvs
  · obtain ⟨rfl, -⟩ := Prod.mk.inj (Except.ok.inj hvs)
    nofun
  split at hvs
  · exact readElements_ensures (Value.read_ensures depth) _ _ _ _ _ hvs
  · cases hvs

/-- **A root that is read has no more levels than its values could nest.** -/
theorem read_ensures (depth : Nat) :
    (Subtree.read depth : Reader (Subtree K)).Ensures fun s => 2 * s.levels ≤ depth + 1 := by
  have hchild : ∀ v (c : Subtree K), ofValue? v = some c → 2 * c.levels ≤ v.depth :=
    fun _ _ => levels_of_ofValue?
  have hobject : ((readObject Quoted.read (readMember depth) ⟨none, []⟩).filterMap
      (ofPartial? (K := K))).Ensures fun s => 2 * s.levels ≤ depth + 1 := by
    refine (readObject_ensures (I := fun p => ∀ m ∈ p.members, m.2.depth ≤ depth) (by simp)
      (readMember_ensures depth)).filterMap fun p s hp hs => ?_
    obtain ⟨kind, -, hs⟩ := Option.bind_eq_some_iff.mp hs
    refine levels_of_ofFields? (fun v hv => ?_) hchild hs
    obtain ⟨m, hm, rfl⟩ := List.mem_map.mp hv
    exact hp m (List.mem_reverse.mp hm)
  have horder : ∀ kind, ((readOthers depth).filterMap fun vs =>
      ofFields? (K := K) ofValue? kind (.inOrder vs)).Ensures fun s => 2 * s.levels ≤ depth + 1 :=
    fun kind => (readOthers_ensures depth).filterMap fun vs s hvs hs =>
      levels_of_ofFields? (show ∀ v ∈ (Fields.inOrder vs).values, v.depth ≤ depth from hvs) hchild hs
  intro fuel text s rest hs
  unfold Subtree.read at hs
  split at hs
  · exact hobject _ _ _ _ hs
  · obtain ⟨⟨kind, t⟩, -, hs⟩ := bind_eq_ok_iff.mp hs
    exact horder kind _ _ _ _ hs
  · exact readOther_ensures (P := fun s : Subtree K => 2 * s.levels ≤ depth + 1) _ _ _ _ hs

end Subtree

namespace Snapshot

/-! ## Snapshots -/

theorem readNat_ensures : readNat.Ensures (· < UInt64.size) := by
  refine readAs_ensures fun s n _ hn => ?_
  unfold Scalar.toNat? at hn
  split at hn
  · next m =>
    split at hn
    · next hm =>
      rw [← Option.some.inj hn]
      exact (Int.toNat_lt hm.1).mpr hm.2
    · cases hn
  · cases hn

variable {K : Type} [KeyFormat K]

theorem readRoot_ensures : (readRoot : Reader (Subtree K)).Ensures (·.levels ≤ 63) :=
  fun fuel text root rest hroot => by
    have := Subtree.read_ensures (maxDepth - 2) fuel text root rest hroot
    rw [maxDepth] at this
    omega

/-- The fields read so far are those of a snapshot that could be written. -/
structure Partial.Fits (p : Partial K) : Prop where
  order : ∀ n, p.order = some n → n < UInt64.size
  height : ∀ n, p.height = some n → n < UInt64.size
  len : ∀ n, p.len = some n → n < UInt64.size
  root : ∀ s, p.root = some s → s.levels ≤ 63

theorem readField_ensures (name : String) (p : Partial K) (hp : p.Fits) :
    (readField name p).Ensures Partial.Fits := by
  intro fuel text p₁ rest hp₁
  unfold readField at hp₁
  split at hp₁
  · exact readNat_ensures.collect p.order (fun n => { p with order := some n })
      (fun n hn => { hp with order := fun m hm => Option.some.inj hm ▸ hn }) _ _ _ _ hp₁
  split at hp₁
  · exact readNat_ensures.collect p.height (fun n => { p with height := some n })
      (fun n hn => { hp with height := fun m hm => Option.some.inj hm ▸ hn }) _ _ _ _ hp₁
  split at hp₁
  · exact readNat_ensures.collect p.len (fun n => { p with len := some n })
      (fun n hn => { hp with len := fun m hm => Option.some.inj hm ▸ hn }) _ _ _ _ hp₁
  split at hp₁
  · exact readRoot_ensures.collect p.root (fun s => { p with root := some s })
      (fun s hs => { hp with root := fun r hr => Option.some.inj hr ▸ hs }) _ _ _ _ hp₁
  · obtain rfl := readOver_ensures p _ _ _ _ hp₁
    exact hp

theorem readInOrder_ensures :
    (readInOrder : Reader (Snapshot K)).Ensures fun s => s.Sized ∧ s.root.levels ≤ 63 := by
  intro fuel text s rest hs
  obtain ⟨⟨order, t⟩, horder, hs⟩ := bind_eq_ok_iff.mp hs
  obtain ⟨⟨height, t₁⟩, hheight, hs⟩ := bind_eq_ok_iff.mp hs
  obtain ⟨⟨len, t₂⟩, hlen, hs⟩ := bind_eq_ok_iff.mp hs
  obtain ⟨⟨root, t₃⟩, hroot, hs⟩ := bind_eq_ok_iff.mp hs
  obtain ⟨rfl, -⟩ := Prod.mk.inj (Except.ok.inj hs)
  exact ⟨⟨nextElement_ensures readNat_ensures true _ _ _ _ horder,
    nextElement_ensures readNat_ensures false _ _ _ _ hheight,
    nextElement_ensures readNat_ensures false _ _ _ _ hlen⟩,
    nextElement_ensures readRoot_ensures false _ _ _ _ hroot⟩

/-- **A snapshot that is read fits its machine words and has at most 63 levels.** -/
theorem read_ensures :
    (Snapshot.read : Reader (Snapshot K)).Ensures fun s => s.Sized ∧ s.root.levels ≤ 63 := by
  refine readRecord_ensures (I := Partial.Fits) ⟨nofun, nofun, nofun, nofun⟩ readField_ensures
    (fun p s hp hs => ?_) readInOrder_ensures
  obtain ⟨order, horder, hs⟩ := Option.bind_eq_some_iff.mp hs
  obtain ⟨height, hheight, hs⟩ := Option.bind_eq_some_iff.mp hs
  obtain ⟨len, hlen, hs⟩ := Option.bind_eq_some_iff.mp hs
  obtain ⟨root, hroot, hs⟩ := Option.bind_eq_some_iff.mp hs
  obtain rfl := Option.some.inj hs
  exact ⟨⟨hp.order order horder, hp.height height hheight, hp.len len hlen⟩, hp.root root hroot⟩

end Snapshot

end TracedIndex
