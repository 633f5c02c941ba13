import TracedIndex.Proofs.Sorted
import TracedIndex.Proofs.Subtree.Trail

/-!
# Growth along a trail

What becomes of a subtree decides what becomes of the branch above it, and nothing else of the
subtree matters. So insertion into a tree is insertion into the leaf at the end of a descent,
followed by one step for each frame of the trail to it.

* `Growth.ofLeaf_cases`, `Growth.ofBranch_cases`: a node stays whole or is cut in two;
* `Frame.grow`: the step of one frame; `Growth.close`: what becomes of the root;
* `insert_fill`, **`insert_plug`**: insertion goes into the hole of a trail that it follows.
-/

namespace TracedIndex

variable {K : Type}

namespace Growth

/-- The subtrees that a subtree has become. -/
def parts : Growth K → List (Subtree K)
  | .whole s => [s]
  | .halves left _ right _ => [left, right]

/-- The root of a tree whose old root has grown: two halves get a new root above them. -/
def close : Growth K → Option (Subtree K)
  | .whole s => some s
  | .halves left separator right fresh =>
    (NodeId.ofNat? fresh).map fun id => .branch id [separator] [left, right]

/-- The number of levels that a tree gains when its root has grown. -/
def rise : Growth K → Nat
  | .whole _ => 0
  | .halves .. => 1

theorem parts_close {α : Type} {φ : Subtree K → List α} {g : Growth K} {root : Subtree K}
    (hφ : ∀ id keys children, φ (.branch id keys children) = children.flatMap φ)
    (h : g.close = some root) : φ root = g.parts.flatMap φ := by
  cases g with
  | whole s =>
    obtain rfl := Option.some.inj h
    simp [parts]
  | halves left separator right fresh =>
    obtain ⟨id, -, rfl⟩ := Option.map_eq_some_iff.mp h
    rw [hφ, parts]

/-! ## Cuts -/

section

variable {order fresh : Nat} {id : NodeId} {keys : List K} {g : Growth K}

theorem ofNat?_eq_some {n : Nat} {id : NodeId} : NodeId.ofNat? n = some id ↔ id.index = n := by
  unfold NodeId.ofNat?
  constructor
  · intro h
    split at h
    · exact congrArg NodeId.index (Option.some.inj h).symm
    · cases h
  · rintro rfl
    rw [dif_pos id.index_lt]

theorem ofNat?_eq_none {n : Nat} : NodeId.ofNat? n = none ↔ UInt32.size ≤ n := by
  unfold NodeId.ofNat?
  split
  · next hlt => simp only [reduceCtorEq, false_iff]; omega
  · next hge => simp only [true_iff]; omega

/-- A node of either kind stays whole, or is cut at the middle separator if there is a number for the
fresh node. -/
theorem cut_eq_some {mid : Nat} {whole : Growth K} {halves : NodeId → K → Growth K}
    (h : (if keys.length < order then some whole
      else do
        let right ← NodeId.ofNat? fresh
        let separator ← keys[mid]?
        some (halves right separator)) = some g) :
    keys.length < order ∧ g = whole ∨
    order ≤ keys.length ∧ ∃ (right : NodeId) (separator : K), right.index = fresh ∧
      keys[mid]? = some separator ∧ g = halves right separator := by
  split at h
  · next hlt => exact .inl ⟨hlt, (Option.some.inj h).symm⟩
  · next hge =>
    simp only [Option.bind_eq_bind, Option.bind_eq_some_iff] at h
    obtain ⟨right, hright, separator, hsep, hg⟩ := h
    exact .inr ⟨Nat.not_lt.mp hge, right, separator, ofNat?_eq_some.mp hright, hsep,
      (Option.some.inj hg).symm⟩

/-- A node that is cut has a middle separator, so only a number can be missing. -/
theorem cut_eq_none {mid : Nat} {whole : Growth K} {halves : NodeId → K → Growth K}
    (hmid : mid < order) :
    (if keys.length < order then some whole
      else do
        let right ← NodeId.ofNat? fresh
        let separator ← keys[mid]?
        some (halves right separator)) = none ↔ order ≤ keys.length ∧ UInt32.size ≤ fresh := by
  split
  · next hlt => simp only [reduceCtorEq, false_iff]; omega
  · next hge =>
    have hmid' : mid < keys.length := by omega
    simp only [List.getElem?_eq_getElem hmid', ← ofNat?_eq_none]
    cases NodeId.ofNat? fresh with
    | none => simp; omega
    | some right => simp

theorem ofLeaf_cases {next : Option NodeId} (h : ofLeaf order fresh id keys next = some g) :
    keys.length < order ∧ g = .whole (.leaf id keys next) ∨
    order ≤ keys.length ∧ ∃ (right : NodeId) (separator : K), right.index = fresh ∧
      keys[(order + 1) / 2]? = some separator ∧
      g = .halves (.leaf id (keys.take ((order + 1) / 2)) (some right)) separator
        (.leaf right (keys.drop ((order + 1) / 2)) next) (fresh + 1) :=
  cut_eq_some h

theorem ofBranch_cases {children : List (Subtree K)}
    (h : ofBranch order fresh id keys children = some g) :
    keys.length < order ∧ g = .whole (.branch id keys children) ∨
    order ≤ keys.length ∧ ∃ (right : NodeId) (separator : K), right.index = fresh ∧
      keys[order / 2]? = some separator ∧
      g = .halves (.branch id (keys.take (order / 2)) (children.take (order / 2 + 1))) separator
        (.branch right (keys.drop (order / 2 + 1)) (children.drop (order / 2 + 1))) (fresh + 1) :=
  cut_eq_some h

theorem ofLeaf_eq_none {next : Option NodeId} (horder : 2 ≤ order) :
    ofLeaf order fresh id keys next = none ↔ order ≤ keys.length ∧ UInt32.size ≤ fresh :=
  cut_eq_none (by omega)

theorem ofBranch_eq_none {children : List (Subtree K)} (horder : 2 ≤ order) :
    ofBranch order fresh id keys children = none ↔ order ≤ keys.length ∧ UInt32.size ≤ fresh :=
  cut_eq_none (by omega)

theorem parts_ofBranch {α : Type} {f : Subtree K → List α} {children : List (Subtree K)}
    (hf : ∀ id keys children, f (.branch id keys children) = children.flatMap f)
    (h : ofBranch order fresh id keys children = some g) :
    g.parts.flatMap f = children.flatMap f := by
  rcases ofBranch_cases h with ⟨-, rfl⟩ | ⟨-, right, separator, -, -, rfl⟩
  · simp [parts, hf]
  · simp only [parts, List.flatMap_cons, List.flatMap_nil, List.append_nil, hf]
    rw [← List.flatMap_append, List.take_append_drop]

end

end Growth

/-! ## Steps -/

namespace Frame

/-- What becomes of the branch when the subtree in the hole has grown. -/
def grow (order : Nat) (f : Frame K) : Growth K → Option (Growth K)
  | .whole s => some (.whole (f.fill s))
  | .halves left separator right fresh =>
    Growth.ofBranch order fresh f.id (f.keys.take f.slot ++ separator :: f.keys.drop f.slot)
      (f.before ++ left :: right :: f.after)

/-- A separator that is entered makes one separator more. -/
theorem length_entered (f : Frame K) (separator : K) :
    (f.keys.take f.slot ++ separator :: f.keys.drop f.slot).length = f.keys.length + 1 := by
  rw [List.length_append, List.length_cons, ← Nat.add_assoc, ← List.length_append, List.take_append_drop]

/-- A step changes a list that is made of those of the children in the hole only. -/
theorem parts_grow {α : Type} {φ : Subtree K → List α} {order : Nat} {f : Frame K} {g g' : Growth K}
    (hφ : ∀ id keys children, φ (.branch id keys children) = children.flatMap φ)
    (h : f.grow order g = some g') :
    g'.parts.flatMap φ = f.before.flatMap φ ++ g.parts.flatMap φ ++ f.after.flatMap φ := by
  cases g with
  | whole s =>
    obtain rfl := Option.some.inj h
    simp [Growth.parts, fill, hφ]
  | halves left separator right fresh =>
    rw [Growth.parts_ofBranch hφ h]
    simp [Growth.parts]

end Frame

namespace Trail

/-- What becomes of the tree when the subtree in the hole has grown. -/
def grow (order : Nat) (fs : Trail K) (g : Growth K) : Option (Growth K) :=
  fs.foldlM (fun g f => f.grow order g) g

@[simp]
theorem grow_nil (order : Nat) (g : Growth K) : grow order [] g = some g := rfl

@[simp]
theorem grow_cons (order : Nat) (f : Frame K) (fs : Trail K) (g : Growth K) :
    grow order (f :: fs) g = (f.grow order g).bind (grow order fs) := rfl

theorem grow_concat (order : Nat) (fs : Trail K) (f : Frame K) (g : Growth K) :
    grow order (fs ++ [f]) g = (grow order fs g).bind (f.grow order) := by
  simp only [grow, List.foldlM_append, List.foldlM_cons, List.foldlM_nil, bind_pure]
  rfl

/-- A tree in which nothing is cut is the old one with another subtree in the hole. -/
theorem grow_whole (order : Nat) (fs : Trail K) (s : Subtree K) :
    grow order fs (.whole s) = some (.whole (fs.plug s)) := by
  induction fs generalizing s with
  | nil => rfl
  | cons f fs ih => rw [grow_cons, Frame.grow, Option.bind_some, ih, plug_cons]

end Trail

namespace Subtree

variable [Ord K] {order fresh : Nat} {key : K}

theorem insertAt_append (before after : List (Subtree K)) (c : Subtree K) :
    insertAt order fresh key before.length (before ++ c :: after) = c.insert order fresh key := by
  induction before with
  | nil => rw [List.nil_append, List.length_nil, insertAt]
  | cons b before ih => rw [List.cons_append, List.length_cons, insertAt, ih]

theorem insert_leaf (id : NodeId) (keys : List K) (next : Option NodeId) :
    (leaf id keys next).insert order fresh key =
      Growth.ofLeaf order fresh id (insertBehind key keys) next := by
  rw [insert]

theorem insert_fill {f : Frame K} (hf : f.Follows (rankOf key)) (c : Subtree K) :
    (f.fill c).insert order fresh key = (c.insert order fresh key).bind (f.grow order) := by
  have hslot : (f.keys.takeWhile fun s => (compare s key).isLE).length = f.before.length := hf.symm
  rw [Frame.fill, insert]
  simp only [hslot, insertAt_append]
  cases c.insert order fresh key with
  | none => rfl
  | some g =>
    cases g with
    | whole c' => simp [Frame.grow, Frame.fill]
    | halves left separator right fresh' => simp [Frame.grow, Frame.slot]

/-- **Insertion goes into the hole of a trail that it follows.** -/
theorem insert_plug {fs : Trail K} (hfs : ∀ f ∈ fs, f.Follows (rankOf key)) (s : Subtree K) :
    (fs.plug s).insert order fresh key = (s.insert order fresh key).bind (fs.grow order) := by
  induction fs generalizing s with
  | nil => exact (Option.bind_fun_some _).symm
  | cons f fs ih =>
    rw [Trail.plug_cons, ih (fun f' hf' => hfs f' (List.mem_cons_of_mem _ hf')),
      insert_fill (hfs f List.mem_cons_self), Option.bind_assoc]
    rfl

end Subtree

end TracedIndex
