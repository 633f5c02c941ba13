import TracedIndex.Node

/-!
# The arena

All nodes of a tree live in one **arena**, each at the position that its `NodeId` names. Nodes are
only ever added, so a number never changes its meaning. Following a number that names nothing, or a
node of the wrong kind, is a **fault**; so is a walk that never ends.

* `alloc` adds a node, `node`, `leaf` and `branch` look one up, `put` replaces one;
* `descend` goes down from child to child, `ascend` up from parent to parent, `chain` along the
  leaves; each gives the nodes that it visited. `levels` only counts them, on the way down.
-/

namespace TracedIndex

/-- What can go wrong in an arena whose links are not those of a tree. -/
inductive Fault where
  /-- All numbers are taken. -/
  | exhausted
  /-- No node has this number. -/
  | dangling (id : NodeId)
  /-- A branch where a leaf is expected. -/
  | notLeaf (id : NodeId)
  /-- A leaf where a branch is expected. -/
  | notBranch (id : NodeId)
  /-- The branch has no child at this position. -/
  | noChild (id : NodeId) (slot : Nat)
  /-- The node is not among the children of its parent, or too far behind the separators there. -/
  | notListed (id parent : NodeId)
  /-- The node has too few keys, or children, to be split. -/
  | unsplittable (id : NodeId)
  /-- The links lead in a circle. -/
  | circular
deriving DecidableEq

/-- The nodes of a tree, by number. -/
structure Arena (K : Type) where
  nodes : Array (Node K)

/-- The nodes that a walk visited, in order, and the one at which it stopped. -/
structure Walk where
  path : List NodeId
  stop : NodeId
deriving DecidableEq

namespace Arena

variable {K : Type}

/-! ## Single nodes -/

/-- The number of nodes ever allocated. -/
def size (a : Arena K) : Nat := a.nodes.size

def node (a : Arena K) (id : NodeId) : Except Fault (Node K) :=
  match a.nodes[id.index]? with
  | some n => .ok n
  | none => .error (.dangling id)

def leaf (a : Arena K) (id : NodeId) : Except Fault (Leaf K) := do
  match ← a.node id with
  | .leaf l => pure l
  | .branch _ => throw (.notLeaf id)

def branch (a : Arena K) (id : NodeId) : Except Fault (Branch K) := do
  match ← a.node id with
  | .branch b => pure b
  | .leaf _ => throw (.notBranch id)

/-- The arena with `n` in the place of the node `id`. -/
def put (a : Arena K) (id : NodeId) (n : Node K) : Arena K :=
  ⟨a.nodes.setIfInBounds id.index n⟩

/-- The arena with `n` added, and the number of `n`. -/
def alloc (a : Arena K) (n : Node K) : Except Fault (Arena K × NodeId) :=
  if h : a.nodes.size < UInt32.size then .ok (⟨a.nodes.push n⟩, ⟨a.nodes.size, h⟩)
  else .error .exhausted

/-- The arena in which `id` has another parent. -/
def setParent (a : Arena K) (id : NodeId) (parent : Option NodeId) : Except Fault (Arena K) := do
  let n ← a.node id
  pure (a.put id (n.withParent parent))

/-- The arena in which all of `ids` have another parent. -/
def setParents (a : Arena K) (ids : List NodeId) (parent : Option NodeId) :
    Except Fault (Arena K) :=
  ids.foldlM (fun a id => a.setParent id parent) a

/-! ## Lookup after a change -/

theorem node_eq_ok_iff {a : Arena K} {id : NodeId} {n : Node K} :
    a.node id = .ok n ↔ a.nodes[id.index]? = some n := by
  unfold node
  split <;> simp_all

theorem leaf_eq_ok_iff {a : Arena K} {id : NodeId} {l : Leaf K} :
    a.leaf id = .ok l ↔ a.node id = .ok (.leaf l) := by
  rw [leaf]
  cases a.node id with
  | error f => simp [bind, Except.bind]
  | ok n =>
    cases n <;>
      simp [bind, Except.bind, pure, Except.pure, throw, throwThe, MonadExceptOf.throw]

theorem branch_eq_ok_iff {a : Arena K} {id : NodeId} {b : Branch K} :
    a.branch id = .ok b ↔ a.node id = .ok (.branch b) := by
  rw [branch]
  cases a.node id with
  | error f => simp [bind, Except.bind]
  | ok n =>
    cases n <;>
      simp [bind, Except.bind, pure, Except.pure, throw, throwThe, MonadExceptOf.throw]

/-- The numbers that name a node are those below the size. -/
theorem exists_node_iff {a : Arena K} {id : NodeId} :
    (∃ n, a.node id = .ok n) ↔ id.index < a.size := by
  simp only [node_eq_ok_iff, Array.getElem?_eq_some_iff, size]
  exact ⟨fun ⟨_, h, _⟩ => h, fun h => ⟨_, h, rfl⟩⟩

theorem size_put (a : Arena K) (id : NodeId) (n : Node K) : (a.put id n).size = a.size := by
  simp [put, size]

theorem node_put_self {a : Arena K} {id : NodeId} (h : id.index < a.size) (n : Node K) :
    (a.put id n).node id = .ok n :=
  node_eq_ok_iff.mpr (Array.getElem?_setIfInBounds_self_of_lt h)

theorem node_put_of_ne (a : Arena K) {id other : NodeId} (h : other ≠ id) (n : Node K) :
    (a.put id n).node other = a.node other := by
  simp only [node, put, Array.getElem?_setIfInBounds_ne fun e => h (NodeId.ext e.symm)]

section

variable {a b : Arena K} {n : Node K} {id : NodeId} (h : a.alloc n = .ok (b, id))

include h

theorem alloc_eq_ok : b.nodes = a.nodes.push n ∧ id.index = a.size := by
  unfold alloc at h
  split at h
  · obtain ⟨rfl, rfl⟩ := Prod.mk.inj (Except.ok.inj h)
    exact ⟨rfl, rfl⟩
  · cases h

theorem size_alloc : b.size = a.size + 1 := by
  rw [size, (alloc_eq_ok h).1, Array.size_push, size]

/-- The new number names the new node. -/
theorem node_alloc_self : b.node id = .ok n := by
  rw [node_eq_ok_iff, (alloc_eq_ok h).1, (alloc_eq_ok h).2, size, Array.getElem?_push_size]

/-- The old numbers name what they named before. -/
theorem node_alloc_of_lt {other : NodeId} (ho : other.index < a.size) :
    b.node other = a.node other := by
  simp only [node, (alloc_eq_ok h).1, Array.getElem?_push_lt ho, Array.getElem?_eq_getElem ho]

end

/-! ## Walks

A walk that visits more nodes than there are has come to one of them twice, so the number of nodes
bounds every walk that ends. -/

/-- Goes down from `id` to a leaf, taking the child that `choose` picks, through at most `fuel`
nodes. -/
def descend (a : Arena K) (choose : Branch K → Nat) (fuel : Nat) (id : NodeId) :
    Except Fault Walk :=
  match fuel with
  | 0 => .error .circular
  | fuel + 1 => do
    match ← a.node id with
    | .leaf _ => pure ⟨[id], id⟩
    | .branch b =>
      match b.children[choose b]? with
      | none => throw (.noChild id (choose b))
      | some child =>
        let w ← a.descend choose fuel child
        pure ⟨id :: w.path, w.stop⟩

/-- Goes up from `id` to a node without a parent, through at most `fuel` nodes. -/
def ascend (a : Arena K) (fuel : Nat) (id : NodeId) : Except Fault Walk :=
  match fuel with
  | 0 => .error .circular
  | fuel + 1 => do
    match (← a.node id).parent with
    | none => pure ⟨[id], id⟩
    | some parent =>
      let w ← a.ascend fuel parent
      pure ⟨id :: w.path, w.stop⟩

/-- Goes from the leaf `id` to the last leaf after it, through at most `fuel` nodes. -/
def chain (a : Arena K) (fuel : Nat) (id : NodeId) : Except Fault Walk :=
  match fuel with
  | 0 => .error .circular
  | fuel + 1 => do
    match (← a.leaf id).next with
    | none => pure ⟨[id], id⟩
    | some next =>
      let w ← a.chain fuel next
      pure ⟨id :: w.path, w.stop⟩

/-- The number of levels from `id` down along the first children, through at most `fuel` nodes. -/
def levels (a : Arena K) (fuel : Nat) (id : NodeId) : Except Fault Nat :=
  match fuel with
  | 0 => .error .circular
  | fuel + 1 => do
    match ← a.node id with
    | .leaf _ => pure 1
    | .branch b =>
      match b.children[0]? with
      | none => throw (.noChild id 0)
      | some child => pure ((← a.levels fuel child) + 1)

/-- There are as many levels as the way down along the first children has nodes. -/
theorem levels_eq (a : Arena K) (fuel : Nat) (id : NodeId) :
    a.levels fuel id = (a.descend (fun _ => 0) fuel id).map fun w => w.path.length := by
  induction fuel generalizing id with
  | zero => rfl
  | succ fuel ih =>
    rw [levels, descend]
    cases a.node id with
    | error f => rfl
    | ok n =>
      cases n with
      | leaf l => rfl
      | branch b =>
        simp only [bind, Except.bind]
        cases b.children[0]? with
        | none => rfl
        | some child =>
          simp only [ih]
          cases a.descend (fun _ => 0) fuel child <;> rfl

/-- The node without a parent above `id`. -/
def rootOf (a : Arena K) (id : NodeId) : Except Fault NodeId := do
  pure (← a.ascend a.size id).stop

end Arena

end TracedIndex
