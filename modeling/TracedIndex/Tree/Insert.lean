import TracedIndex.Tree

/-!
# Insertion

A key goes into the leaf it belongs to, behind the keys up to it. A node that comes to hold as many
keys as the order is **split**: its right half moves to a fresh sibling, which still has to be
entered into the parent, behind its left half, with a separator between them. That may fill the
parent in turn, so splits climb towards the root; a split root gets a new root above it.

* `Leaf.split?`, `Branch.split?` divide the contents of a full node, `Branch.adopt?` enters a
  sibling;
* `Arena.splitLeaf`, `Arena.splitBranch` and `Arena.growRoot` do so in the arena;
* `Arena.addKey` puts a key into a leaf, `Arena.climb` does one level of the way up, `Arena.settle`
  the whole way;
* `Tree.insertRoot` inserts a key and gives the root as well, `Tree.insert` gives the tree only;
  `Tree.extend` inserts a list of keys in order, `Tree.ofKeys` builds a tree.
-/

namespace TracedIndex

variable {K : Type}

/-! ## Contents -/

namespace Leaf

/-- The first half of the keys, rounded up; the separator, a copy of the first key of the rest; and
the rest. -/
def split? (l : Leaf K) : Option (List K × K × List K) :=
  let half := (l.keys.length + 1) / 2
  match l.keys.drop half with
  | [] => none
  | k :: ks => some (l.keys.take half, k, k :: ks)

end Leaf

namespace Branch

/-- The separators and children before the middle separator; the middle separator, which stays in
neither half; and the separators and children behind it. A branch without separators, or with too few
children for the first half, cannot be divided. -/
def split? (b : Branch K) : Option ((List K × List NodeId) × K × (List K × List NodeId)) :=
  let mid := b.keys.length / 2
  match b.keys[mid]? with
  | none => none
  | some k =>
    if mid < b.children.length then
      some ((b.keys.take mid, b.children.take (mid + 1)), k,
        (b.keys.drop (mid + 1), b.children.drop (mid + 1)))
    else none

/-- The branch with `right` entered behind its child `left`, and `separator` between them, if there
are enough separators before that place. -/
def adopt? (b : Branch K) (left : NodeId) (separator : K) (right : NodeId) : Option (Branch K) :=
  match b.slotOf? left with
  | none => none
  | some i =>
    if i ≤ b.keys.length then
      some { b with
        keys := b.keys.insertIdx i separator
        children := b.children.insertIdx (i + 1) right }
    else none

end Branch

/-! ## Splits in the arena -/

/-- A split that the parent does not know of yet: the keys of the fresh node `right` are those from
`separator` on. -/
structure Split (K : Type) where
  left : NodeId
  separator : K
  right : NodeId

/-- How far an insertion has come: its root is known, or a split is left to be entered. -/
inductive Progress (K : Type) where
  | settled (root : NodeId)
  | pending (s : Split K)

namespace Arena

/-- Moves the right half of the leaf `left` to a fresh leaf, which comes next after it. -/
def splitLeaf (a : Arena K) (left : NodeId) : Except Fault (Arena K × Split K) := do
  let l ← a.leaf left
  match l.split? with
  | none => throw (.unsplittable left)
  | some (lower, separator, upper) =>
    let (a, right) ← a.alloc (.leaf { l with keys := upper })
    pure (a.put left (.leaf { l with keys := lower, next := some right }), ⟨left, separator, right⟩)

/-- Moves the right half of the branch `left` to a fresh branch, which becomes the parent of the
children that go with it. -/
def splitBranch (a : Arena K) (left : NodeId) : Except Fault (Arena K × Split K) := do
  let b ← a.branch left
  match b.split? with
  | none => throw (.unsplittable left)
  | some (lower, separator, upper) =>
    let (a, right) ← a.alloc (.branch { b with keys := upper.1, children := upper.2 })
    let a := a.put left (.branch { b with keys := lower.1, children := lower.2 })
    let a ← a.setParents upper.2 (some right)
    pure (a, ⟨left, separator, right⟩)

/-- Puts a new root above the two halves of a split root. -/
def growRoot (a : Arena K) (s : Split K) : Except Fault (Arena K × NodeId) := do
  let (a, root) ← a.alloc (.branch ⟨[s.separator], [s.left, s.right], none⟩)
  let a ← a.setParents [s.left, s.right] (some root)
  pure (a, root)

/-- Enters a split into the branch `parent`. -/
def enter (a : Arena K) (parent : NodeId) (s : Split K) : Except Fault (Arena K × Branch K) := do
  let b ← a.branch parent
  match b.adopt? s.left s.separator s.right with
  | none => throw (.notListed s.left parent)
  | some b =>
    let a ← (a.put parent (.branch b)).setParent s.right (some parent)
    pure (a, b)

/-- One level of the way up: enters a split into the parent of its left half, and splits the parent
if that fills it. -/
def climb (a : Arena K) (o : Order) (s : Split K) : Except Fault (Arena K × Progress K) := do
  match (← a.node s.left).parent with
  | none =>
    let (a, root) ← a.growRoot s
    pure (a, .settled root)
  | some parent =>
    let (a, b) ← a.enter parent s
    if b.keys.length < o.size then
      let root ← a.rootOf parent
      pure (a, .settled root)
    else
      let (a, s) ← a.splitBranch parent
      pure (a, .pending s)

/-- The whole way up, over at most `fuel` levels: the arena in order again, and its root. -/
def settle (o : Order) (fuel : Nat) (a : Arena K) (p : Progress K) :
    Except Fault (Arena K × NodeId) :=
  match p, fuel with
  | .settled root, _ => .ok (a, root)
  | .pending _, 0 => .error .circular
  | .pending s, fuel + 1 => do
    let (a, p) ← a.climb o s
    settle o fuel a p

/-- Puts `key` into the leaf `id`, and splits the leaf if that fills it. -/
def addKey [Ord K] (a : Arena K) (o : Order) (id : NodeId) (key : K) :
    Except Fault (Arena K × Progress K) := do
  let l := (← a.leaf id).insert key
  let a := a.put id (.leaf l)
  if l.keys.length < o.size then
    let root ← a.rootOf id
    pure (a, .settled root)
  else
    let (a, s) ← a.splitLeaf id
    pure (a, .pending s)

end Arena

/-! ## Trees -/

namespace Tree

variable [Ord K] {o : Order}

/-- Adds `key` behind all keys up to it. Gives the root that the way up ended with, and the tree, which takes
this root for its own. -/
def insertRoot (t : Tree K o) (key : K) : Except Fault (NodeId × Tree K o) := do
  let w ← t.findLeaf key
  let ⟨a, _, len⟩ := t
  let (a, p) ← a.addKey o w.stop key
  let (a, root) ← a.settle o a.size p
  pure (root, ⟨a, root, len + 1⟩)

/-- The tree with `key` added behind all keys up to it. -/
def insert (t : Tree K o) (key : K) : Except Fault (Tree K o) := do
  let (_, t) ← t.insertRoot key
  pure t

/-- The root that is given is the one that the tree takes. -/
theorem insertRoot_eq (t : Tree K o) (key : K) :
    t.insertRoot key = (t.insert key).map fun t' => (t'.root, t') := by
  unfold insert insertRoot
  cases t.findLeaf key with
  | error f => rfl
  | ok w =>
    simp only [bind, Except.bind]
    cases t.arena.addKey o w.stop key with
    | error f => rfl
    | ok r =>
      dsimp only
      cases Arena.settle o r.1.size r.1 r.2 <;> rfl

/-- The tree with all of `keys` added, in the given order. -/
def extend (t : Tree K o) (keys : List K) : Except Fault (Tree K o) := keys.foldlM insert t

/-- The tree that arises from inserting `keys` in the given order. -/
def ofKeys (keys : List K) : Except Fault (Tree K o) := extend empty keys

/-- The trees that arise from insertions. -/
def Reachable (t : Tree K o) : Prop := ∃ keys, ofKeys keys = .ok t

end Tree

end TracedIndex
