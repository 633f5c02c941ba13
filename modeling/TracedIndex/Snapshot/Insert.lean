import TracedIndex.Snapshot

/-!
# Insertion by recursion

Insertion into a snapshot, by recursion from the root: the child that the key belongs to is replaced
by what becomes of it, which is one subtree, or two with a separator between them. Nothing is
remembered about parents. Fresh nodes are numbered on from the number of nodes before: first the
sibling of the leaf, then those of the branches above it upwards, and last a new root.

* `Subtree.insert` inserts into a subtree, `Snapshot.insert` into a snapshot.
-/

namespace TracedIndex

variable {K : Type} [Ord K]

/-- What becomes of a subtree into which a key was inserted. -/
inductive Growth (K : Type) where
  | whole (s : Subtree K)
  /-- Two halves, the separator between them, and the number for the next fresh node. -/
  | halves (left : Subtree K) (separator : K) (right : Subtree K) (fresh : Nat)

/-- The list with `key` behind its leading keys up to it. -/
def insertBehind (key : K) (keys : List K) : List K :=
  keys.takeWhile (fun k => (compare k key).isLE) ++
    key :: keys.dropWhile (fun k => (compare k key).isLE)

namespace Growth

/-- A leaf with too many keys keeps the first half of them, rounded up. -/
def ofLeaf (order fresh : Nat) (id : NodeId) (keys : List K) (next : Option NodeId) :
    Option (Growth K) :=
  if keys.length < order then some (.whole (.leaf id keys next))
  else do
    let half := (order + 1) / 2
    let right ← NodeId.ofNat? fresh
    let separator ← keys[half]?
    some (.halves (.leaf id (keys.take half) (some right)) separator
      (.leaf right (keys.drop half) next) (fresh + 1))

/-- A branch with too many separators gives its middle one away. -/
def ofBranch (order fresh : Nat) (id : NodeId) (keys : List K)
    (children : List (Subtree K)) : Option (Growth K) :=
  if keys.length < order then some (.whole (.branch id keys children))
  else do
    let mid := order / 2
    let right ← NodeId.ofNat? fresh
    let separator ← keys[mid]?
    some (.halves (.branch id (keys.take mid) (children.take (mid + 1))) separator
      (.branch right (keys.drop (mid + 1)) (children.drop (mid + 1))) (fresh + 1))

end Growth

namespace Subtree

mutual

/-- Inserts a key into a subtree; `fresh` is the number for the next fresh node. -/
def insert (order fresh : Nat) (key : K) : Subtree K → Option (Growth K)
  | .leaf id keys next => Growth.ofLeaf order fresh id (insertBehind key keys) next
  | .branch id keys children => do
    let slot := (keys.takeWhile fun s => (compare s key).isLE).length
    match ← insertAt order fresh key slot children with
    | .whole child => some (.whole (.branch id keys (children.set slot child)))
    | .halves left separator right fresh =>
      Growth.ofBranch order fresh id (keys.take slot ++ separator :: keys.drop slot)
        (children.take slot ++ left :: right :: children.drop (slot + 1))

/-- Inserts a key into the subtree at position `slot` of a list. -/
def insertAt (order fresh : Nat) (key : K) (slot : Nat) :
    List (Subtree K) → Option (Growth K)
  | [] => none
  | child :: children =>
    match slot with
    | 0 => insert order fresh key child
    | slot + 1 => insertAt order fresh key slot children

end

end Subtree

namespace Snapshot

/-- Inserts a key; a root in two halves gets a new root above it. -/
def insert (s : Snapshot K) (key : K) : Option (Snapshot K) := do
  match ← s.root.insert s.order s.root.size key with
  | .whole root => some { s with len := s.len + 1, root := root }
  | .halves left separator right fresh =>
    let id ← NodeId.ofNat? fresh
    some { s with
      height := s.height + 1
      len := s.len + 1
      root := .branch id [separator] [left, right] }

end Snapshot

end TracedIndex
