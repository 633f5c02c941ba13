import TracedIndex.Bisect
import TracedIndex.Order

/-!
# Nodes

A node is a **leaf**, which holds keys and knows the leaf that comes after it, or a **branch**,
which holds separators and its children. Nodes name each other by `NodeId`, the position at which a
node was allocated; both kinds also name the branch that lists them.

* `Leaf.insert` puts a key behind all keys up to it, `Leaf.holds` looks a key up, both by bisection;
* `Branch.route` is the number of leading separators up to a key: a key equal to a separator belongs
  to its right.
-/

namespace TracedIndex

/-- The number of a node: its position in the order of allocation. -/
@[ext]
structure NodeId where
  index : Nat
  index_lt : index < UInt32.size
deriving DecidableEq

namespace NodeId

/-- The number `n`, if it is small enough to name a node. -/
def ofNat? (n : Nat) : Option NodeId := if h : n < UInt32.size then some ⟨n, h⟩ else none

/-- A node is shown as `#` and its number. -/
def label (id : NodeId) : String := "#" ++ toString id.index

end NodeId

/-- A node that holds keys. -/
structure Leaf (K : Type) where
  keys : List K
  next : Option NodeId
  parent : Option NodeId
deriving DecidableEq

/-- A node that holds separators, and one more child than separators. -/
structure Branch (K : Type) where
  keys : List K
  children : List NodeId
  parent : Option NodeId
deriving DecidableEq

inductive Node (K : Type) where
  | leaf (l : Leaf K)
  | branch (b : Branch K)
deriving DecidableEq

variable {K : Type}

namespace Leaf

def empty : Leaf K := ⟨[], none, none⟩

variable [Ord K]

/-- The number of keys up to `key`, on a leaf in order. -/
def rank (l : Leaf K) (key : K) : Nat := Bisect.cut (fun k => (compare k key).isLE) l.keys

/-- The leaf with `key` put behind all keys up to it. -/
def insert (l : Leaf K) (key : K) : Leaf K :=
  { l with keys := l.keys.insertIdx (l.rank key) key }

/-- Whether the last key up to `key` equals it. -/
def holds (l : Leaf K) (key : K) : Bool :=
  match l.rank key with
  | 0 => false
  | i + 1 => l.keys[i]?.any fun k => compare k key == .eq

end Leaf

namespace Branch

/-- The position of the child that a key belongs to: the number of leading separators up to it. -/
def route [Ord K] (b : Branch K) (key : K) : Nat :=
  (b.keys.takeWhile fun s => (compare s key).isLE).length

/-- The position of a node among the children. -/
def slotOf? (b : Branch K) (child : NodeId) : Option Nat := b.children.findIdx? (· == child)

end Branch

namespace Node

/-- The keys of a leaf, or the separators of a branch. -/
def keys : Node K → List K
  | .leaf l => l.keys
  | .branch b => b.keys

/-- The branch that lists the node among its children. -/
def parent : Node K → Option NodeId
  | .leaf l => l.parent
  | .branch b => b.parent

def withParent (p : Option NodeId) : Node K → Node K
  | .leaf l => .leaf { l with parent := p }
  | .branch b => .branch { b with parent := p }

def isLeaf : Node K → Bool
  | .leaf _ => true
  | .branch _ => false

end Node

end TracedIndex
