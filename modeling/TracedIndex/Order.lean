/-!
# The order of a tree

The **order** of a tree is the number of keys at which one of its nodes is split, so between two
insertions every node holds fewer keys than that. Splitting a node of three keys leaves a key in
both halves; with fewer keys it would not, so an order is at least three.
-/

namespace TracedIndex

/-- The number of keys at which a node is split. -/
structure Order where
  size : Nat
  three_le_size : 3 ≤ size := by decide
deriving DecidableEq

namespace Order

/-- The order of a tree for which none is given. -/
def standard : Order where
  size := 3

instance : Inhabited Order := ⟨standard⟩

/-- The order of the given size, if it is large enough. -/
def ofNat? (n : Nat) : Option Order := if h : 3 ≤ n then some ⟨n, h⟩ else none

end Order

end TracedIndex
