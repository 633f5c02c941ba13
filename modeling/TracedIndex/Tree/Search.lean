import TracedIndex.Tree

/-!
# Point search

A search descends to the one leaf that a key belongs to and looks there only. Its **path** is the
list of the nodes that it visited, the root first.

* `Tree.search` gives the path and whether the key was found; `Tree.contains` makes the same descent and the
  same lookup, and keeps no path.
-/

namespace TracedIndex

/-- The outcome of a point search: whether the key is there, and the nodes visited. -/
structure Search where
  found : Bool
  path : List NodeId
deriving DecidableEq

namespace Tree

variable {K : Type} [Ord K] {o : Order}

def search (t : Tree K o) (key : K) : Except Fault Search := do
  let w ← t.findLeaf key
  let l ← t.arena.leaf w.stop
  pure ⟨l.holds key, w.path⟩

/-- Whether `key` is in the leaf it belongs to. -/
def contains (t : Tree K o) (key : K) : Except Fault Bool := do
  let w ← t.findLeaf key
  let l ← t.arena.leaf w.stop
  pure (l.holds key)

/-- Both look into the same leaf. -/
theorem contains_eq (t : Tree K o) (key : K) : t.contains key = (t.search key).map Search.found := by
  unfold contains search
  cases t.findLeaf key with
  | error f => rfl
  | ok w =>
    simp only [bind, Except.bind]
    cases t.arena.leaf w.stop <;> rfl

end Tree

end TracedIndex
