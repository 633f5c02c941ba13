import TracedIndex.Tree

/-!
# Looking along the leaves

The leaf that a key belongs to can be found without separators, by going along the chain of the leaves and
looking at the first key of each. That takes as many steps as there are leaves, and so it is not how a
search finds it.

* `Leaf.startsUpTo`: what is asked of a leaf;
* `Tree.leafAlongChain`: the last leaf that starts with a key up to a given one, or the leftmost leaf.
-/

namespace TracedIndex

variable {K : Type} [Ord K]

/-- The leaf has a first key, and it is up to `key`. -/
def Leaf.startsUpTo (l : Leaf K) (key : K) : Bool := l.keys.head?.any fun k => (compare k key).isLE

theorem Leaf.startsUpTo_iff {l : Leaf K} {key : K} :
    l.startsUpTo key ↔ ∃ k, l.keys.head? = some k ∧ (compare k key).isLE := by
  rw [startsUpTo, Option.any_eq_true]

/-- The last leaf in the chain whose first key is up to `key`, and the leftmost leaf if there is none. -/
def Tree.leafAlongChain {o : Order} (t : Tree K o) (key : K) : Except Fault NodeId := do
  let leftmost := (← t.firstLeaf).stop
  let leaves := (← t.arena.chain t.arena.size leftmost).path
  let starting ← leaves.filterM fun id => return (← t.arena.leaf id).startsUpTo key
  pure (starting.getLast?.getD leftmost)

end TracedIndex
