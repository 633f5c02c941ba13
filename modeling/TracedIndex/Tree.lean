import TracedIndex.Arena

/-!
# Trees

A **tree** is an arena with the number of its root and the number of its keys. Its keys are those of
its leaves, from left to right; equal keys are all kept.

* `empty` is the tree of one empty leaf;
* `height` counts the levels, `findLeaf` descends to the leaf that a key belongs to, `firstLeaf` to
  the leftmost one.
-/

namespace TracedIndex

/-- A tree of keys of type `K` whose nodes split at order `o`. -/
structure Tree (K : Type) (o : Order) where
  arena : Arena K
  root : NodeId
  len : Nat

namespace Tree

variable {K : Type} {o : Order}

/-- The tree without keys: one empty leaf. -/
def empty : Tree K o := ⟨⟨#[.leaf .empty]⟩, ⟨0, by decide⟩, 0⟩

instance : Inhabited (Tree K o) := ⟨empty⟩

def isEmpty (t : Tree K o) : Bool := t.len == 0

/-- The number of nodes ever allocated. -/
def nodeCount (t : Tree K o) : Nat := t.arena.size

/-- The descent to the leaf that `key` belongs to. -/
def findLeaf [Ord K] (t : Tree K o) (key : K) : Except Fault Walk :=
  t.arena.descend (·.route key) t.arena.size t.root

/-- The descent along the first children. -/
def firstLeaf (t : Tree K o) : Except Fault Walk :=
  t.arena.descend (fun _ => 0) t.arena.size t.root

/-- The number of levels: one while the root is a leaf. -/
def height (t : Tree K o) : Except Fault Nat := t.arena.levels t.arena.size t.root

/-- A tree has as many levels as there are nodes on the way to its first leaf. -/
theorem height_eq_length (t : Tree K o) : t.height = t.firstLeaf.map fun w => w.path.length :=
  t.arena.levels_eq t.arena.size t.root

end Tree

end TracedIndex
