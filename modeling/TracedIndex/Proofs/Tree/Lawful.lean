import TracedIndex.Proofs.Subtree.Bounds
import TracedIndex.Proofs.Tree.Reachable

/-!
# Lawful trees

A tree is **lawful** if it is linked and its keys keep to the separators. It may be one that no run of
insertions gives: leaves may be empty, and separators need not be keys. All queries give the right
answers nevertheless, but for one: an equal key may stand to the left of the separators, where a search
does not look.

* `Lawful`; `Lawful.sorted`: the keys of a lawful tree are in order;
* `InOrder.lawful`: a tree in order is lawful.
-/

namespace TracedIndex.Tree

variable {K : Type} [Ord K] {o : Order} {t : Tree K o} {d : Nat} {root : Subtree K}

/-- The tree stores `root`, which is linked, keeps its keys between its separators, and has as many of
them as the length says. -/
structure Lawful (t : Tree K o) (d : Nat) (root : Subtree K) : Prop extends t.Linked d root where
  bounded : root.Bounded o d none none
  len_eq : t.len = root.keysIn.length

theorem InOrder.lawful [Std.ReflOrd K] (h : t.InOrder d root) : t.Lawful d root where
  toLinked := h.linked
  bounded := h.regular.bounded h.sorted fun _ _ => rfl
  len_eq := h.len_eq

/-- **The keys of a lawful tree are in order.** -/
theorem Lawful.sorted [Std.TransOrd K] (h : t.Lawful d root) : Sorted root.keysIn :=
  h.bounded.sorted.1

end TracedIndex.Tree
