import TracedIndex.Snapshot.Subtree

/-!
# Visiting the leaves of a subtree

The leaves are found by a loop over a stack of nodes still to visit. In each round the last node of the stack
is taken off. A leaf is noted; a branch puts its children on the stack, the last one first, so that the first
one is visited next.

* `Visit`, `Visit.step`: the loop under way, and one round of it; `Visit.run`: the loop to its end, within a
  number of rounds;
* `nodeAt?`: the node at a place, which is given by the indices of the children on the way down to it;
* `leafPlaces`: the places of the leaves, from left to right.
-/

namespace TracedIndex.Subtree

variable {K : Type}

/-! ## The loop -/

/-- A visit under way: the leaves found so far, and the nodes to visit, the next one last. -/
structure Visit (K : Type) where
  found : List (Subtree K)
  pending : List (Subtree K)

namespace Visit

/-- One round, unless there is nothing left to visit. -/
def step (v : Visit K) : Option (Visit K) :=
  match v.pending.getLast? with
  | none => none
  | some (.leaf id keys next) => some ⟨v.found ++ [.leaf id keys next], v.pending.dropLast⟩
  | some (.branch _ _ children) => some ⟨v.found, v.pending.dropLast ++ children.reverse⟩

/-- The leaves found in the end, if the loop ends within so many rounds. -/
def run (v : Visit K) (rounds : Nat) : Option (List (Subtree K)) :=
  match v.step, rounds with
  | none, _ => some v.found
  | some _, 0 => none
  | some w, rounds + 1 => w.run rounds

end Visit

/-! ## Places -/

/-- The node at a place, if there is one. -/
def nodeAt? (s : Subtree K) : List Nat → Option (Subtree K)
  | [] => some s
  | i :: place =>
    match s with
    | .leaf .. => none
    | .branch _ _ children => children[i]?.bind fun c => c.nodeAt? place

mutual

/-- The places of the leaves, from left to right. -/
def leafPlaces : Subtree K → List (List Nat)
  | .leaf .. => [[]]
  | .branch _ _ children => leafPlacesFrom 0 children

/-- The places of the leaves below some children, the first of which has the index `i`. -/
def leafPlacesFrom (i : Nat) : List (Subtree K) → List (List Nat)
  | [] => []
  | s :: ss => (leafPlaces s).map (i :: ·) ++ leafPlacesFrom (i + 1) ss

end

end TracedIndex.Subtree
