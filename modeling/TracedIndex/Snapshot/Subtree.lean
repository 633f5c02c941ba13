import TracedIndex.Node

/-!
# Subtrees

A **subtree** is a copy of a node together with all that is below it. Any shape is a value: nothing
ties the number of children to the separators, the numbers of the nodes to each other, or the leaves
to one level.

* `size` counts the nodes, `levels` those of the longest chain from the root down;
* `leaves` lists the leaves from left to right by a stack of the subtrees still to visit, `leavesIn`
  by recursion; `ids` lists the numbers of all nodes, `separators` the separators in order.
-/

namespace TracedIndex

/-- A copied node, and the copies of all nodes below it. -/
inductive Subtree (K : Type) where
  | leaf (id : NodeId) (keys : List K) (next : Option NodeId)
  | branch (id : NodeId) (keys : List K) (children : List (Subtree K))

namespace Subtree

variable {K : Type}

def id : Subtree K → NodeId
  | .leaf id _ _ => id
  | .branch id _ _ => id

/-- The keys or separators of the copied node. -/
def keys : Subtree K → List K
  | .leaf _ keys _ => keys
  | .branch _ keys _ => keys

def isLeaf : Subtree K → Bool
  | .leaf .. => true
  | .branch .. => false

/-! ## Measures -/

mutual

/-- The number of nodes. -/
def size : Subtree K → Nat
  | .leaf .. => 1
  | .branch _ _ children => sizeList children + 1

def sizeList : List (Subtree K) → Nat
  | [] => 0
  | s :: ss => size s + sizeList ss

end

mutual

/-- The number of nodes on the longest chain from the root down. -/
def levels : Subtree K → Nat
  | .leaf .. => 1
  | .branch _ _ children => levelsList children + 1

def levelsList : List (Subtree K) → Nat
  | [] => 0
  | s :: ss => max (levels s) (levelsList ss)

end

theorem sizeList_append (ss ts : List (Subtree K)) :
    sizeList (ss ++ ts) = sizeList ss + sizeList ts := by
  induction ss with
  | nil => simp [sizeList]
  | cons s ss ih => simp only [List.cons_append, sizeList, ih]; omega

theorem size_pos (s : Subtree K) : 0 < s.size := by cases s <;> simp [size]

/-! ## Lists read off a subtree -/

mutual

/-- The numbers of all nodes, each before those below it. -/
def ids : Subtree K → List NodeId
  | .leaf id _ _ => [id]
  | .branch id _ children => id :: idsList children

def idsList : List (Subtree K) → List NodeId
  | [] => []
  | s :: ss => ids s ++ idsList ss

end

mutual

/-- The leaves from left to right, by recursion. -/
def leavesIn : Subtree K → List (Subtree K)
  | .leaf id keys next => [.leaf id keys next]
  | .branch _ _ children => leavesInList children

def leavesInList : List (Subtree K) → List (Subtree K)
  | [] => []
  | s :: ss => leavesIn s ++ leavesInList ss

end

mutual

/-- The separators of all branches, each between those of the children around it. -/
def separators : Subtree K → List K
  | .leaf .. => []
  | .branch _ keys children => separatorsAmong keys children

/-- The separators of some children, with those of `keys` between them. -/
def separatorsAmong (keys : List K) : List (Subtree K) → List K
  | [] => []
  | s :: ss => separators s ++ keys.head?.toList ++ separatorsAmong keys.tail ss

end

/-- The leaves of a stack of subtrees, of which the top is visited first: a branch gives way to its
children. -/
def leavesOfStack : List (Subtree K) → List (Subtree K)
  | [] => []
  | .leaf id keys next :: stack => .leaf id keys next :: leavesOfStack stack
  | .branch _ _ children :: stack => leavesOfStack (children ++ stack)
termination_by stack => sizeList stack
decreasing_by all_goals simp [sizeList, size, sizeList_append]

/-- The leaves from left to right. -/
def leaves (s : Subtree K) : List (Subtree K) := leavesOfStack [s]

/-- The keys of a list of nodes, one node after another. -/
def keysOf (ss : List (Subtree K)) : List K := ss.flatMap keys

/-! ## Changing the keys -/

mutual

/-- The same shape with `f` applied to every key. -/
def map {L : Type} (f : K → L) : Subtree K → Subtree L
  | .leaf id keys next => .leaf id (keys.map f) next
  | .branch id keys children => .branch id (keys.map f) (mapList f children)

def mapList {L : Type} (f : K → L) : List (Subtree K) → List (Subtree L)
  | [] => []
  | s :: ss => map f s :: mapList f ss

end

/-! ## Comparison -/

mutual

/-- Equality of subtrees, with the keys compared by their own equality. -/
def beq [BEq K] : Subtree K → Subtree K → Bool
  | .leaf id keys next, .leaf id' keys' next' => id == id' && keys == keys' && next == next'
  | .branch id keys children, .branch id' keys' children' =>
    id == id' && keys == keys' && beqList children children'
  | _, _ => false

def beqList [BEq K] : List (Subtree K) → List (Subtree K) → Bool
  | [], [] => true
  | s :: ss, t :: ts => beq s t && beqList ss ts
  | _, _ => false

end

instance [BEq K] : BEq (Subtree K) := ⟨beq⟩

mutual

theorem eq_of_beq [BEq K] [LawfulBEq K] : ∀ {s t : Subtree K}, beq s t → s = t
  | .leaf .., .leaf .., h => by simp_all [beq]
  | .branch .., .branch .., h => by
    simp only [beq, Bool.and_eq_true, beq_iff_eq] at h
    rw [h.1.1, h.1.2, eq_of_beqList h.2]
  | .leaf .., .branch .., h => by simp [beq] at h
  | .branch .., .leaf .., h => by simp [beq] at h

theorem eq_of_beqList [BEq K] [LawfulBEq K] : ∀ {ss ts : List (Subtree K)}, beqList ss ts → ss = ts
  | [], [], _ => rfl
  | s :: ss, t :: ts, h => by
    simp only [beqList, Bool.and_eq_true] at h
    rw [eq_of_beq h.1, eq_of_beqList h.2]
  | [], _ :: _, h => by simp [beqList] at h
  | _ :: _, [], h => by simp [beqList] at h

end

mutual

theorem beq_self [BEq K] [LawfulBEq K] : ∀ s : Subtree K, beq s s
  | .leaf .. => by simp [beq]
  | .branch _ _ children => by simp [beq, beqList_self children]

theorem beqList_self [BEq K] [LawfulBEq K] : ∀ ss : List (Subtree K), beqList ss ss
  | [] => rfl
  | s :: ss => by simp [beqList, beq_self s, beqList_self ss]

end

instance [BEq K] [LawfulBEq K] : LawfulBEq (Subtree K) where
  eq_of_beq := eq_of_beq
  rfl := beq_self _

end Subtree

end TracedIndex
