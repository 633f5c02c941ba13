import Mathlib.Algebra.GroupWithZero.Nat
import Mathlib.Data.List.Basic
import Mathlib.Data.List.Flatten
import TracedIndex.Snapshot.Subtree

/-!
# Lists read off a subtree

What a subtree holds is read off as lists, and the list of a branch is made of those of its
children. Every statement about subtrees goes by `Subtree.induction`, which has one case for a leaf
and one for a branch all of whose children are done.

* `keysIn`: the keys of the leaves from left to right; `first?` is the first of them;
* **`leaves_eq`**: the leaves by a stack and by recursion are the same;
* `next?`, `Chained`: the leaves of a subtree linked to each other, from a first number to the one
  that comes after the last leaf;
* `chains`: the ways from the root to the leaves;
* `length_ids`: there are as many numbers as nodes.
-/

namespace TracedIndex.Subtree

variable {K : Type}

/-! ## Induction -/

mutual

theorem induction {P : Subtree K → Prop} (leaf : ∀ id keys next, P (.leaf id keys next))
    (branch : ∀ id keys children, (∀ c ∈ children, P c) → P (.branch id keys children)) :
    ∀ s, P s
  | .leaf id keys next => leaf id keys next
  | .branch id keys children => branch id keys children (inductionList leaf branch children)

theorem inductionList {P : Subtree K → Prop} (leaf : ∀ id keys next, P (.leaf id keys next))
    (branch : ∀ id keys children, (∀ c ∈ children, P c) → P (.branch id keys children)) :
    ∀ ss : List (Subtree K), ∀ s ∈ ss, P s
  | s :: ss, t, ht =>
    (List.mem_cons.mp ht).elim (fun e => e ▸ induction leaf branch s)
      (inductionList leaf branch ss t)

end

/-! ## Lists of subtrees -/

theorem sizeList_eq (ss : List (Subtree K)) : sizeList ss = (ss.map size).sum := by
  induction ss with
  | nil => rfl
  | cons s ss ih => rw [sizeList, ih, List.map_cons, List.sum_cons]

theorem idsList_eq (ss : List (Subtree K)) : idsList ss = ss.flatMap ids := by
  induction ss with
  | nil => rfl
  | cons s ss ih => rw [idsList, ih, List.flatMap_cons]

theorem leavesInList_eq (ss : List (Subtree K)) : leavesInList ss = ss.flatMap leavesIn := by
  induction ss with
  | nil => rfl
  | cons s ss ih => rw [leavesInList, ih, List.flatMap_cons]

@[simp]
theorem size_branch (id : NodeId) (keys : List K) (children : List (Subtree K)) :
    (branch id keys children).size = (children.map size).sum + 1 := by
  rw [size, sizeList_eq]

@[simp]
theorem ids_leaf (id : NodeId) (keys : List K) (next : Option NodeId) :
    (leaf id keys next).ids = [id] := by
  rw [ids]

@[simp]
theorem ids_branch (id : NodeId) (keys : List K) (children : List (Subtree K)) :
    (branch id keys children).ids = id :: children.flatMap ids := by
  rw [ids, idsList_eq]

@[simp]
theorem leavesIn_leaf (id : NodeId) (keys : List K) (next : Option NodeId) :
    (leaf id keys next).leavesIn = [leaf id keys next] := by
  rw [leavesIn]

@[simp]
theorem leavesIn_branch (id : NodeId) (keys : List K) (children : List (Subtree K)) :
    (branch id keys children).leavesIn = children.flatMap leavesIn := by
  rw [leavesIn, leavesInList_eq]

theorem length_ids (s : Subtree K) : s.ids.length = s.size := by
  induction s using induction with
  | leaf id keys next => rw [ids_leaf, size, List.length_singleton]
  | branch id keys children ih =>
    rw [ids_branch, size_branch, List.length_cons, List.length_flatMap]
    congr 2
    exact List.map_congr_left ih

theorem id_mem_ids (s : Subtree K) : s.id ∈ s.ids := by
  cases s <;> simp [id]

theorem mem_flatMap_ids {ss : List (Subtree K)} {i : NodeId} (h : i ∈ ss.map id) :
    i ∈ ss.flatMap ids := by
  obtain ⟨s, hs, rfl⟩ := List.mem_map.mp h
  exact List.mem_flatMap.mpr ⟨s, hs, s.id_mem_ids⟩

/-! ## Keys -/

/-- The keys of the leaves from left to right. -/
def keysIn (s : Subtree K) : List K := keysOf s.leavesIn

/-- The first key, if there is one. -/
def first? (s : Subtree K) : Option K := s.keysIn.head?

@[simp]
theorem keysIn_leaf (id : NodeId) (keys : List K) (next : Option NodeId) :
    (leaf id keys next).keysIn = keys := by
  simp [keysIn, keysOf, Subtree.keys]

theorem keysOf_append (ss ts : List (Subtree K)) : keysOf (ss ++ ts) = keysOf ss ++ keysOf ts :=
  List.flatMap_append

theorem keysOf_flatMap_leavesIn (ss : List (Subtree K)) :
    keysOf (ss.flatMap leavesIn) = ss.flatMap keysIn := by
  rw [keysOf, List.flatMap_assoc]
  rfl

@[simp]
theorem keysIn_branch (id : NodeId) (keys : List K) (children : List (Subtree K)) :
    (branch id keys children).keysIn = children.flatMap keysIn := by
  rw [keysIn, leavesIn_branch, keysOf_flatMap_leavesIn]

/-! ## Leaves -/

theorem leavesIn_sublist (s : Subtree K) : (s.leavesIn.map id).Sublist s.ids := by
  induction s using induction with
  | leaf id keys next => simp [Subtree.id]
  | branch id keys children ih =>
    rw [leavesIn_branch, ids_branch, List.map_flatMap]
    exact (List.Sublist.flatMap_right _ ih).cons id

/-- The leaves of a stack are those of its subtrees, one after another. -/
theorem leavesOfStack_eq (stack : List (Subtree K)) :
    leavesOfStack stack = stack.flatMap leavesIn := by
  induction stack using leavesOfStack.induct with
  | case1 => rw [leavesOfStack, List.flatMap_nil]
  | case2 stack id keys next ih =>
    rw [leavesOfStack, ih, List.flatMap_cons, leavesIn_leaf, List.singleton_append]
  | case3 stack id keys children ih =>
    rw [leavesOfStack, ih, List.flatMap_append, List.flatMap_cons, leavesIn_branch]

theorem leaves_eq (s : Subtree K) : s.leaves = s.leavesIn := by
  rw [leaves, leavesOfStack_eq, List.flatMap_singleton]

/-- The number of the leaf that a leaf names as the next one. -/
def next? : Subtree K → Option NodeId
  | leaf _ _ next => next
  | branch .. => none

theorem eq_leaf_of_mem_leavesIn {s l : Subtree K} (h : l ∈ s.leavesIn) :
    l = .leaf l.id l.keys l.next? := by
  induction s using induction with
  | leaf id keys next =>
    rw [leavesIn_leaf, List.mem_singleton] at h
    rw [h]
    rfl
  | branch id keys children ih =>
    rw [leavesIn_branch, List.mem_flatMap] at h
    obtain ⟨c, hc, hl⟩ := h
    exact ih c hc hl

/-- Each of the nodes `ls` names the one behind it as the next one, beginning with `start` and
ending in front of `stop`. -/
def Chained (start : Option NodeId) : List (Subtree K) → Option NodeId → Prop
  | [], stop => start = stop
  | l :: ls, stop => start = some l.id ∧ Chained l.next? ls stop

theorem chained_append {start stop : Option NodeId} {ls ms : List (Subtree K)} :
    Chained start (ls ++ ms) stop ↔ ∃ mid, Chained start ls mid ∧ Chained mid ms stop := by
  induction ls generalizing start with
  | nil => simp [Chained]
  | cons l ls ih =>
    simp only [List.cons_append, Chained, ih]
    exact ⟨fun ⟨h, mid, h₁, h₂⟩ => ⟨mid, ⟨h, h₁⟩, h₂⟩, fun ⟨mid, ⟨h, h₁⟩, h₂⟩ => ⟨h, mid, h₁, h₂⟩⟩

theorem Chained.next?_eq {start stop : Option NodeId} {ls : List (Subtree K)}
    (h : Chained start ls stop) {i : Nat} {l : Subtree K} (hl : ls[i]? = some l) :
    l.next? = (ls[i + 1]?.map id).or stop := by
  induction ls generalizing start i with
  | nil => simp at hl
  | cons m ls ih =>
    cases i with
    | succ i => exact ih h.2 hl
    | zero =>
      obtain rfl : m = l := by simpa using hl
      have hrest := h.2
      cases ls with
      | nil => exact hrest
      | cons n ls => exact hrest.1

/-! ## Chains -/

mutual

/-- The numbers of the nodes on the ways from the root down to the leaves, the leftmost way first. -/
def chains : Subtree K → List (List NodeId)
  | .leaf id _ _ => [[id]]
  | .branch id _ children => (chainsList children).map (id :: ·)

def chainsList : List (Subtree K) → List (List NodeId)
  | [] => []
  | s :: ss => chains s ++ chainsList ss

end

theorem chainsList_eq (ss : List (Subtree K)) : chainsList ss = ss.flatMap chains := by
  induction ss with
  | nil => rfl
  | cons s ss ih => rw [chainsList, ih, List.flatMap_cons]

@[simp]
theorem chains_leaf (id : NodeId) (keys : List K) (next : Option NodeId) :
    (leaf id keys next).chains = [[id]] := by
  rw [chains]

@[simp]
theorem chains_branch (id : NodeId) (keys : List K) (children : List (Subtree K)) :
    (branch id keys children).chains = (children.flatMap chains).map (id :: ·) := by
  rw [chains, chainsList_eq]

/-- The chains end in the leaves, one in each. -/
theorem map_getLast?_chains (s : Subtree K) :
    s.chains.map List.getLast? = s.leavesIn.map fun l => some l.id := by
  induction s using induction with
  | leaf id keys next => simp [Subtree.id]
  | branch n keys children ih =>
    rw [chains_branch, leavesIn_branch, List.map_map, List.map_flatMap, List.map_flatMap]
    refine List.flatMap_congr fun c hc => ?_
    calc c.chains.map (List.getLast? ∘ (n :: ·))
        = (c.chains.map List.getLast?).map fun last => some (last.getD n) := by
          rw [List.map_map]
          exact List.map_congr_left fun p _ => List.getLast?_cons
      _ = c.leavesIn.map fun l => some l.id := by rw [ih c hc, List.map_map]; rfl

end TracedIndex.Subtree
