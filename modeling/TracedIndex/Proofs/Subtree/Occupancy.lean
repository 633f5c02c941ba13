import Mathlib.Algebra.Group.Action.Defs
import Mathlib.Algebra.Order.BigOperators.Group.List
import Mathlib.Algebra.Order.Ring.Nat
import Mathlib.Tactic.Ring
import TracedIndex.Proofs.Subtree.Shape

/-!
# How full a tree is

A leaf that is split keeps the half of its keys that is rounded up, a branch the half of its
separators that is rounded down, and so both halves of either are filled. Every level of a tree then
multiplies the number of keys, by the least and by the greatest number of children.

* `Regular.length_children_bounds`: a branch has at least two children, and at most the order;
* **`Regular.length_keysIn_le`**, **`Regular.le_length_keysIn`**: the number of keys of a regular
  subtree, by its depth;
* `Regular.two_pow_le_size`: the number of its nodes.
-/

namespace TracedIndex.Subtree

variable {K : Type} {o : Order} {d : Nat}

theorem length_flatMap_keysIn_le {ss : List (Subtree K)} {most : Nat}
    (h : ∀ s ∈ ss, s.keysIn.length ≤ most) : (ss.flatMap keysIn).length ≤ ss.length * most := by
  rw [List.length_flatMap]
  have hsum := List.sum_le_card_nsmul (ss.map fun s => s.keysIn.length) most
    (List.forall_mem_map.mpr h)
  rwa [List.length_map, smul_eq_mul] at hsum

theorem le_length_flatMap_keysIn {ss : List (Subtree K)} {least : Nat}
    (h : ∀ s ∈ ss, least ≤ s.keysIn.length) : ss.length * least ≤ (ss.flatMap keysIn).length := by
  rw [List.length_flatMap]
  have hsum := List.card_nsmul_le_sum (ss.map fun s => s.keysIn.length) least
    (List.forall_mem_map.mpr h)
  rwa [List.length_map, smul_eq_mul] at hsum

namespace Regular

theorem length_children_bounds {id : NodeId} {keys : List K} {children : List (Subtree K)}
    (h : (Subtree.branch id keys children).Regular o d) :
    2 ≤ children.length ∧ children.length ≤ o.size := by
  cases h with
  | branch hne hlt hsep _ _ =>
    have hlen := length_children hne hsep
    have hpos := List.length_pos_iff.mpr hne
    omega

/-- **A subtree of depth `d` has no more keys than one whose nodes are as full as they can be.** -/
theorem length_keysIn_le {s : Subtree K} (h : s.Regular o d) :
    s.keysIn.length ≤ (o.size - 1) * o.size ^ d := by
  induction h with
  | leaf hlt =>
    rw [keysIn_leaf, Nat.pow_zero, Nat.mul_one]
    omega
  | @branch d id keys children hne hlt hsep hreg hfill ih =>
    have hs : (Subtree.branch id keys children).Regular o (d + 1) :=
      .branch hne hlt hsep hreg hfill
    rw [keysIn_branch]
    calc (children.flatMap keysIn).length
        ≤ children.length * ((o.size - 1) * o.size ^ d) := length_flatMap_keysIn_le ih
      _ ≤ o.size * ((o.size - 1) * o.size ^ d) := Nat.mul_le_mul_right _ hs.length_children_bounds.2
      _ = (o.size - 1) * o.size ^ (d + 1) := by ring

/-- **A filled subtree of depth `d` has no fewer keys than one whose nodes are just filled.** -/
theorem le_length_keysIn {s : Subtree K} (h : s.Regular o d) (hf : s.Filled o) :
    ((o.size + 1) / 2) ^ d * (o.size / 2) ≤ s.keysIn.length := by
  induction h with
  | leaf =>
    rw [keysIn_leaf, Nat.pow_zero, Nat.one_mul]
    exact hf
  | @branch d id keys children _ _ _ _ hfill ih =>
    rw [keysIn_branch]
    calc ((o.size + 1) / 2) ^ (d + 1) * (o.size / 2)
        = (o.size + 1) / 2 * (((o.size + 1) / 2) ^ d * (o.size / 2)) := by ring
      _ ≤ children.length * (((o.size + 1) / 2) ^ d * (o.size / 2)) := Nat.mul_le_mul_right _ hf
      _ ≤ (children.flatMap keysIn).length :=
        le_length_flatMap_keysIn fun c hc => ih c hc (hfill c hc)

/-- **A root above filled children has no fewer keys than two of them that are just filled.** -/
theorem two_mul_le_length_keysIn {s : Subtree K} (h : s.Regular o (d + 1)) :
    2 * (((o.size + 1) / 2) ^ d * (o.size / 2)) ≤ s.keysIn.length := by
  cases h with
  | @branch _ id keys children hne hlt hsep hreg hfill =>
    have hs : (Subtree.branch id keys children).Regular o (d + 1) :=
      .branch hne hlt hsep hreg hfill
    rw [keysIn_branch]
    calc 2 * (((o.size + 1) / 2) ^ d * (o.size / 2))
        ≤ children.length * (((o.size + 1) / 2) ^ d * (o.size / 2)) :=
          Nat.mul_le_mul_right _ hs.length_children_bounds.1
      _ ≤ (children.flatMap keysIn).length :=
        le_length_flatMap_keysIn fun c hc => (hreg c hc).le_length_keysIn (hfill c hc)

/-- **A subtree of depth `d` has no fewer nodes than one in which every branch has two children.** -/
theorem two_pow_le_size {s : Subtree K} (h : s.Regular o d) : 2 ^ (d + 1) ≤ s.size + 1 := by
  induction h with
  | leaf => exact Nat.le_refl _
  | @branch d id keys children hne hlt hsep hreg hfill ih =>
    have hs : (Subtree.branch id keys children).Regular o (d + 1) :=
      .branch hne hlt hsep hreg hfill
    have hleast : ∀ n ∈ children.map size, 2 ^ (d + 1) - 1 ≤ n :=
      List.forall_mem_map.mpr fun c hc => Nat.sub_le_of_le_add (ih c hc)
    have hsum := List.card_nsmul_le_sum (children.map size) _ hleast
    rw [List.length_map, smul_eq_mul] at hsum
    have htwo := Nat.mul_le_mul_right (2 ^ (d + 1) - 1) hs.length_children_bounds.1
    have hpos : 0 < 2 ^ (d + 1) := Nat.two_pow_pos _
    rw [size_branch, Nat.pow_succ]
    omega

end Regular

end TracedIndex.Subtree
