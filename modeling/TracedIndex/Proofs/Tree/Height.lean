import Mathlib.Data.List.Permutation
import Mathlib.Data.Nat.Log
import TracedIndex.Proofs.Subtree.Occupancy
import TracedIndex.Proofs.Tree.Reachable

/-!
# The height of a tree

Every node but the root of a tree in order is filled, and none is full. So the number of keys grows
with the height at least as a power of half the order, and at most as a power of the order itself, in
whatever order the keys came in.

* `InOrder.leaf_bounds`, `InOrder.branch_bounds`: how many keys a leaf has, and how many children a
  branch;
* `InOrder.len_le`, `InOrder.le_len`: how many keys a tree has, by its height;
* **`height_of_reachable`**: all of this for a reachable tree, and so the height is logarithmic in the
  number of keys.
-/

namespace TracedIndex

/-- Two leaves that are just filled have at least as many keys as a branch that is just filled has
children. -/
theorem Order.half_le (o : Order) : (o.size + 1) / 2 ≤ 2 * (o.size / 2) := by
  have := o.three_le_size
  omega

namespace Tree

variable {K : Type} [Ord K] {o : Order} {t : Tree K o} {d : Nat} {root : Subtree K}

/-! ## Single nodes -/

theorem InOrder.leaf_bounds (h : t.InOrder d root) {id : NodeId} {l : Leaf K}
    (hl : t.arena.leaf id = .ok l) :
    l.keys.length ≤ o.size - 1 ∧ (id ≠ t.root → o.size / 2 ≤ l.keys.length) := by
  obtain ⟨fs, s, e, -, hs, hreg, hfilled⟩ := h.exists_hole (Arena.leaf_eq_ok_iff.mp hl)
  cases s with
  | leaf id' keys next =>
    obtain rfl := Node.leaf.inj hs
    exact ⟨Nat.le_sub_one_of_lt hreg.length_keys_lt, hfilled⟩
  | branch id' keys children => cases hs

theorem InOrder.branch_bounds (h : t.InOrder d root) {id : NodeId} {b : Branch K}
    (hb : t.arena.branch id = .ok b) :
    2 ≤ b.children.length ∧ b.children.length ≤ o.size ∧
      (id ≠ t.root → (o.size + 1) / 2 ≤ b.children.length) := by
  obtain ⟨fs, s, e, -, hs, hreg, hfilled⟩ := h.exists_hole (Arena.branch_eq_ok_iff.mp hb)
  cases s with
  | leaf id' keys next => cases hs
  | branch id' keys children =>
    obtain rfl := Node.branch.inj hs
    rw [List.length_map]
    exact ⟨hreg.length_children_bounds.1, hreg.length_children_bounds.2, hfilled⟩

/-! ## Whole trees -/

theorem InOrder.len_le (h : t.InOrder d root) : t.len ≤ (o.size - 1) * o.size ^ d :=
  h.len_eq ▸ h.regular.length_keysIn_le

theorem InOrder.le_len (h : t.InOrder (d + 1) root) :
    2 * ((o.size + 1) / 2) ^ d * (o.size / 2) ≤ t.len := by
  rw [h.len_eq, Nat.mul_assoc]
  exact h.regular.two_mul_le_length_keysIn

theorem InOrder.log_le (h : t.InOrder d root) : Nat.log o.size t.len ≤ d := by
  have := o.three_le_size
  refine Nat.lt_succ_iff.mp (Nat.log_lt_of_lt_pow' (Nat.succ_ne_zero d) ?_)
  calc t.len ≤ (o.size - 1) * o.size ^ d := h.len_le
    _ < o.size * o.size ^ d := Nat.mul_lt_mul_of_pos_right (by omega) (Nat.pow_pos (by omega))
    _ = o.size ^ (d + 1) := by rw [Nat.pow_succ']

theorem InOrder.le_log (h : t.InOrder d root) : d ≤ Nat.log ((o.size + 1) / 2) t.len := by
  cases d with
  | zero => exact Nat.zero_le _
  | succ d =>
    have := o.three_le_size
    refine Nat.le_log_of_pow_le (by omega) ?_
    calc ((o.size + 1) / 2) ^ (d + 1) = ((o.size + 1) / 2) ^ d * ((o.size + 1) / 2) := Nat.pow_succ ..
      _ ≤ ((o.size + 1) / 2) ^ d * (2 * (o.size / 2)) := Nat.mul_le_mul_left _ o.half_le
      _ = 2 * ((o.size + 1) / 2) ^ d * (o.size / 2) := by ring
      _ ≤ t.len := h.le_len

variable [Std.TransOrd K]

/-- **No node of a tree is too full, and none but its root too empty, so its height is logarithmic in
the number of its keys.** A leaf below the root has at least half as many keys as the order says,
rounded down, and a branch below the root half as many children, rounded up. -/
theorem height_of_reachable (h : t.Reachable) :
    (∀ id l, t.arena.leaf id = .ok l →
      l.keys.length ≤ o.size - 1 ∧ (id ≠ t.root → o.size / 2 ≤ l.keys.length)) ∧
    (∀ id b, t.arena.branch id = .ok b → 2 ≤ b.children.length ∧ b.children.length ≤ o.size ∧
      (id ≠ t.root → (o.size + 1) / 2 ≤ b.children.length)) ∧
    ∃ levels, t.height = .ok levels ∧ t.len ≤ (o.size - 1) * o.size ^ (levels - 1) ∧
      (2 ≤ levels → 2 * ((o.size + 1) / 2) ^ (levels - 2) * (o.size / 2) ≤ t.len) ∧
      Nat.log o.size t.len < levels ∧ levels ≤ Nat.log ((o.size + 1) / 2) t.len + 1 := by
  obtain ⟨d, root, hin⟩ := h.inOrder
  refine ⟨fun id l hl => hin.leaf_bounds hl, fun id b hb => hin.branch_bounds hb, d + 1,
    hin.height_eq, hin.len_le, fun hlevels => ?_, Nat.lt_succ_of_le hin.log_le,
    Nat.succ_le_succ hin.le_log⟩
  obtain ⟨e, rfl⟩ : ∃ e, d = e + 1 := ⟨d - 1, by omega⟩
  exact hin.le_len

/-- Seven keys, each put in front of all others, are on two or three levels. -/
theorem height_of_seven_keys : ∃ (t : Tree Nat .standard) (levels : Nat),
    ofKeys [7, 6, 5, 4, 3, 2, 1] = .ok t ∧ t.height = .ok levels ∧ 2 ≤ levels ∧ levels ≤ 3 := by
  have hrun : (ofKeys [7, 6, 5, 4, 3, 2, 1] : Except Fault (Tree Nat .standard)).bind
      (fun t => .ok t.len) = .ok 7 := by cbv
  obtain ⟨t, ht, hlen⟩ := bind_eq_ok_iff.mp hrun
  obtain ⟨-, -, levels, hlevels, -, -, hlow, hhigh⟩ := height_of_reachable ⟨_, ht⟩
  rw [show t.len = 7 from Except.ok.inj hlen] at hlow hhigh
  rw [show Nat.log Order.standard.size 7 = 1 by decide] at hlow
  rw [show Nat.log ((Order.standard.size + 1) / 2) 7 = 2 by decide] at hhigh
  exact ⟨t, levels, ht, hlevels, hlow, hhigh⟩

end Tree

end TracedIndex
