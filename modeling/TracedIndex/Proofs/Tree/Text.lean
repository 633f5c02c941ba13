import TracedIndex.Proofs.Format.Lost
import TracedIndex.Proofs.Subtree.Occupancy
import TracedIndex.Proofs.Tree.Refinement

/-!
# The text of a tree

The text of a snapshot nests two arrays or objects for each level of the tree, and one that nests more than
127 of them is not read. No tree is that high, in whatever order its keys came in: every branch has two
children or more, and there are numbers for no more than `2 ^ 32` nodes.

* `InOrder.nodeCount_le_numbers`, **`InOrder.height_le`**: how many nodes a tree has, and how many levels;
* `Snapshot.Shallow`: how deep the text of a snapshot nests;
* **`InOrder.parse_write`**: the snapshot of a tree is read back if its keys are.
-/

namespace TracedIndex

open Json

variable {K : Type}

/-- What holds of the keys of the leaves holds of the separators, since these are among them. -/
theorem Subtree.Regular.all {o : Order} {d : Nat} {s : Subtree K} (h : s.Regular o d) {P : K → Prop}
    (hP : ∀ k ∈ s.keysIn, P k) : s.All P := by
  induction h with
  | leaf =>
    rw [keysIn_leaf] at hP
    exact hP
  | @branch d id keys children hne hlt hsep hreg hfill ih =>
    have hs : (Subtree.branch id keys children).Regular o (d + 1) := .branch hne hlt hsep hreg hfill
    refine ⟨fun k hk => hP k (hs.keys_sublist.subset hk), allList_of_mem fun c hc => ih c hc fun k hk => ?_⟩
    rw [keysIn_branch] at hP
    exact hP k (List.mem_flatMap.mpr ⟨c, hc, hk⟩)

namespace Snapshot

variable [KeyFormat K]

/-- The text of the snapshot is JSON that nests two arrays or objects for each level of the tree and one
more, and at most 65 of them. -/
def Shallow (s : Snapshot K) : Prop :=
  ∃ v : Value, v.Spelled s.write.toList ∧ v.depth = 2 * s.height + 1 ∧ v.depth ≤ 65

theorem shallow_of_spelled {s : Snapshot K} {v : Value} (hv : v.Spelled s.write.toList)
    (hdepth : v.depth = 2 * s.root.levels + 1) (hlevels : s.root.levels = s.height)
    (hheight : s.height ≤ 32) : s.Shallow :=
  ⟨v, hv, hlevels ▸ hdepth, by omega⟩

end Snapshot

namespace Tree

variable {o : Order} {t : Tree K o} {d : Nat} {root : Subtree K}

/-- The order and the length of the tree are those of a machine word. -/
def Sized (t : Tree K o) : Prop := o.size < UInt64.size ∧ t.len < UInt64.size

instance (t : Tree K o) : Decidable t.Sized := by unfold Sized; infer_instance

variable [Ord K]

theorem InOrder.nodeCount_le_numbers (h : t.InOrder d root) : t.nodeCount ≤ 2 ^ 32 :=
  h.stores.covers.size_le

/-- **No tree has more than 32 levels.** -/
theorem InOrder.height_le (h : t.InOrder d root) : d + 1 ≤ 32 := by
  have hsize := h.regular.two_pow_le_size
  rw [h.stores.size_eq] at hsize
  have hcount : t.arena.size ≤ 2 ^ 32 := h.nodeCount_le_numbers
  by_contra hd
  have := Nat.pow_le_pow_right Nat.two_pos (show 33 ≤ d + 1 by omega)
  omega

/-- The snapshot of a tree in order. -/
theorem InOrder.exists_snapshot (h : t.InOrder d root) (ht : t.Sized) : ∃ s, t.snapshot = .ok s ∧
    s.root = root ∧ s.Sized ∧ s.root.levels = s.height ∧ s.height ≤ 32 := by
  have hheight := h.height_le
  have hsize : UInt64.size = 2 ^ 64 := rfl
  refine ⟨_, h.snapshot_eq, rfl, ⟨ht.1, ?_, h.len_eq ▸ ht.2⟩, h.regular.balanced.levels_eq, hheight⟩
  exact Nat.lt_of_le_of_lt hheight (by rw [hsize]; decide)

theorem sized_of_ofKeys [Std.TransOrd K] {keys : List K} (h : ofKeys keys = .ok t)
    (ho : o.size < UInt64.size) (hkeys : keys.length < UInt64.size) : t.Sized := by
  obtain ⟨d, root, hin, hsort⟩ := inOrder_of_ofKeys h
  exact ⟨ho, by rwa [hin.len_eq, hsort.perm.length_eq]⟩

variable [KeyFormat K] [ScalarFormat K]

/-- **The snapshot of a tree is read back if all its keys are**: its text is not nested too deep. -/
theorem InOrder.parse_write (h : t.InOrder d root) (ht : t.Sized)
    (hkeys : ∀ k ∈ root.keysIn, KeyFormat.Faithful k) :
    ∃ s, t.snapshot = .ok s ∧ s.root = root ∧ s.Shallow ∧ Snapshot.parse s.write = .ok s := by
  obtain ⟨s, hs, rfl, hsized, hlevels, hheight⟩ := h.exists_snapshot ht
  have hall := h.regular.all hkeys
  have hspelled : s.toValue.Spelled s.write.toList := by
    rw [Snapshot.write, String.toList_ofList]
    exact Snapshot.spelled_toValue hall hsized
  refine ⟨s, hs, rfl, Snapshot.shallow_of_spelled hspelled s.depth_toValue hlevels hheight, ?_⟩
  exact (Snapshot.parse_write hall hsized).trans (if_pos (by omega))

end Tree

end TracedIndex
