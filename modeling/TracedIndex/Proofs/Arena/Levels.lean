import TracedIndex.Proofs.Arena.Walk

/-!
# Levels

The nodes of a tree are on **levels**: the root on the first, and the children of a branch on the level
below it. No node knows its level, and the way up goes by links that are written anew with each split. It
takes one step for each level all the same, since a node on level `l` is in the hole of a trail of
`l - 1` frames.

* `OnLevel`; **`onLevel_iff`**: the level of a node is the place that it has in the tree;
* `LeadsUp`, **`leadsUp_plug`**: the way up from a node.
-/

namespace TracedIndex.Arena

variable {K : Type} {a : Arena K} {root s : Subtree K} {fs : Trail K} {l : Nat} {id : NodeId}

/-- The node `id` is on level `l`, where `root` is on the first one. -/
inductive OnLevel (a : Arena K) (root : NodeId) : Nat → NodeId → Prop
  | root : OnLevel a root 1 root
  | child {l : Nat} {parent child : NodeId} (above : OnLevel a root l parent)
    (lists : a.Lists parent child) : OnLevel a root (l + 1) child

theorem onLevel_plug (h : a.Holds none (fs.plug s)) :
    a.OnLevel (fs.plug s).id (fs.length + 1) s.id := by
  induction fs generalizing s with
  | nil => exact .root
  | cons f fs ih =>
    obtain ⟨hframe, -⟩ := (holds_plug.mp h).2
    refine .child (ih h) ⟨_, branch_eq_ok_iff.mpr hframe.node, ?_⟩
    exact List.mem_append_right _ List.mem_cons_self

/-- **A node is on a level if it has a place in the tree with as many branches above it.** -/
theorem onLevel_iff (h : a.Holds none root) :
    a.OnLevel root.id l id ↔
      ∃ (fs : Trail K) (s : Subtree K), fs.plug s = root ∧ s.id = id ∧ l = fs.length + 1 := by
  constructor
  · intro hl
    induction hl with
    | root => exact ⟨[], root, rfl, rfl, rfl⟩
    | child above lists ih =>
      obtain ⟨fs, s, rfl, rfl, rfl⟩ := ih
      obtain ⟨b, hb, hmem⟩ := lists
      have hs := (holds_plug.mp h).1
      have hnode := Except.ok.inj (hs.node_eq.symm.trans (branch_eq_ok_iff.mp hb))
      cases s with
      | leaf id keys next => cases hnode
      | branch id keys children =>
        obtain rfl := Node.branch.inj hnode
        obtain ⟨c, hc, rfl⟩ := List.mem_map.mp hmem
        obtain ⟨before, after, rfl⟩ := List.append_of_mem hc
        exact ⟨⟨id, keys, before, after⟩ :: fs, c, rfl, rfl, rfl⟩
  · rintro ⟨fs, s, rfl, rfl, rfl⟩
    exact onLevel_plug h

/-- The way up from the node `id` ends at `root`, and visits `l` nodes, both ends included. -/
def LeadsUp (a : Arena K) (root : NodeId) (l : Nat) (id : NodeId) : Prop :=
  ∃ w, a.ascend a.size id = .ok w ∧ w.path.length = l ∧ w.stop = root

/-- **The way up from the hole of a trail passes each of its branches.** -/
theorem leadsUp_plug (h : a.Stores (fs.plug s)) :
    a.LeadsUp (fs.plug s).id (fs.length + 1) s.id :=
  ⟨_, ascend_plug h.holds h.length_lt, by simp, rfl⟩

end TracedIndex.Arena
