import Mathlib.Data.List.Permutation
import TracedIndex.Proofs.Arena.Rounds
import TracedIndex.Proofs.Tree.Reachable

/-!
# How long the walks are

Nothing in an arena says how long a walk through it is, and a single wrong link would lead it in a circle.
In a tree in order the height bounds all of them but the one along the leaves. That holds in the middle
of an insertion as well, at each place from which the root is looked for.

* `Linked.exists_onLevel`, `Linked.leadsUp`: the way up from each node;
* `Linked.mem_leavesIn`, `Linked.nodup_leavesIn`: the leaves of the arena are those of the stored tree,
  each once;
* `InOrder.leadsUp_put`, **`InOrder.rounds`**: the way up in the middle of an insertion;
* **`walks_of_reachable`**: all walks through a reachable tree.
-/

namespace TracedIndex.Tree

variable {K : Type} {o : Order} {t : Tree K o} {d : Nat} {root : Subtree K}

/-! ## Trees in order -/

namespace Linked

/-- Every node is on some level. -/
theorem exists_onLevel (h : t.Linked d root) {id : NodeId} (hid : id.index < t.nodeCount) :
    ∃ l, t.arena.OnLevel t.root l id := by
  obtain ⟨fs, s, rfl, rfl⟩ := h.exists_trail hid
  exact ⟨_, h.root_eq ▸ Arena.onLevel_plug h.stores.holds⟩

/-- **The way up from a node on level `l` visits `l` nodes and ends at the root.** -/
theorem leadsUp (h : t.Linked d root) {l : Nat} {id : NodeId} (hl : t.arena.OnLevel t.root l id) :
    l ≤ d + 1 ∧ t.arena.LeadsUp t.root l id := by
  rw [h.root_eq] at hl ⊢
  obtain ⟨fs, s, rfl, rfl, rfl⟩ := (Arena.onLevel_iff h.stores.holds).mp hl
  obtain ⟨e, hd, -⟩ := h.balanced.of_plug
  exact ⟨by omega, Arena.leadsUp_plug h.stores⟩

theorem mem_leavesIn (h : t.Linked d root) {id : NodeId} {l : Leaf K} (hl : t.arena.leaf id = .ok l) :
    id ∈ root.leavesIn.map Subtree.id := by
  have hnode := Arena.leaf_eq_ok_iff.mp hl
  obtain ⟨fs, s, rfl, rfl⟩ := h.exists_trail (Arena.lt_of_node hnode)
  have hs := Except.ok.inj (h.stores.holds_hole.node_eq.symm.trans hnode)
  cases s with
  | leaf id keys next =>
    rw [fs.leavesIn_plug_leaf]
    exact List.mem_map_of_mem (List.mem_append_right _ List.mem_cons_self)
  | branch id keys children => cases hs

theorem nodup_leavesIn (h : t.Linked d root) : (root.leavesIn.map Subtree.id).Nodup :=
  root.leavesIn_sublist.nodup h.stores.covers.nodup

end Linked

/-! ## In the middle of an insertion -/

variable [Ord K] {key : K} {w : Walk} {l : Leaf K}

/-- The leaf into which a key was put is on the last level, and the way up from it leads to the root. -/
theorem Linked.leadsUp_put (h : t.Linked d root) (hw : t.findLeaf key = .ok w)
    (hl : t.arena.leaf w.stop = .ok l) :
    (t.arena.put w.stop (.leaf (l.insert key))).OnLevel t.root (d + 1) w.stop ∧
      (t.arena.put w.stop (.leaf (l.insert key))).LeadsUp t.root (d + 1) w.stop := by
  obtain ⟨fs, id, keys, next, rfl, rfl, -, hfind⟩ := h.findLeaf key
  obtain rfl := Except.ok.inj (hw.symm.trans hfind)
  obtain rfl := Node.leaf.inj (Except.ok.inj ((Arena.leaf_eq_ok_iff.mp hl).symm.trans h.stores.leaf_eq))
  set keys' := ((Leaf.mk keys next fs.parent?).insert key).keys
  have hstores := Arena.stores_put_leaf h.stores keys'
  rw [h.root_eq, Trail.id_plug_eq fs (s := .leaf id keys next) (t := .leaf id keys' next) rfl]
  exact ⟨Arena.onLevel_plug hstores.holds, Arena.leadsUp_plug hstores⟩

variable [Std.TransOrd K]

/-- **A round of the way up enters its split into a branch further up than all before**, so there are no
more rounds than levels above the leaves; and the way up from this branch leads to the root. -/
theorem InOrder.rounds (h : t.InOrder d root) (hw : t.findLeaf key = .ok w) {a b : Arena K}
    {s r : Split K} {n : Nat} {m : Node K} {parent : NodeId}
    (hadd : t.arena.addKey o w.stop key = .ok (a, .pending s)) (hrounds : Arena.Rounds o a s n b r)
    (hm : b.node r.left = .ok m) (hparent : m.parent = some parent) :
    n < d ∧ ∃ (c : Arena K) (branch : Branch K), b.enter parent r = .ok (c, branch) ∧
      c.OnLevel t.root (d - n) parent ∧ c.LeadsUp t.root (d - n) parent := by
  obtain ⟨fs, id, keys, next, rfl, rfl, -, hfind⟩ := h.linked.findLeaf key
  obtain rfl := Except.ok.inj (hw.symm.trans hfind)
  obtain ⟨⟨e, -, hleaf⟩, hroomy⟩ := h.regular.of_plug
  have hsorted := Subtree.sorted_of_plug_leaf h.sorted
  obtain ⟨g, -, hshows⟩ := (Arena.addKey_spec h.stores hsorted hleaf.length_keys_lt key).shows hadd
  cases hshows with
  | @pending left right separator pends =>
    obtain ⟨used, rest, left', right', separator', rfl, rfl, rfl, hb, -⟩ := hrounds.pends pends hroomy
    obtain ⟨f, rest, c, branch, rfl, hc, hup⟩ :=
      hb.enters separator' (fun f hf => hroomy f (List.mem_append_right _ hf)) hm hparent
    have hlast := hup (Trail.plug used (.leaf id keys next))
    rw [← Trail.plug_append, ← h.root_eq] at hlast
    refine ⟨by simp, c, branch, hc, ?_⟩
    rwa [List.length_append, Nat.add_sub_cancel_left]

/-! ## All walks -/

/-- **Every walk through a reachable tree ends, and its length is known from the height.** The way up from
a node visits as many nodes as the level of the node says, and ends at the root; a descent visits as many
as the tree is high; and the chain from a leaf runs through the leaves to its right, each once. In the
middle of an insertion, the way up leads from the leaf with the new key to the root through all levels;
there are fewer rounds than levels, and from the branch that a round enters its split into, the way up
leads to the root through as many nodes as the level of this branch says. -/
theorem walks_of_reachable (h : t.Reachable) :
    ∃ (height : Nat) (s : Snapshot K), t.height = .ok height ∧ t.snapshot = .ok s ∧
      (∀ id, id.index < t.nodeCount → ∃ l, t.arena.OnLevel t.root l id) ∧
      (∀ l id, t.arena.OnLevel t.root l id → l ≤ height ∧ t.arena.LeadsUp t.root l id) ∧
      (∃ w, t.firstLeaf = .ok w ∧ w.path.length = height) ∧
      (∀ key, ∃ w, t.findLeaf key = .ok w ∧ w.path.length = height) ∧
      (∀ id l, t.arena.leaf id = .ok l → id ∈ s.root.leaves.map Subtree.id) ∧
      (s.root.leaves.map Subtree.id).Nodup ∧
      (∀ before m after, s.root.leaves = before ++ m :: after → ∃ w,
        t.arena.chain t.arena.size m.id = .ok w ∧ w.path = (m :: after).map Subtree.id) ∧
      ∀ key w l, t.findLeaf key = .ok w → t.arena.leaf w.stop = .ok l →
        (t.arena.put w.stop (.leaf (l.insert key))).OnLevel t.root height w.stop ∧
        (t.arena.put w.stop (.leaf (l.insert key))).LeadsUp t.root height w.stop ∧
        ∀ a s n b r m parent, t.arena.addKey o w.stop key = .ok (a, .pending s) →
          Arena.Rounds o a s n b r → b.node r.left = .ok m → m.parent = some parent →
          n + 1 ≤ height - 1 ∧ ∃ c branch, b.enter parent r = .ok (c, branch) ∧
            c.OnLevel t.root (height - (n + 1)) parent ∧
            c.LeadsUp t.root (height - (n + 1)) parent := by
  obtain ⟨d, root, hin⟩ := h.inOrder
  have hlinked := hin.linked
  refine ⟨d + 1, _, hlinked.height_eq, hlinked.snapshot_eq, fun id hid => hlinked.exists_onLevel hid,
    fun l id hl => hlinked.leadsUp hl, ?_, fun key => ?_, ?_, ?_, ?_, fun key w l hw hl => ?_⟩
  · obtain ⟨w, -, -, hw, hlen, -⟩ := hlinked.firstLeaf
    exact ⟨w, hw, hlen⟩
  · obtain ⟨fs, id, keys, next, -, hlen, -, hw⟩ := hlinked.findLeaf key
    exact ⟨_, hw, by simp [hlen]⟩
  · rw [root.leaves_eq]
    exact fun id l hl => hlinked.mem_leavesIn hl
  · rw [root.leaves_eq]
    exact hlinked.nodup_leavesIn
  · intro before m after hsplit
    rw [root.leaves_eq] at hsplit
    exact hlinked.chain_eq hsplit (hlinked.leaves_after hsplit).2.2
  · obtain ⟨hlevel, hup⟩ := hlinked.leadsUp_put hw hl
    refine ⟨hlevel, hup, fun a s n b r m parent hadd hrounds hm hparent => ?_⟩
    obtain ⟨hn, c, branch, hc, hlast⟩ := hin.rounds hw hadd hrounds hm hparent
    rw [Nat.add_sub_add_right d 1 n]
    exact ⟨hn, c, branch, hc, hlast⟩

/-- Three levels, and a key that splits the last leaf and the branch above it: the second round enters
into the root, and stops there. -/
theorem walks_of_two_rounds : ∃ (t : Tree Nat .standard) (a b c : Arena Nat) (s r : Split Nat)
    (branch : Branch Nat), ofKeys [1, 2, 3, 4, 5, 6, 7, 8, 9, 10] = .ok t ∧
      t.arena.LeadsUp t.root 3 ⟨0, by decide⟩ ∧
      t.arena.addKey .standard ⟨7, by decide⟩ 11 = .ok (a, .pending s) ∧
      a.climb .standard s = .ok (b, .pending r) ∧ b.enter t.root r = .ok (c, branch) ∧
      c.LeadsUp t.root 1 t.root := by
  have ht : ofKeys [1, 2, 3, 4, 5, 6, 7, 8, 9, 10] = .ok (⟨⟨#[
      .leaf ⟨[1, 2], some ⟨1, by decide⟩, some ⟨2, by decide⟩⟩,
      .leaf ⟨[3, 4], some ⟨3, by decide⟩, some ⟨2, by decide⟩⟩,
      .branch ⟨[3], [⟨0, by decide⟩, ⟨1, by decide⟩], some ⟨6, by decide⟩⟩,
      .leaf ⟨[5, 6], some ⟨4, by decide⟩, some ⟨5, by decide⟩⟩,
      .leaf ⟨[7, 8], some ⟨7, by decide⟩, some ⟨5, by decide⟩⟩,
      .branch ⟨[7, 9], [⟨3, by decide⟩, ⟨4, by decide⟩, ⟨7, by decide⟩], some ⟨6, by decide⟩⟩,
      .branch ⟨[5], [⟨2, by decide⟩, ⟨5, by decide⟩], none⟩,
      .leaf ⟨[9, 10], none, some ⟨5, by decide⟩⟩]⟩, ⟨6, by decide⟩, 10⟩ : Tree Nat .standard) := by
    cbv
  obtain ⟨height, -, hheight, -, -, hup, -, -, -, -, -, hinsert⟩ := walks_of_reachable ⟨_, ht⟩
  obtain rfl : height = 3 := Except.ok.inj (hheight.symm.trans (by cbv))
  have hlevel := (hup 3 ⟨0, by decide⟩
    (.child (.child .root ⟨_, rfl, List.mem_cons_self⟩) ⟨_, rfl, List.mem_cons_self⟩)).2
  obtain ⟨-, -, hround⟩ := hinsert 11
    ⟨[⟨6, by decide⟩, ⟨5, by decide⟩, ⟨7, by decide⟩], ⟨7, by decide⟩⟩ _ (by cbv) rfl
  obtain ⟨-, c, branch, hc, -, hlast⟩ :=
    hround _ _ 1 _ _ _ ⟨6, by decide⟩ (by cbv) (.round .start (by cbv)) rfl rfl
  exact ⟨_, _, _, c, _, _, branch, ht, hlevel, by cbv, by cbv, hc, hlast⟩

end TracedIndex.Tree
