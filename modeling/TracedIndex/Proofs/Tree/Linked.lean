import TracedIndex.Proofs.Arena.Walk
import TracedIndex.Proofs.Sorted

/-!
# Linked trees

A tree is **linked** if its arena stores a balanced tree with its leaves in one chain. The keys do not
matter for this, and neither does how the tree arose; it is what all walks through a tree rely on.

* `Linked`: what a linked tree stores;
* `Linked.descend`, `Linked.firstLeaf`, `Linked.height_eq`: where a descent ends, and how deep it goes;
* `Linked.rootOf_eq`, `Linked.parent_isNone`: the root is the one node without a parent, and all others
  are below it;
* `Linked.chain_eq`, `Linked.chain_firstLeaf`: the chain from a leaf runs through the leaves to its right;
* `Linked.snapshot_eq`: the snapshot of the tree.
-/

namespace TracedIndex.Tree

variable {K : Type} {o : Order} {t : Tree K o} {d : Nat} {root : Subtree K}

/-- The tree stores `root`, which is balanced of depth `d` and has its leaves in a chain. -/
structure Linked (t : Tree K o) (d : Nat) (root : Subtree K) : Prop where
  stores : t.arena.Stores root
  root_eq : t.root = root.id
  balanced : root.Balanced d
  chained : ∃ start, Subtree.Chained start root.leavesIn none

namespace Linked

/-! ## Descents -/

/-- A descent that picks children by the separators goes down a trail of as many frames as the tree is
deep. -/
theorem descend (h : t.Linked d root) (pick : List K → Nat)
    (hpick : ∀ keys, pick keys ≤ keys.length) :
    ∃ (fs : Trail K) (id : NodeId) (keys : List K) (next : Option NodeId),
      fs.plug (.leaf id keys next) = root ∧ fs.length = d ∧ (∀ f ∈ fs, f.Follows pick) ∧
      t.arena.descend (fun b => pick b.keys) t.arena.size t.root =
        .ok ⟨(fs.map Frame.id).reverse ++ [id], id⟩ := by
  obtain ⟨fs, id, keys, next, rfl, hlen, hfs⟩ := h.balanced.exists_trail hpick
  refine ⟨fs, id, keys, next, rfl, hlen, hfs, ?_⟩
  rw [h.root_eq]
  exact Arena.descend_plug hfs h.stores.holds h.stores.length_lt

theorem findLeaf [Ord K] (h : t.Linked d root) (key : K) :
    ∃ (fs : Trail K) (id : NodeId) (keys : List K) (next : Option NodeId),
      fs.plug (.leaf id keys next) = root ∧ fs.length = d ∧ (∀ f ∈ fs, f.Follows (rankOf key)) ∧
      t.findLeaf key = .ok ⟨(fs.map Frame.id).reverse ++ [id], id⟩ :=
  h.descend (rankOf key) (rankOf_le key)

theorem depth_lt (h : t.Linked d root) : d < t.arena.size := by
  obtain ⟨fs, id, keys, next, rfl, rfl, -⟩ := h.balanced.exists_trail (fun _ => Nat.zero_le _)
  exact h.stores.length_lt

/-- The descent along the first children ends in the first leaf, as deep as the tree is. -/
theorem firstLeaf (h : t.Linked d root) :
    ∃ w l ls, t.firstLeaf = .ok w ∧ w.path.length = d + 1 ∧ root.leavesIn = l :: ls ∧
      w.stop = l.id := by
  obtain ⟨fs, id, keys, next, rfl, hlen, hfs, hw⟩ :=
    h.descend (fun _ => 0) fun _ => Nat.zero_le _
  refine ⟨_, .leaf id keys next, fs.leavesAfter, hw, by simp [hlen], ?_, rfl⟩
  rw [Trail.leavesIn_plug, Trail.leavesBefore_of_follows_zero hfs, Subtree.leavesIn_leaf]
  rfl

theorem height_eq (h : t.Linked d root) : t.height = .ok (d + 1) := by
  obtain ⟨w, -, -, hw, hlen, -⟩ := h.firstLeaf
  rw [height_eq_length, hw, Except.map, hlen]

/-! ## The way up -/

theorem exists_trail (h : t.Linked d root) {id : NodeId} (hid : id.index < t.arena.size) :
    ∃ (fs : Trail K) (s : Subtree K), fs.plug s = root ∧ s.id = id :=
  Subtree.exists_trail_of_mem_ids (h.stores.covers.mem_of_lt hid)

/-- **The root is the one node without a parent.** -/
theorem parent_isNone (h : t.Linked d root) {id : NodeId} (hid : id.index < t.arena.size) :
    ∃ n, t.arena.node id = .ok n ∧ n.parent.isNone = (id == t.root) := by
  obtain ⟨fs, s, rfl, rfl⟩ := h.exists_trail hid
  obtain ⟨n, hn, hparent, -⟩ := h.stores.holds_hole.root
  refine ⟨n, hn, ?_⟩
  rw [hparent, h.root_eq]
  cases fs with
  | nil => simp [Trail.parent?]
  | cons f fs =>
    -- the root has no parent, so no node with one is the root
    obtain ⟨r, hr, hrparent, -⟩ := h.stores.holds.root
    have hne : s.id ≠ (Trail.plug (f :: fs) s).id := fun e => by
      rw [← e, hn] at hr
      rw [← Except.ok.inj hr, hparent] at hrparent
      cases hrparent
    rw [beq_eq_false_iff_ne.mpr hne]
    rfl

/-- **All nodes are below the root.** -/
theorem rootOf_eq (h : t.Linked d root) {id : NodeId} (hid : id.index < t.arena.size) :
    t.arena.rootOf id = .ok t.root := by
  obtain ⟨fs, s, rfl, rfl⟩ := h.exists_trail hid
  rw [Arena.rootOf_plug h.stores, h.root_eq]

/-! ## Leaves -/

section

variable {before after : List (Subtree K)} {l : Subtree K}

/-- From a leaf on, the arena has the leaves as they stand, each linked to the one to its right. -/
theorem leaves_after (h : t.Linked d root) (hsplit : root.leavesIn = before ++ l :: after) :
    (∀ m ∈ l :: after, ∃ parent, t.arena.leaf m.id = .ok ⟨m.keys, m.next?, parent⟩) ∧
      Subtree.Chained l.next? after none ∧ after.length < t.arena.size := by
  obtain ⟨start, hchained⟩ := h.chained
  rw [hsplit, Subtree.chained_append] at hchained
  obtain ⟨mid, -, -, hafter⟩ := hchained
  refine ⟨fun m hm => h.stores.holds.leaf_of_mem (hsplit ▸ List.mem_append_right _ hm), hafter, ?_⟩
  have := root.leavesIn_sublist.length_le
  rw [hsplit, List.length_map, List.length_append, List.length_cons, root.length_ids,
    h.stores.size_eq] at this
  omega

/-- **The chain from a leaf runs through the leaves to its right.** -/
theorem chain_eq (h : t.Linked d root) (hsplit : root.leavesIn = before ++ l :: after) {fuel : Nat}
    (hfuel : after.length < fuel) :
    ∃ w, t.arena.chain fuel l.id = .ok w ∧ w.path = (l :: after).map Subtree.id := by
  obtain ⟨hleaves, hchained, -⟩ := h.leaves_after hsplit
  exact Arena.chain_of_chained hleaves ⟨rfl, hchained⟩ hfuel

/-- The chain from the leftmost leaf runs through all leaves. -/
theorem chain_firstLeaf (h : t.Linked d root) :
    ∃ f w, t.firstLeaf = .ok f ∧ t.arena.chain t.arena.size f.stop = .ok w ∧
      w.path = root.leavesIn.map Subtree.id ∧ w.path.head? = some f.stop := by
  obtain ⟨f, l, ls, hf, -, hls, hstop⟩ := h.firstLeaf
  have hsplit := hls.trans (List.nil_append _).symm
  obtain ⟨w, hw, hpath⟩ := h.chain_eq hsplit (h.leaves_after hsplit).2.2
  exact ⟨f, w, hf, hstop ▸ hw, hls ▸ hpath, by rw [hpath, List.map_cons, List.head?_cons, hstop]⟩

end

/-! ## Snapshots -/

theorem snapshot_eq (h : t.Linked d root) : t.snapshot = .ok ⟨o.size, d + 1, t.len, root⟩ := by
  have hcopy : t.arena.copy t.arena.size t.root = .ok root := by
    rw [h.root_eq]
    exact Arena.copy_eq h.stores.holds h.balanced h.depth_lt
  rw [snapshot, h.height_eq, hcopy]
  rfl

end Linked

end TracedIndex.Tree
