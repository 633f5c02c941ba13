import TracedIndex.Proofs.Arena.Walk
import TracedIndex.Proofs.Node

/-!
# Splits in an arena

Each change that an insertion makes to an arena, as a change to the tree that it stores. A split takes
an arena in order to one in which a sibling is left to be entered; entering it, or putting a new root
above both, leads back to one in order.

* `stores_put_leaf`: other keys in a leaf;
* **`splitLeaf_spec`**, **`splitBranch_spec`**: from order to a pending split;
* **`enter_spec`**, **`growRoot_spec`**: from a pending split to order.
-/

namespace TracedIndex

variable {K : Type}

namespace Arena

variable {a b : Arena K}

/-! ## Single changes -/

theorem alloc_of_lt (h : a.size < UInt32.size) (n : Node K) : ∃ b id, a.alloc n = .ok (b, id) := by
  unfold alloc
  rw [dif_pos (show a.nodes.size < UInt32.size from h)]
  exact ⟨_, _, rfl⟩

theorem alloc_of_le (h : UInt32.size ≤ a.size) (n : Node K) : a.alloc n = .error .exhausted := by
  unfold alloc
  rw [dif_neg (show ¬ a.nodes.size < UInt32.size from Nat.not_lt.mpr h)]

theorem lt_of_node {id : NodeId} {n : Node K} (h : a.node id = .ok n) : id.index < a.size :=
  exists_node_iff.mp ⟨n, h⟩

theorem node_alloc {new : Node K} {id : NodeId} (h : a.alloc new = .ok (b, id)) {other : NodeId}
    {n : Node K} (hn : a.node other = .ok n) : b.node other = .ok n := by
  rw [node_alloc_of_lt h (lt_of_node hn), hn]

theorem setParent_spec {id : NodeId} (hid : id.index < a.size) (p : Option NodeId) :
    ∃ b, a.setParent id p = .ok b ∧ b.size = a.size ∧ ∀ other n, a.node other = .ok n →
      b.node other = .ok (if other = id then n.withParent p else n) := by
  obtain ⟨m, hm⟩ := exists_node_iff.mpr hid
  refine ⟨a.put id (m.withParent p), by rw [setParent, hm]; rfl, size_put _ _ _, fun other n hn => ?_⟩
  by_cases hother : other = id
  · subst hother
    rw [hm] at hn
    rw [if_pos rfl, node_put_self hid, Except.ok.inj hn]
  · rw [if_neg hother, node_put_of_ne _ hother, hn]

theorem withParent_withParent (n : Node K) (p q : Option NodeId) :
    (n.withParent p).withParent q = n.withParent q := by
  cases n <;> rfl

theorem withParent_parent (n : Node K) : n.withParent n.parent = n := by
  cases n <;> rfl

/-- Several nodes are put under another parent, and no other node changes. -/
theorem setParents_spec (ids : List NodeId) (hids : ∀ id ∈ ids, id.index < a.size)
    (p : Option NodeId) :
    ∃ b, a.setParents ids p = .ok b ∧ b.size = a.size ∧ ∀ id n, a.node id = .ok n →
      b.node id = .ok (if id ∈ ids then n.withParent p else n) := by
  induction ids generalizing a with
  | nil => exact ⟨a, rfl, rfl, fun id n hn => by simpa using hn⟩
  | cons i ids ih =>
    obtain ⟨c, hc, hcsize, hcnode⟩ := setParent_spec (hids i List.mem_cons_self) p
    obtain ⟨b, hb, hbsize, hbnode⟩ :=
      ih (a := c) fun id hid => by rw [hcsize]; exact hids id (List.mem_cons_of_mem _ hid)
    refine ⟨b, ?_, by rw [hbsize, hcsize], fun id n hn => ?_⟩
    · rw [setParents, List.foldlM_cons, hc]
      exact hb
    · rw [hbnode id _ (hcnode id n hn)]
      by_cases hi : id = i <;> by_cases hids : id ∈ ids <;> simp [hi, hids, withParent_withParent]

/-! ## Leaves -/

section

variable {fs : Trail K} {id : NodeId} {keys : List K} {next : Option NodeId}

theorem Stores.leaf_eq (h : a.Stores (fs.plug (.leaf id keys next))) :
    a.node id = .ok (.leaf ⟨keys, next, fs.parent?⟩) := by
  cases h.holds_hole with
  | leaf node => exact node

/-- Nodes around the hole are not changed by a change in the hole. -/
theorem HoldsTrail.congr_of_disjoint {below : NodeId} {ids : List NodeId} (h : a.HoldsTrail below fs)
    (hdisj : List.Disjoint ids fs.ids)
    (hb : ∀ id, id ∉ ids → ∀ n, a.node id = .ok n → b.node id = .ok n) : b.HoldsTrail below fs :=
  h.congr fun id hid => hb id fun hmem => hdisj hmem hid

theorem stores_put_leaf (h : a.Stores (fs.plug (.leaf id keys next))) (keys' : List K) :
    (a.put id (.leaf ⟨keys', next, fs.parent?⟩)).Stores (fs.plug (.leaf id keys' next)) := by
  have hlt := lt_of_node h.leaf_eq
  have hcovers := h.covers_plug
  refine .of_plug (.leaf (node_put_self hlt _)) ?_ ?_
  · refine h.trail.congr_of_disjoint (List.disjoint_of_nodup_append hcovers.nodup) ?_
    intro other hother n hn
    rw [Subtree.ids_leaf, List.mem_singleton] at hother
    rw [node_put_of_ne _ hother, hn]
  · rw [Subtree.ids_leaf] at hcovers ⊢
    rwa [Covers, size_put]

/-- **A leaf is split**: its keys from the middle on move to a fresh leaf behind it. -/
theorem splitLeaf_spec {separator : K} (h : a.Stores (fs.plug (.leaf id keys next)))
    (hsep : keys[(keys.length + 1) / 2]? = some separator) (hsize : a.size < UInt32.size) :
    ∃ (b : Arena K) (right : NodeId), a.splitLeaf id = .ok (b, ⟨id, separator, right⟩) ∧
      right.index = a.size ∧ b.size = a.size + 1 ∧
      b.Pends fs (.leaf id (keys.take ((keys.length + 1) / 2)) (some right))
        (.leaf right (keys.drop ((keys.length + 1) / 2)) next) := by
  obtain ⟨c, right, halloc⟩ :=
    alloc_of_lt hsize (.leaf ⟨keys.drop ((keys.length + 1) / 2), next, fs.parent?⟩)
  have hright := (alloc_eq_ok halloc).2
  have hlt := lt_of_node h.leaf_eq
  have hne : right ≠ id := by
    rintro rfl
    omega
  set lower : Node K := .leaf ⟨keys.take ((keys.length + 1) / 2), some right, fs.parent?⟩ with hlower
  have hnode : ∀ other, other ∉ [id] → ∀ n, a.node other = .ok n →
      (c.put id lower).node other = .ok n := fun other hother n hn => by
    rw [node_put_of_ne _ (by simpa using hother), node_alloc halloc hn]
  refine ⟨c.put id lower, right, ?_, hright, by rw [size_put, size_alloc halloc], ?_, ?_, ?_, ?_⟩
  · rw [splitLeaf, Arena.leaf, h.leaf_eq]
    simp only [bind, Except.bind, pure, Except.pure, Leaf.split?_eq (l := ⟨keys, next, fs.parent?⟩) hsep,
      halloc]
    rfl
  · exact .leaf (node_put_self (by rw [size_alloc halloc]; omega) _)
  · exact .leaf (by rw [node_put_of_ne _ hne, node_alloc_self halloc])
  · exact h.trail.congr_of_disjoint (List.disjoint_of_nodup_append h.covers_plug.nodup) hnode
  · refine (h.covers_plug.cons hright ?_).perm ?_
    · rw [size_put, size_alloc halloc]
    · simpa using List.Perm.swap right id _

theorem splitLeaf_exhausted {separator : K} (h : a.Stores (fs.plug (.leaf id keys next)))
    (hsep : keys[(keys.length + 1) / 2]? = some separator) (hsize : UInt32.size ≤ a.size) :
    a.splitLeaf id = .error .exhausted := by
  rw [splitLeaf, Arena.leaf, h.leaf_eq]
  simp only [bind, Except.bind, pure, Except.pure, Leaf.split?_eq (l := ⟨keys, next, fs.parent?⟩) hsep,
    alloc_of_le hsize]

end

/-! ## Branches -/

section

variable {fs : Trail K} {id : NodeId} {keys : List K} {children : List (Subtree K)}

theorem Stores.branch_eq (h : a.Stores (fs.plug (.branch id keys children))) :
    a.node id = .ok (.branch ⟨keys, children.map Subtree.id, fs.parent?⟩) ∧
      ∀ c ∈ children, a.Holds (some id) c := by
  cases h.holds_hole with
  | branch node holds => exact ⟨node, holds⟩

/-- What a split of a branch writes: both halves, and another parent into the children of the fresh
one. -/
theorem splitBranch_of_split? {br : Branch K} {lower upper : List K × List NodeId} {separator : K}
    (hnode : a.node id = .ok (.branch br)) (hsplit : br.split? = some (lower, separator, upper))
    (hupper : ∀ x ∈ upper.2, x.index < a.size) (hid : id ∉ upper.2) (hsize : a.size < UInt32.size) :
    ∃ (b : Arena K) (right : NodeId), a.splitBranch id = .ok (b, ⟨id, separator, right⟩) ∧
      right.index = a.size ∧ b.size = a.size + 1 ∧
      b.node id = .ok (.branch { br with keys := lower.1, children := lower.2 }) ∧
      b.node right = .ok (.branch { br with keys := upper.1, children := upper.2 }) ∧
      ∀ x, x ≠ id → ∀ n, a.node x = .ok n →
        b.node x = .ok (if x ∈ upper.2 then n.withParent (some right) else n) := by
  have hlt := lt_of_node hnode
  obtain ⟨c, right, halloc⟩ :=
    alloc_of_lt hsize (.branch { br with keys := upper.1, children := upper.2 })
  have hright := (alloc_eq_ok halloc).2
  have hne : right ≠ id := by
    rintro rfl
    omega
  have hfresh : right ∉ upper.2 := fun hmem => absurd (hupper right hmem) (by omega)
  set half : Node K := .branch { br with keys := lower.1, children := lower.2 } with hhalf
  have hcsize : (c.put id half).size = a.size + 1 := by rw [size_put, size_alloc halloc]
  obtain ⟨b, hb, hbsize, hbnode⟩ := setParents_spec (a := c.put id half) upper.2
    (fun x hx => by rw [hcsize]; exact Nat.lt_succ_of_lt (hupper x hx)) (some right)
  refine ⟨b, right, ?_, hright, by rw [hbsize, hcsize], ?_, ?_, fun x hx n hn => ?_⟩
  · rw [splitBranch, branch_eq_ok_iff.mpr hnode]
    simp only [bind, Except.bind, pure, Except.pure, hsplit, halloc]
    rw [← hhalf, hb]
  · rw [hbnode id half (node_put_self (by rw [size_alloc halloc]; omega) _), if_neg hid]
  · rw [hbnode right _ (by rw [node_put_of_ne _ hne, node_alloc_self halloc]), if_neg hfresh]
  · exact hbnode x n (by rw [node_put_of_ne _ hx, node_alloc halloc hn])

/-- **A branch is split**: its middle separator is given away, and what is behind it moves to a fresh
branch, which becomes the parent of the children that go with it. -/
theorem splitBranch_spec {separator : K} (h : a.Stores (fs.plug (.branch id keys children)))
    (hsep : keys[keys.length / 2]? = some separator) (hlen : keys.length / 2 < children.length)
    (hsize : a.size < UInt32.size) :
    ∃ (b : Arena K) (right : NodeId), a.splitBranch id = .ok (b, ⟨id, separator, right⟩) ∧
      right.index = a.size ∧ b.size = a.size + 1 ∧
      b.Pends fs (.branch id (keys.take (keys.length / 2)) (children.take (keys.length / 2 + 1)))
        (.branch right (keys.drop (keys.length / 2 + 1)) (children.drop (keys.length / 2 + 1))) := by
  obtain ⟨hnode, hholds⟩ := h.branch_eq
  have hcovers := h.covers_plug
  set mid := keys.length / 2 with hmid
  set near := children.take (mid + 1) with hnear
  set far := children.drop (mid + 1) with hfar
  rw [← show near ++ far = children from List.take_append_drop _ _] at hcovers
  obtain ⟨⟨hidnear, hidfar, hidfs⟩, hnodup, hnearfar, hfarfs⟩ := hcovers.apart
  have hfarlt : ∀ x ∈ far.map Subtree.id, x.index < a.size := fun x hx => by
    refine hcovers.lt_of_mem (List.mem_append_left _ ?_)
    rw [Subtree.ids_branch, List.flatMap_append]
    exact List.mem_cons_of_mem _ (List.mem_append_right _ (Subtree.mem_flatMap_ids hx))
  have hsplit : (⟨keys, children.map Subtree.id, fs.parent?⟩ : Branch K).split? =
      some ((keys.take mid, near.map Subtree.id), separator,
        (keys.drop (mid + 1), far.map Subtree.id)) := by
    simp only [Branch.split?, ← hmid, hsep, List.length_map, if_pos hlen, ← List.map_take,
      ← List.map_drop, ← hnear, ← hfar]
  obtain ⟨b, right, hb, hright, hbsize, hlower, hupper, hold⟩ := splitBranch_of_split? hnode hsplit
    hfarlt (fun hmem => hidfar (Subtree.mem_flatMap_ids hmem)) hsize
  -- of the old nodes but `id`, only the roots of the far children change
  have hkeep : ∀ x, x ≠ id → x ∉ far.flatMap Subtree.ids → ∀ n, a.node x = .ok n →
      b.node x = .ok n := by
    intro x hx hfar n hn
    rw [hold x hx n hn, if_neg fun hmem => hfar (Subtree.mem_flatMap_ids hmem)]
  refine ⟨b, right, hb, hright, hbsize, ?_, ?_, ?_, ?_⟩
  · refine .branch hlower fun t ht => (hholds t (List.mem_of_mem_take ht)).congr fun x hx => ?_
    have hxnear := List.mem_flatMap.mpr ⟨t, ht, hx⟩
    exact hkeep x (fun e => hidnear (e ▸ hxnear)) (hnearfar hxnear)
  · exact .branch hupper (Holds.reparent_list (fun t ht => hholds t (List.mem_of_mem_drop ht)) hnodup
      fun x hx n hn => hold x (fun e => hidfar (e ▸ hx)) n hn)
  · exact h.trail.congr fun x hx => hkeep x (fun e => hidfs (e ▸ hx)) fun hfar => hfarfs hfar hx
  · refine (hcovers.cons hright (b := b) hbsize).perm ?_
    simp only [Subtree.ids_branch, List.flatMap_append, List.cons_append, List.append_assoc]
    exact List.perm_middle.cons _ |>.trans (List.Perm.swap _ _ _)

theorem splitBranch_exhausted {separator : K} (h : a.Stores (fs.plug (.branch id keys children)))
    (hsep : keys[keys.length / 2]? = some separator) (hlen : keys.length / 2 < children.length)
    (hsize : UInt32.size ≤ a.size) : a.splitBranch id = .error .exhausted := by
  rw [splitBranch, Arena.branch, h.branch_eq.1]
  simp only [bind, Except.bind, pure, Except.pure, Branch.split?, hsep, List.length_map, if_pos hlen,
    alloc_of_le hsize]

end

/-! ## Entering a split -/

/-- A node that is put under the parent that it has stays as it is. -/
theorem setParent_same {id : NodeId} {n : Node K} (hn : a.node id = .ok n) :
    ∃ b, a.setParent id n.parent = .ok b ∧ b.size = a.size ∧
      ∀ other m, a.node other = .ok m → b.node other = .ok m := by
  obtain ⟨b, hb, hsize, hnode⟩ := setParent_spec (lt_of_node hn) n.parent
  refine ⟨b, hb, hsize, fun other m hm => ?_⟩
  rw [hnode other m hm]
  by_cases hother : other = id
  · subst hother
    rw [hn] at hm
    rw [if_pos rfl, ← Except.ok.inj hm, withParent_parent]
  · rw [if_neg hother]

namespace Pends

variable {f : Frame K} {fs : Trail K} {left right : Subtree K}

theorem not_mem_before (h : a.Pends (f :: fs) left right) : left.id ∉ f.before.map Subtree.id := by
  intro hmem
  obtain ⟨t, ht, he⟩ := List.mem_map.mp hmem
  refine List.disjoint_of_nodup_append h.covers.nodup (List.mem_append_left _ left.id_mem_ids) ?_
  rw [Trail.ids_cons, Frame.ids, ← he]
  simp only [List.mem_append, List.mem_cons, List.mem_flatMap]
  exact .inl (.inr (.inl ⟨t, ht, t.id_mem_ids⟩))

/-- The branch above a split is neither in its halves nor in the children around them, and is not
further up. -/
theorem covers_branch (h : a.Pends (f :: fs) left right) :
    a.Covers (f.id :: ((f.before ++ left :: right :: f.after).flatMap Subtree.ids ++ fs.ids)) := by
  refine h.covers.perm (List.Perm.symm ?_)
  simp only [Trail.ids_cons, Frame.ids, List.flatMap_append, List.flatMap_cons, List.cons_append,
    List.append_assoc]
  refine List.perm_iff_count.mpr fun x => ?_
  simp only [List.count_append, List.count_cons]
  omega

theorem holds_children (h : a.Pends (f :: fs) left right) :
    ∀ t ∈ f.before ++ left :: right :: f.after, a.Holds (some f.id) t := by
  intro t ht
  rcases List.mem_append.mp ht with ht | ht
  · exact h.trail.1.holds t (List.mem_append_left _ ht)
  · rcases List.mem_cons.mp ht with rfl | ht
    · exact h.holds_left
    · rcases List.mem_cons.mp ht with rfl | ht
      · exact h.holds_right
      · exact h.trail.1.holds t (List.mem_append_right _ ht)

end Pends

/-- **A sibling is entered into the branch above it**, which is then in order but for its size. -/
theorem enter_spec {f : Frame K} {fs : Trail K} {left right : Subtree K} (separator : K)
    (h : a.Pends (f :: fs) left right) (hslot : f.slot ≤ f.keys.length) :
    ∃ b, a.enter f.id ⟨left.id, separator, right.id⟩ = .ok (b,
        ⟨f.keys.take f.slot ++ separator :: f.keys.drop f.slot,
          (f.before ++ left :: right :: f.after).map Subtree.id, fs.parent?⟩) ∧
      b.size = a.size ∧
      b.Stores (fs.plug (.branch f.id (f.keys.take f.slot ++ separator :: f.keys.drop f.slot)
        (f.before ++ left :: right :: f.after))) := by
  have hframe := h.trail.1
  have hcovers := h.covers_branch
  have hadopt : (⟨f.keys, f.before.map Subtree.id ++ left.id :: f.after.map Subtree.id,
      fs.parent?⟩ : Branch K).adopt? left.id separator right.id = some ⟨_, _, _⟩ :=
    Branch.adopt?_eq separator h.not_mem_before (by simpa [Frame.slot] using hslot)
  rw [List.length_map, ← Frame.slot] at hadopt
  set keys := f.keys.take f.slot ++ separator :: f.keys.drop f.slot
  set children := f.before ++ left :: right :: f.after with hchildren
  set branch : Node K := .branch ⟨keys, children.map Subtree.id, fs.parent?⟩ with hbranch
  have hput : ∀ x, x ≠ f.id → ∀ n, a.node x = .ok n → (a.put f.id branch).node x = .ok n :=
    fun x hx n hn => by rw [node_put_of_ne _ hx, hn]
  obtain ⟨hid, -⟩ := List.nodup_cons.mp hcovers.nodup
  rw [List.mem_append, not_or] at hid
  have hholds : ∀ t ∈ children, (a.put f.id branch).Holds (some f.id) t := fun t ht =>
    (h.holds_children t ht).congr fun x hx =>
      hput x fun e => hid.1 (List.mem_flatMap.mpr ⟨t, ht, e ▸ hx⟩)
  -- the parent written into `right` is the one that it has
  obtain ⟨n, hn, hparent, -⟩ := (hholds right (by simp [hchildren])).root
  obtain ⟨b, hb, hsize, hnode⟩ := setParent_same hn
  rw [hparent] at hb
  rw [size_put] at hsize
  refine ⟨b, ?_, hsize, .of_plug ?_ ?_ ?_⟩
  · rw [enter, Arena.branch, hframe.node]
    simp only [bind, Except.bind, pure, Except.pure, hadopt]
    simp only [hchildren, List.map_append, List.map_cons] at hb hbranch ⊢
    rw [← hbranch, hb]
  · exact .branch (hnode _ _ (node_put_self (lt_of_node hframe.node) _)) fun t ht =>
      (hholds t ht).congr fun x _ => hnode x
  · exact h.trail.2.congr fun x hx n hn => hnode x n (hput x (fun e => hid.2 (e ▸ hx)) n hn)
  · rw [Subtree.ids_branch]
    unfold Covers at hcovers ⊢
    rwa [hsize]

/-- **A new root is put above the two halves of an old one.** -/
theorem growRoot_spec {left right : Subtree K} (separator : K) (h : a.Pends [] left right)
    (hsize : a.size < UInt32.size) :
    ∃ (b : Arena K) (root : NodeId), a.growRoot ⟨left.id, separator, right.id⟩ = .ok (b, root) ∧
      root.index = a.size ∧ b.Stores (.branch root [separator] [left, right]) := by
  obtain ⟨c, root, halloc⟩ := alloc_of_lt hsize (.branch ⟨[separator], [left.id, right.id], none⟩)
  have hroot := (alloc_eq_ok halloc).2
  have hcovers := h.covers
  rw [Trail.ids_nil, List.append_nil] at hcovers
  have hids : [left, right].flatMap Subtree.ids = left.ids ++ right.ids := by simp
  have hrootlt : ∀ x ∈ [left, right].map Subtree.id, x.index < a.size := fun x hx =>
    hcovers.lt_of_mem (hids ▸ Subtree.mem_flatMap_ids hx)
  obtain ⟨b, hb, hbsize, hbnode⟩ := setParents_spec (a := c) ([left, right].map Subtree.id)
    (fun x hx => by rw [size_alloc halloc]; exact Nat.lt_succ_of_lt (hrootlt x hx)) (some root)
  have hnotroot : root ∉ [left, right].map Subtree.id := by
    intro hmem
    have := hrootlt root hmem
    omega
  have hhalves : ∀ t ∈ [left, right], a.Holds none t := by
    intro t ht
    rcases List.mem_pair.mp ht with rfl | rfl
    · exact h.holds_left
    · exact h.holds_right
  refine ⟨b, root, ?_, hroot, .branch ?_ ?_, ?_⟩
  · rw [growRoot, halloc]
    simp only [bind, Except.bind, pure, Except.pure]
    rw [show [left.id, right.id] = [left, right].map Subtree.id from rfl, hb]
  · rw [hbnode root _ (node_alloc_self halloc), if_neg hnotroot]
    rfl
  · refine Holds.reparent_list hhalves (by rw [hids]; exact hcovers.nodup) fun x _ n hn => ?_
    exact hbnode x n (node_alloc halloc hn)
  · rw [Subtree.ids_branch, hids]
    exact hcovers.cons hroot (by rw [hbsize, size_alloc halloc])

theorem growRoot_exhausted (s : Split K) (hsize : UInt32.size ≤ a.size) :
    a.growRoot s = .error .exhausted := by
  rw [growRoot, alloc_of_le hsize]
  rfl

end Arena

end TracedIndex
