import Mathlib.Data.List.Nodup
import TracedIndex.Arena
import TracedIndex.Proofs.Basic
import TracedIndex.Proofs.Subtree.Trail

/-!
# Subtrees in an arena

An arena **holds** a subtree under a parent if each of its nodes is there under its number, and names
the branch above it. It **stores** a tree if it holds it under no parent, and every node of the arena
is one of the nodes of the tree.

* `Holds.congr`: what holds depends on the nodes of the subtree only;
* **`holds_plug`**: a plugged trail is held if its parts are;
* `Holds.reparent`: a subtree whose root is put under another parent;
* `Stores`, **`Pends`**: an arena in order, and one with a split that is left to be entered;
* **`Stores.unique`**: an arena in order is determined by the tree that it stores.
-/

namespace TracedIndex

variable {K : Type}

/-- The node at the root of a subtree, as an arena has it below `parent`. -/
def Subtree.toNode (parent : Option NodeId) : Subtree K → Node K
  | .leaf _ keys next => .leaf ⟨keys, next, parent⟩
  | .branch _ keys children => .branch ⟨keys, children.map id, parent⟩

namespace Arena

variable {a b : Arena K}

/-! ## Subtrees -/

/-- The nodes of the subtree are in the arena, its root below `parent`. -/
inductive Holds (a : Arena K) : Option NodeId → Subtree K → Prop
  | leaf {parent : Option NodeId} {id : NodeId} {keys : List K} {next : Option NodeId}
    (node : a.node id = .ok (.leaf ⟨keys, next, parent⟩)) : Holds a parent (.leaf id keys next)
  | branch {parent : Option NodeId} {id : NodeId} {keys : List K} {children : List (Subtree K)}
    (node : a.node id = .ok (.branch ⟨keys, children.map Subtree.id, parent⟩))
    (holds : ∀ c ∈ children, Holds a (some id) c) : Holds a parent (.branch id keys children)

namespace Holds

variable {p q : Option NodeId} {s : Subtree K}

theorem node_eq (h : a.Holds p s) : a.node s.id = .ok (s.toNode p) := by
  cases h with
  | leaf node => exact node
  | branch node _ => exact node

theorem root (h : a.Holds p s) : ∃ n, a.node s.id = .ok n ∧ n.parent = p ∧ n.keys = s.keys :=
  ⟨_, h.node_eq, by cases s <;> rfl, by cases s <;> rfl⟩

theorem congr (h : a.Holds p s) (hb : ∀ id ∈ s.ids, ∀ n, a.node id = .ok n → b.node id = .ok n) :
    b.Holds p s := by
  induction h with
  | leaf node => exact .leaf (hb _ (by simp) _ node)
  | branch node _ ih =>
    refine .branch (hb _ (by simp) _ node) fun c hc => ih c hc fun id hid => hb id ?_
    rw [Subtree.ids_branch]
    exact List.mem_cons_of_mem _ (List.mem_flatMap.mpr ⟨c, hc, hid⟩)

/-- A subtree is put under another parent by a change to its root. -/
theorem reparent (h : a.Holds p s) (hnd : s.ids.Nodup)
    (hroot : ∀ n, a.node s.id = .ok n → b.node s.id = .ok (n.withParent q))
    (hrest : ∀ id ∈ s.ids, id ≠ s.id → ∀ n, a.node id = .ok n → b.node id = .ok n) :
    b.Holds q s := by
  cases h with
  | leaf node => exact .leaf (hroot _ node)
  | branch node holds =>
    refine .branch (hroot _ node) fun c hc => (holds c hc).congr fun id hid => ?_
    rw [Subtree.ids_branch, List.nodup_cons] at hnd
    have hmem := List.mem_flatMap.mpr ⟨c, hc, hid⟩
    exact hrest id (by rw [Subtree.ids_branch]; exact List.mem_cons_of_mem _ hmem)
      fun e => hnd.1 (by rw [show id = _ from e] at hmem; exact hmem)

/-- Subtrees whose roots alone are put under another parent. -/
theorem reparent_list {ss : List (Subtree K)} (h : ∀ s ∈ ss, a.Holds p s)
    (hnd : (ss.flatMap Subtree.ids).Nodup)
    (hb : ∀ id ∈ ss.flatMap Subtree.ids, ∀ n, a.node id = .ok n →
      b.node id = .ok (if id ∈ ss.map Subtree.id then n.withParent q else n)) :
    ∀ s ∈ ss, b.Holds q s := by
  intro s hs
  have hsub : ∀ id ∈ s.ids, id ∈ ss.flatMap Subtree.ids := fun id hid =>
    List.mem_flatMap.mpr ⟨s, hs, hid⟩
  refine (h s hs).reparent ((List.nodup_flatMap.mp hnd).1 s hs) (fun n hn => ?_)
    (fun id hid hne n hn => ?_)
  · rw [hb _ (hsub _ s.id_mem_ids) n hn, if_pos (List.mem_map_of_mem hs)]
  · -- no other node of `s` is the root of one of the subtrees
    have hnot : id ∉ ss.map Subtree.id := by
      intro hmem
      obtain ⟨t, ht, rfl⟩ := List.mem_map.mp hmem
      obtain ⟨xs, ys, rfl⟩ := List.append_of_mem hs
      rw [List.flatMap_append, List.flatMap_cons] at hnd
      rcases List.mem_append.mp ht with hx | hy
      · exact List.disjoint_of_nodup_append hnd (List.mem_flatMap.mpr ⟨t, hx, t.id_mem_ids⟩)
          (List.mem_append_left _ hid)
      · rcases List.mem_cons.mp hy with rfl | hy
        · exact hne rfl
        · exact List.disjoint_of_nodup_append (List.nodup_append.mp hnd).2.1 hid
            (List.mem_flatMap.mpr ⟨t, hy, t.id_mem_ids⟩)
    rw [hb id (hsub id hid) n hn, if_neg hnot]

theorem leaf_of_mem (h : a.Holds p s) {l : Subtree K} (hl : l ∈ s.leavesIn) :
    ∃ parent, a.leaf l.id = .ok ⟨l.keys, l.next?, parent⟩ := by
  induction h with
  | @leaf parent id keys next node =>
    obtain rfl : l = _ := by simpa using hl
    exact ⟨parent, leaf_eq_ok_iff.mpr node⟩
  | branch _ _ ih =>
    rw [Subtree.leavesIn_branch, List.mem_flatMap] at hl
    obtain ⟨c, hc, hl⟩ := hl
    exact ih c hc hl

end Holds

/-! ## Trails -/

/-- The nodes around the hole are in the arena, the branch itself below `above` and with `below` in
the place of the hole. -/
structure HoldsFrame (a : Arena K) (below : NodeId) (above : Option NodeId) (f : Frame K) : Prop where
  node : a.node f.id =
    .ok (.branch ⟨f.keys, f.before.map Subtree.id ++ below :: f.after.map Subtree.id, above⟩)
  holds : ∀ c ∈ f.before ++ f.after, a.Holds (some f.id) c

/-- The nodes around the hole are in the arena, with `below` in the place of the hole. -/
def HoldsTrail (a : Arena K) : NodeId → Trail K → Prop
  | _, [] => True
  | below, f :: fs => a.HoldsFrame below (Trail.parent? fs) f ∧ HoldsTrail a f.id fs

theorem holds_fill {p : Option NodeId} {f : Frame K} {s : Subtree K} :
    a.Holds p (f.fill s) ↔ a.Holds (some f.id) s ∧ a.HoldsFrame s.id p f := by
  constructor
  · intro h
    cases h with
    | branch node holds =>
      refine ⟨holds s (by simp), by simpa using node, fun c hc => holds c ?_⟩
      simp only [List.mem_append, List.mem_cons] at hc ⊢
      tauto
  · rintro ⟨hs, hf⟩
    refine .branch (by simpa using hf.node) fun c hc => ?_
    simp only [List.mem_append, List.mem_cons] at hc
    rcases hc with hc | rfl | hc
    · exact hf.holds c (List.mem_append_left _ hc)
    · exact hs
    · exact hf.holds c (List.mem_append_right _ hc)

/-- **A plugged trail is held if its parts are.** -/
theorem holds_plug {fs : Trail K} {s : Subtree K} :
    a.Holds none (fs.plug s) ↔ a.Holds fs.parent? s ∧ a.HoldsTrail s.id fs := by
  induction fs generalizing s with
  | nil => simp [Trail.parent?, HoldsTrail]
  | cons f fs ih =>
    rw [Trail.plug_cons, ih, holds_fill]
    exact and_assoc

theorem HoldsFrame.congr {below : NodeId} {above : Option NodeId} {f : Frame K}
    (h : a.HoldsFrame below above f)
    (hb : ∀ id ∈ f.ids, ∀ n, a.node id = .ok n → b.node id = .ok n) :
    b.HoldsFrame below above f := by
  refine ⟨hb _ (by simp [Frame.ids]) _ h.node, fun c hc => (h.holds c hc).congr fun id hid => hb id ?_⟩
  rw [Frame.ids, ← List.flatMap_append]
  exact List.mem_cons_of_mem _ (List.mem_flatMap.mpr ⟨c, hc, hid⟩)

theorem HoldsTrail.congr {below : NodeId} {fs : Trail K} (h : a.HoldsTrail below fs)
    (hb : ∀ id ∈ fs.ids, ∀ n, a.node id = .ok n → b.node id = .ok n) : b.HoldsTrail below fs := by
  induction fs generalizing below with
  | nil => trivial
  | cons f fs ih =>
    rw [Trail.ids_cons] at hb
    exact ⟨h.1.congr fun id hid => hb id (List.mem_append_left _ hid),
      ih h.2 fun id hid => hb id (List.mem_append_right _ hid)⟩

/-! ## Whole arenas -/

/-- Each node of the arena is listed once. -/
def Covers (a : Arena K) (ids : List NodeId) : Prop :=
  (ids.map NodeId.index).Perm (List.range a.size)

/-- The keys or separators of the node `id`. -/
def keysAt (a : Arena K) (id : NodeId) : List K := (a.nodes[id.index]?.map Node.keys).getD []

theorem keysAt_eq {id : NodeId} {n : Node K} (h : a.node id = .ok n) : a.keysAt id = n.keys := by
  rw [keysAt, node_eq_ok_iff.mp h]
  rfl

theorem HoldsTrail.map_keysAt {below : NodeId} {fs : Trail K} (h : a.HoldsTrail below fs) :
    (fs.map Frame.id).map a.keysAt = fs.map Frame.keys := by
  induction fs generalizing below with
  | nil => rfl
  | cons f fs ih => rw [List.map_cons, List.map_cons, keysAt_eq h.1.node, ih h.2]; rfl

namespace Covers

variable {ids ids' : List NodeId}

theorem nodup (h : a.Covers ids) : ids.Nodup :=
  List.Nodup.of_map _ (h.nodup_iff.mpr List.nodup_range)

theorem length_eq (h : a.Covers ids) : ids.length = a.size := by
  simpa using List.Perm.length_eq h

theorem lt_of_mem (h : a.Covers ids) {id : NodeId} (hid : id ∈ ids) : id.index < a.size :=
  List.mem_range.mp (h.mem_iff.mp (List.mem_map_of_mem hid))

theorem mem_of_lt (h : a.Covers ids) {id : NodeId} (hid : id.index < a.size) : id ∈ ids := by
  obtain ⟨id', hid', he⟩ := List.mem_map.mp (h.mem_iff.mpr (List.mem_range.mpr hid))
  exact NodeId.ext he ▸ hid'

/-- There are numbers for `2 ^ 32` nodes. -/
theorem size_le (h : a.Covers ids) : a.size ≤ UInt32.size := by
  by_contra hlt
  obtain ⟨id, -, hid⟩ := List.mem_map.mp (h.mem_iff.mpr (List.mem_range.mpr (Nat.lt_of_not_le hlt)))
  exact Nat.lt_irrefl _ (hid ▸ id.index_lt)

theorem perm (h : a.Covers ids) (hperm : ids'.Perm ids) : a.Covers ids' :=
  (hperm.map _).trans h

/-- The numbers below a branch, those of its near children and those of its far ones, are all different,
and different from its own and from the others. -/
theorem apart {id : NodeId} {keys : List K} {near far : List (Subtree K)}
    (h : a.Covers ((Subtree.branch id keys (near ++ far)).ids ++ ids)) :
    (id ∉ near.flatMap Subtree.ids ∧ id ∉ far.flatMap Subtree.ids ∧ id ∉ ids) ∧
      (far.flatMap Subtree.ids).Nodup ∧
      List.Disjoint (near.flatMap Subtree.ids) (far.flatMap Subtree.ids) ∧
      List.Disjoint (far.flatMap Subtree.ids) ids := by
  have hnd := h.nodup
  rw [Subtree.ids_branch, List.flatMap_append, List.cons_append, List.nodup_cons] at hnd
  obtain ⟨hid, hnd⟩ := hnd
  simp only [List.mem_append, not_or] at hid
  have hbelow := (List.nodup_append.mp hnd).1
  refine ⟨⟨hid.1.1, hid.1.2, hid.2⟩, (List.nodup_append.mp hbelow).2.1,
    List.disjoint_of_nodup_append hbelow, fun x hx => ?_⟩
  exact List.disjoint_of_nodup_append hnd (List.mem_append_right _ hx)

/-- The keys and separators of an arena, read off node by node in any order. -/
theorem perm_keys (h : a.Covers ids) :
    (ids.flatMap a.keysAt).Perm (a.nodes.toList.flatMap Node.keys) := by
  have hnodes : (List.range a.size).map (a.nodes[·]?) = a.nodes.toList.map some := by
    refine List.ext_getElem? fun i => ?_
    simp only [List.getElem?_map, size, Array.getElem?_toList]
    by_cases hi : i < a.nodes.size <;> simp [hi]
  have hperm := h.flatMap_right fun i => (a.nodes[i]?.map Node.keys).getD []
  have hall : a.nodes.toList.flatMap Node.keys =
      (a.nodes.toList.map some).flatMap fun n => (n.map Node.keys).getD [] := by
    rw [List.flatMap_map]
    rfl
  rw [hall, ← hnodes, List.flatMap_map]
  rwa [List.flatMap_map] at hperm

theorem cons (h : a.Covers ids) {new : NodeId} (hnew : new.index = a.size)
    (hsize : b.size = a.size + 1) : b.Covers (new :: ids) := by
  rw [Covers, hsize, List.range_succ, List.map_cons, hnew]
  exact (List.Perm.cons _ h).trans (List.perm_append_singleton _ _).symm

end Covers

/-- The arena is made of the nodes of the tree. -/
structure Stores (a : Arena K) (root : Subtree K) : Prop where
  holds : a.Holds none root
  covers : a.Covers root.ids

/-- The arena is made of the nodes of a tree and of one more subtree: it has `left` in the hole of
the trail, and `right` is left to be entered behind it. -/
structure Pends (a : Arena K) (fs : Trail K) (left right : Subtree K) : Prop where
  holds_left : a.Holds fs.parent? left
  holds_right : a.Holds fs.parent? right
  trail : a.HoldsTrail left.id fs
  covers : a.Covers (left.ids ++ right.ids ++ fs.ids)

namespace Stores

variable {root s : Subtree K} {fs : Trail K}

theorem size_eq (h : a.Stores root) : root.size = a.size := by
  rw [← Subtree.length_ids, h.covers.length_eq]

/-- **The stored tree determines the arena**: each of its nodes has one place in the tree, and the
branch above that place is its parent. -/
theorem unique (ha : a.Stores root) (hb : b.Stores root) : a = b := by
  have hsize : a.size = b.size := ha.size_eq.symm.trans hb.size_eq
  have hnodes : ∀ i : Nat, a.nodes[i]? = b.nodes[i]? := by
    intro i
    by_cases hi : i < a.size
    · obtain ⟨id, hid, rfl⟩ := List.mem_map.mp (ha.covers.mem_iff.mpr (List.mem_range.mpr hi))
      obtain ⟨fs, s, rfl, rfl⟩ := Subtree.exists_trail_of_mem_ids hid
      rw [node_eq_ok_iff.mp (holds_plug.mp ha.holds).1.node_eq,
        node_eq_ok_iff.mp (holds_plug.mp hb.holds).1.node_eq]
    · have hia : a.nodes.size ≤ i := Nat.not_lt.mp hi
      have hib : b.nodes.size ≤ i := Nat.le_trans (Nat.le_of_eq hsize.symm) hia
      rw [Array.getElem?_eq_none hia, Array.getElem?_eq_none hib]
  exact congrArg Arena.mk (Array.ext_getElem? hnodes)

/-- The leaves of a tree have no more keys than there are in the arena, separators included. -/
theorem length_keysIn_le (h : a.Stores root) :
    root.keysIn.length ≤ (a.nodes.toList.flatMap Node.keys).length := by
  have hleaves : root.keysIn = (root.leavesIn.map Subtree.id).flatMap a.keysAt := by
    rw [Subtree.keysIn, Subtree.keysOf, List.flatMap_map]
    refine List.flatMap_congr fun l hl => ?_
    obtain ⟨parent, hleaf⟩ := h.holds.leaf_of_mem hl
    exact (keysAt_eq (leaf_eq_ok_iff.mp hleaf)).symm
  rw [← h.covers.perm_keys.length_eq, hleaves]
  exact (root.leavesIn_sublist.flatMap _).length_le

theorem holds_hole (h : a.Stores (fs.plug s)) : a.Holds fs.parent? s := (holds_plug.mp h.holds).1

theorem trail (h : a.Stores (fs.plug s)) : a.HoldsTrail s.id fs := (holds_plug.mp h.holds).2

theorem covers_plug (h : a.Stores (fs.plug s)) : a.Covers (s.ids ++ fs.ids) :=
  h.covers.perm (Trail.ids_plug fs s).symm

theorem of_plug (hs : a.Holds fs.parent? s) (hfs : a.HoldsTrail s.id fs)
    (hids : a.Covers (s.ids ++ fs.ids)) : a.Stores (fs.plug s) :=
  ⟨holds_plug.mpr ⟨hs, hfs⟩, hids.perm (Trail.ids_plug fs s)⟩

theorem length_lt (h : a.Stores (fs.plug s)) : fs.length < a.size := by
  have h₁ := h.covers_plug.length_eq
  have h₂ := fs.length_le_length_ids
  have h₃ := s.size_pos
  rw [List.length_append, Subtree.length_ids] at h₁
  omega

end Stores

theorem Pends.length_lt {left right : Subtree K} {fs : Trail K} (h : a.Pends fs left right) :
    fs.length < a.size := by
  have h₁ := h.covers.length_eq
  have h₂ := fs.length_le_length_ids
  have h₃ := left.size_pos
  rw [List.length_append, List.length_append, Subtree.length_ids] at h₁
  omega

end Arena

end TracedIndex
