import TracedIndex.Proofs.Subtree.Effect
import TracedIndex.Proofs.Tree.Scan

/-!
# What an insertion leaves alone

Numbers of nodes are handed out, and a path that a query gave is kept by whoever asked for it, while further
keys go in. No insertion makes such a number mean something else. A node that is not on the path of a search
for the key keeps its contents; of the leaves, only the last node of this path gets other contents, and it
names another leaf as the next one only where it is split. The parent of a node changes where its parent was
divided and it went with the upper half, or where a new root was put above it.

* `Relinked`, `TakesIn`: how the parent of a node changes, and a leaf that takes in a key;
* `InOrder.exists_effect`, `node_after`, `takesIn`, `leaf_after`, `relinked`: the effect of an insertion on
  the arena;
* `InOrder.keepsKinds_extend`: the nodes and their kinds through a run of insertions;
* `Reachable.chained_zero`: the leaf that was first of all remains the leftmost one;
* **`frame_of_reachable`**: all of this for a reachable tree.
-/

namespace TracedIndex

variable {K : Type}

/-! ## Nodes of a subtree in an arena -/

namespace Subtree

theorem parent_toNode (s : Subtree K) (p : Option NodeId) : (s.toNode p).parent = p := by
  cases s <;> rfl

theorem isLeaf_toNode (s : Subtree K) (p q : Option NodeId) :
    (s.toNode p).isLeaf = (s.toNode q).isLeaf := by
  cases s <;> rfl

theorem withParent_toNode (s : Subtree K) (p q : Option NodeId) :
    (s.toNode p).withParent q = s.toNode q := by
  cases s <;> rfl

end Subtree

namespace Arena.Stores

variable {a : Arena K} {root s : Subtree K}

theorem exists_within (h : a.Stores root) {id : NodeId} {n : Node K} (hn : a.node id = .ok n) :
    ∃ (fs : Trail K) (s : Subtree K), fs.plug s = root ∧ s.id = id ∧ n = s.toNode fs.parent? := by
  obtain ⟨fs, s, rfl, rfl⟩ := Subtree.exists_trail_of_mem_ids (h.covers.mem_of_lt (lt_of_node hn))
  exact ⟨fs, s, rfl, rfl, Except.ok.inj (hn.symm.trans h.holds_hole.node_eq)⟩

theorem node_of_within (h : a.Stores root) (hs : s.Within root) :
    ∃ p, a.node s.id = .ok (s.toNode p) := by
  obtain ⟨fs, rfl⟩ := hs
  exact ⟨_, h.holds_hole.node_eq⟩

/-- A branch is the parent of its children. -/
theorem child_of_within (h : a.Stores root) {id : NodeId} {keys : List K} {children : List (Subtree K)}
    (hbranch : (Subtree.branch id keys children).Within root) {child : NodeId}
    (hchild : child ∈ children.map Subtree.id) : ∃ n, a.node child = .ok n ∧ n.parent = some id := by
  obtain ⟨fs, rfl⟩ := hbranch
  obtain ⟨c, hc, rfl⟩ := List.mem_map.mp hchild
  exact ⟨_, (h.branch_eq.2 c hc).node_eq, c.parent_toNode _⟩

end Arena.Stores

namespace Tree

variable {o : Order} {t t' : Tree K o}

/-! ## Changes -/

/-- How the parent of the node `id` changes from the tree `t` to the tree `t'`: not at all; from a branch
that was divided to the fresh branch that has its upper half; or from none to a fresh root, where the node was
the root itself. -/
inductive Relinked (t t' : Tree K o) (id : NodeId) : Option NodeId → Option NodeId → Prop
  | kept {p : Option NodeId} : Relinked t t' id p p
  | moved {p q : NodeId} {b lower upper : Branch K} (branch : t.arena.branch p = .ok b)
    (branch_lower : t'.arena.branch p = .ok lower) (branch_upper : t'.arena.branch q = .ok upper)
    (fresh : t.nodeCount ≤ q.index) (split : b.SplitInto t.nodeCount lower upper)
    (mem : id ∈ b.children) (mem_upper : id ∈ upper.children) : Relinked t t' id (some p) (some q)
  | raised (old : id = t.root) (fresh : t.nodeCount ≤ t'.root.index) :
    Relinked t t' id none (some t'.root)

/-- The leaf `id`, which was `l` in the tree `t`, has taken in a key: it has all the keys in `t'`, or it was
split and the fresh leaf behind it has the upper half of them. -/
inductive TakesIn [Ord K] (t t' : Tree K o) (key : K) (id : NodeId) (l : Leaf K) : Prop
  | whole {l' : Leaf K} (leaf : t'.arena.leaf id = .ok l') (keys : l'.keys = (l.insert key).keys)
    (next : l'.next = l.next) : TakesIn t t' key id l
  | split {right : NodeId} {lower upper : Leaf K} (leaf_lower : t'.arena.leaf id = .ok lower)
    (leaf_upper : t'.arena.leaf right = .ok upper) (fresh : t.nodeCount ≤ right.index)
    (next_lower : lower.next = some right) (next_upper : upper.next = l.next)
    (keys : lower.keys ++ upper.keys = (l.insert key).keys) : TakesIn t t' key id l

/-- All nodes of `t` are nodes of `t'`, and of the same kinds. -/
def KeepsKinds (t t' : Tree K o) : Prop :=
  ∀ id n, t.arena.node id = .ok n → ∃ n', t'.arena.node id = .ok n' ∧ n'.isLeaf = n.isLeaf

section

variable [Ord K] {root root' : Subtree K} {key : K} {path : List NodeId}

/-- A node on the path has become one of the same kind. -/
theorem exists_alike {fresh : Nat} {Has : Subtree K → Prop} {s : Subtree K}
    (h : Becomes key fresh path Has s) (p : Option NodeId) :
    ∃ x, Has x ∧ x.id = s.id ∧ ∀ q, (x.toNode q).isLeaf = (s.toNode p).isLeaf := by
  cases h with
  | filled _ has => exact ⟨_, has, rfl, fun _ => rfl⟩
  | halved _ _ has_lower => exact ⟨_, has_lower, rfl, fun _ => rfl⟩
  | grown has => exact ⟨_, has, rfl, fun _ => rfl⟩
  | divided _ has_lower => exact ⟨_, has_lower, rfl, fun _ => rfl⟩

/-- A node keeps its kind, and off the path its contents. -/
theorem node_after (h : t.arena.Stores root) (h' : t'.arena.Stores root')
    (haccounts : Accounts key t.nodeCount path root (Subtree.Within · root')) {id : NodeId} {n : Node K}
    (hn : t.arena.node id = .ok n) :
    ∃ n', t'.arena.node id = .ok n' ∧ n'.isLeaf = n.isLeaf ∧
      (id ∉ path → n' = n.withParent n'.parent) := by
  obtain ⟨fs, s, rfl, rfl, rfl⟩ := h.exists_within hn
  rcases haccounts s ⟨fs, rfl⟩ with hs | ⟨hpath, hs⟩
  · obtain ⟨p, hp⟩ := h'.node_of_within hs
    refine ⟨_, hp, s.isLeaf_toNode _ _, fun _ => ?_⟩
    rw [s.withParent_toNode, s.parent_toNode]
  · obtain ⟨x, hx, hid, hleaf⟩ := exists_alike hs fs.parent?
    obtain ⟨p, hp⟩ := h'.node_of_within hx
    exact ⟨_, hid ▸ hp, hleaf p, fun hnot => absurd hpath hnot⟩

/-- The leaf at the end of the path takes in the key. -/
theorem takesIn [Std.TransOrd K] (h : t.arena.Stores root) (h' : t'.arena.Stores root')
    (hsorted : Sorted root.keysIn) {id : NodeId} {keys : List K} {next : Option NodeId}
    (hleaf : (Subtree.leaf id keys next).Within root)
    (hbecomes : Becomes key t.nodeCount path (Subtree.Within · root') (.leaf id keys next)) :
    ∃ l, t.arena.leaf id = .ok l ∧ TakesIn t t' key id l := by
  obtain ⟨fs, rfl⟩ := hleaf
  refine ⟨_, Arena.leaf_eq_ok_iff.mpr h.holds_hole.node_eq, ?_⟩
  have hkeys : (Leaf.insert ⟨keys, next, fs.parent?⟩ key).keys = insertBehind key keys :=
    Leaf.keys_insert (Subtree.sorted_of_plug_leaf hsorted) key
  cases hbecomes with
  | filled last has =>
    obtain ⟨p, hp⟩ := h'.node_of_within has
    exact .whole (Arena.leaf_eq_ok_iff.mpr hp) hkeys.symm rfl
  | halved last le has_lower has_upper append_eq =>
    obtain ⟨p, hp⟩ := h'.node_of_within has_lower
    obtain ⟨q, hq⟩ := h'.node_of_within has_upper
    exact .split (Arena.leaf_eq_ok_iff.mpr hp) (Arena.leaf_eq_ok_iff.mpr hq) le rfl rfl
      (append_eq.trans hkeys.symm)

/-- No other leaf gets other keys, or another next leaf. -/
theorem leaf_after (h : t.arena.Stores root) (h' : t'.arena.Stores root')
    (haccounts : Accounts key t.nodeCount path root (Subtree.Within · root')) {id : NodeId} {l : Leaf K}
    (hl : t.arena.leaf id = .ok l) (hlast : path.getLast? ≠ some id) :
    ∃ l', t'.arena.leaf id = .ok l' ∧ l'.keys = l.keys ∧ l'.next = l.next := by
  obtain ⟨fs, s, rfl, rfl, hs⟩ := h.exists_within (Arena.leaf_eq_ok_iff.mp hl)
  cases s with
  | branch id keys children => cases hs
  | leaf id keys next =>
    obtain rfl := Node.leaf.inj hs
    rcases haccounts _ ⟨fs, rfl⟩ with hs | ⟨-, hs⟩
    · obtain ⟨p, hp⟩ := h'.node_of_within hs
      exact ⟨_, Arena.leaf_eq_ok_iff.mpr hp, rfl, rfl⟩
    · cases hs with
      | filled last => exact absurd last hlast
      | halved last => exact absurd last hlast

/-- The parent of a node changes only where it was divided, or where a new root was put above the node. -/
theorem relinked (h : t.arena.Stores root) (h' : t'.arena.Stores root') (hroot : t.root = root.id)
    (hroot' : t'.root = root'.id)
    (hcases : root'.id = root.id ∨ t.nodeCount ≤ root'.id.index ∧
      ∃ (separator : K) (left right : Subtree K),
        root' = .branch root'.id [separator] [left, right] ∧ left.id = root.id)
    (haccounts : Accounts key t.nodeCount path root (Subtree.Within · root')) {id : NodeId}
    {n n' : Node K} (hn : t.arena.node id = .ok n) (hn' : t'.arena.node id = .ok n') :
    Relinked t t' id n.parent n'.parent := by
  obtain ⟨fs, s, rfl, rfl, rfl⟩ := h.exists_within hn
  rw [s.parent_toNode]
  -- any node that lists `s` then is its parent
  have hlists : ∀ {q : NodeId} {keys : List K} {children : List (Subtree K)},
      (Subtree.branch q keys children).Within root' → s.id ∈ children.map Subtree.id →
        n'.parent = some q := fun hbranch hs => by
    obtain ⟨m, hm, hparent⟩ := h'.child_of_within hbranch hs
    rwa [Except.ok.inj (hn'.symm.trans hm)]
  cases fs with
  | nil =>
    rcases hcases with hid | ⟨hfresh, separator, left, right, hbranch, hleft⟩
    · have hnode := h'.holds.node_eq
      rw [hid] at hnode
      rw [Except.ok.inj (hn'.symm.trans hnode), root'.parent_toNode]
      exact .kept
    · have hwithin : (Subtree.branch root'.id [separator] [left, right]).Within root' := by
        rw [← hbranch]
        exact .refl root'
      rw [hlists hwithin (by rw [List.map_cons, hleft]; exact List.mem_cons_self), ← hroot']
      exact .raised hroot.symm (hroot' ▸ hfresh)
  | cons f rest =>
    have hmem : s.id ∈ (f.before ++ s :: f.after).map Subtree.id := by simp
    rcases haccounts (f.fill s) ⟨rest, rfl⟩ with hs | ⟨-, hs⟩
    · rw [hlists hs hmem]
      exact .kept
    · rw [Frame.fill] at hs
      cases hs with
      | grown has subset =>
        rw [hlists has (subset hmem)]
        exact .kept
      | divided le has_lower has_upper split =>
        rcases split.mem hmem with hnear | hfar
        · rw [hlists has_lower hnear]
          exact .kept
        · rw [hlists has_upper hfar]
          obtain ⟨p, hp⟩ := h'.node_of_within has_lower
          obtain ⟨q, hq⟩ := h'.node_of_within has_upper
          have hbranch : t.arena.Stores
              (Trail.plug rest (.branch f.id f.keys (f.before ++ s :: f.after))) := h
          exact .moved (Arena.branch_eq_ok_iff.mpr hbranch.branch_eq.1) (Arena.branch_eq_ok_iff.mpr hp)
            (Arena.branch_eq_ok_iff.mpr hq) le ⟨split.children, split.keys⟩ hmem hfar

end

/-! ## Trees in order -/

variable [Ord K]

/-- The paths that a tree gives out: those of point searches and of range scans. -/
def Traces (t : Tree K o) (path : List NodeId) : Prop :=
  (∃ key r, t.search key = .ok r ∧ r.path = path) ∨
    ∃ above upTo r, t.scanList above upTo = .ok r ∧ r.path = path

variable [Std.TransOrd K] {d : Nat} {root : Subtree K} {key : K}

namespace InOrder

theorem exists_effect (h : t.InOrder d root) (ht' : t.insert key = .ok t') :
    ∃ (r : Search) (g : Growth K) (d' : Nat) (root' : Subtree K), t.search key = .ok r ∧
      g.Effect key t.nodeCount r.path root ∧ g.close = some root' ∧ t'.InOrder d' root' := by
  obtain ⟨g, root', hg, hclose, hin⟩ := exists_growth h ht'
  obtain ⟨fs, id, keys, next, r, rfl, -, hfs, hr, hpath, -⟩ := h.lawful.search_eq key
  refine ⟨r, g, _, root', hr, ?_, hclose, hin⟩
  rw [hpath, nodeCount, ← h.stores.size_eq]
  exact Subtree.effect_insert hfs hg

/-- A run of insertions keeps all nodes, and their kinds. -/
theorem keepsKinds_extend (h : t.InOrder d root) {keys : List K} {u : Tree K o}
    (hu : t.extend keys = .ok u) : t.KeepsKinds u := by
  induction keys generalizing t d root with
  | nil =>
    obtain rfl := Except.ok.inj hu
    exact fun id n hn => ⟨n, hn, rfl⟩
  | cons key keys ih =>
    rw [extend, List.foldlM_cons] at hu
    obtain ⟨t', ht', hu⟩ := bind_eq_ok_iff.mp hu
    obtain ⟨r, g, d', root', -, heffect, hclose, hin⟩ := h.exists_effect ht'
    intro id n hn
    obtain ⟨n', hn', hkind, -⟩ := node_after h.stores hin.stores (heffect.accounts_close hclose) hn
    obtain ⟨m, hm, hkind'⟩ := ih hin hu id n' hn'
    exact ⟨m, hm, hkind'.trans hkind⟩

theorem node_of_search (h : t.InOrder d root) {r : Search} (hr : t.search key = .ok r) {id : NodeId}
    (hid : id ∈ r.path) : ∃ n, t.arena.node id = .ok n := by
  obtain ⟨fs, stop, keys, next, r', rfl, -, -, hr', hpath, -⟩ := h.lawful.search_eq key
  obtain rfl := Except.ok.inj (hr.symm.trans hr')
  refine Arena.exists_node_iff.mpr (h.stores.covers.lt_of_mem ((Trail.ids_plug fs _).mem_iff.mpr ?_))
  simp only [hpath, List.mem_append, List.mem_reverse, List.mem_map, List.mem_singleton] at hid
  rcases hid with ⟨f, hf, rfl⟩ | rfl
  · exact List.mem_append_right _ (List.mem_flatMap.mpr ⟨f, hf, List.mem_cons_self⟩)
  · exact List.mem_append_left _ (by simp)

/-- A path that a tree gives out names nodes of the tree. -/
theorem node_of_traces (h : t.InOrder d root) {path : List NodeId} (hpath : t.Traces path) {id : NodeId}
    (hid : id ∈ path) : ∃ n, t.arena.node id = .ok n := by
  rcases hpath with ⟨key, r, hr, rfl⟩ | ⟨above, upTo, r, hr, rfl⟩
  · exact h.node_of_search hr hid
  · obtain ⟨r', out, hr', hout, -, hpath⟩ := h.lawful.scanList_eq above upTo
    obtain rfl := Except.ok.inj (hr.symm.trans hout)
    rw [hpath] at hid
    split at hid
    · cases hid
    · exact h.node_of_search hr' hid

end InOrder

/-- The leaf that was first of all remains the leftmost one. -/
theorem Reachable.chained_zero (h : t.Reachable) :
    ∃ d root, t.InOrder d root ∧ Subtree.Chained (some ⟨0, by decide⟩) root.leavesIn none := by
  refine h.induction (P := fun t => ∃ d root, t.InOrder d root ∧
    Subtree.Chained (some ⟨0, by decide⟩) root.leavesIn none) ?_ ?_
  · exact ⟨0, _, inOrder_empty, by simp [Subtree.Chained, Subtree.next?, Subtree.id]⟩
  rintro t key t' ⟨d, root, hin, hchained⟩ ht'
  obtain ⟨g, root', hg, hclose, hin'⟩ := exists_growth hin ht'
  refine ⟨_, root', hin', ?_⟩
  rw [Growth.parts_close Subtree.leavesIn_branch hclose]
  exact hin.regular.insert_chained hin.sorted hg hchained

/-! ## Reachable trees -/

/-- **An insertion leaves alone all that is not on the path of a search for the key**, the parents apart. No
node is lost and none changes its kind. Off the path a node keeps its contents. Of the leaves, the last node
of the path takes in the key, and names another leaf as the next one only where it is split; no other gets
other keys or another next leaf. The parent of a node changes only where its parent was divided and it went
to the fresh half, or where it was the root and a fresh root was put above it. So node 0 is the leftmost leaf
of every reachable tree, and each node on a path that the tree gave out is a node of the same kind through all
insertions that come after. -/
theorem frame_of_reachable (h : t.Reachable) :
    (∀ key t', t.insert key = .ok t' → ∃ r stop, t.search key = .ok r ∧ r.path.getLast? = some stop ∧
      (∀ id n, t.arena.node id = .ok n → ∃ n', t'.arena.node id = .ok n' ∧ n'.isLeaf = n.isLeaf ∧
        (id ∉ r.path → n' = n.withParent n'.parent) ∧ Relinked t t' id n.parent n'.parent) ∧
      (∃ l, t.arena.leaf stop = .ok l ∧ TakesIn t t' key stop l) ∧
      ∀ id l, t.arena.leaf id = .ok l → id ≠ stop →
        ∃ l', t'.arena.leaf id = .ok l' ∧ l'.keys = l.keys ∧ l'.next = l.next) ∧
    (∃ w, t.firstLeaf = .ok w ∧ w.stop.index = 0) ∧
    ∀ path, t.Traces path → ∀ keys u, t.extend keys = .ok u → ∀ id ∈ path, ∃ n n',
      t.arena.node id = .ok n ∧ u.arena.node id = .ok n' ∧ n'.isLeaf = n.isLeaf := by
  obtain ⟨d, root, hin, hchained⟩ := h.chained_zero
  refine ⟨fun key t' ht' => ?_, ?_, fun path hpath keys u hu id hid => ?_⟩
  · obtain ⟨r, g, d', root', hr, heffect, hclose, hin'⟩ := hin.exists_effect ht'
    have haccounts := heffect.accounts_close hclose
    obtain ⟨stop, keys, next, hleaf, hlast, hbecomes⟩ := heffect.leaf_close hclose
    refine ⟨r, stop, hr, hlast, fun id n hn => ?_,
      takesIn hin.stores hin'.stores hin.sorted hleaf hbecomes, fun id l hl hne =>
      leaf_after hin.stores hin'.stores haccounts hl fun hid => hne (Option.some.inj (hid.symm.trans hlast))⟩
    obtain ⟨n', hn', hkind, hcontents⟩ := node_after hin.stores hin'.stores haccounts hn
    exact ⟨n', hn', hkind, hcontents, relinked hin.stores hin'.stores hin.root_eq hin'.root_eq
      (heffect.root_cases hclose) haccounts hn hn'⟩
  · obtain ⟨w, l, ls, hw, -, hleaves, hstop⟩ := hin.firstLeaf
    rw [hleaves] at hchained
    exact ⟨w, hw, by rw [hstop, ← Option.some.inj hchained.1]⟩
  · obtain ⟨n, hn⟩ := hin.node_of_traces hpath hid
    obtain ⟨n', hn', hkind⟩ := hin.keepsKinds_extend hu id n hn
    exact ⟨n, n', hn, hn', hkind⟩

/-- A key that splits a leaf and the root above it: the leaf that is split goes to the fresh branch, and the
old root gets a parent. -/
theorem frame_of_split_root : ∃ t t' : Tree Nat .standard, ofKeys [1, 2, 3, 4, 5, 6] = .ok t ∧
    t.insert 7 = .ok t' ∧ Relinked t t' ⟨3, by decide⟩ (some ⟨2, by decide⟩) (some ⟨5, by decide⟩) ∧
      Relinked t t' ⟨2, by decide⟩ none (some t'.root) := by
  have hrun : (ofKeys [1, 2, 3, 4, 5, 6]).bind (fun t => (t.insert 7).bind fun t' => .ok (t, t')) =
      .ok ((⟨⟨#[
        .leaf ⟨[1, 2], some ⟨1, by decide⟩, some ⟨2, by decide⟩⟩,
        .leaf ⟨[3, 4], some ⟨3, by decide⟩, some ⟨2, by decide⟩⟩,
        .branch ⟨[3, 5], [⟨0, by decide⟩, ⟨1, by decide⟩, ⟨3, by decide⟩], none⟩,
        .leaf ⟨[5, 6], none, some ⟨2, by decide⟩⟩]⟩, ⟨2, by decide⟩, 6⟩ : Tree Nat .standard),
      (⟨⟨#[
        .leaf ⟨[1, 2], some ⟨1, by decide⟩, some ⟨2, by decide⟩⟩,
        .leaf ⟨[3, 4], some ⟨3, by decide⟩, some ⟨2, by decide⟩⟩,
        .branch ⟨[3], [⟨0, by decide⟩, ⟨1, by decide⟩], some ⟨6, by decide⟩⟩,
        .leaf ⟨[5, 6], some ⟨4, by decide⟩, some ⟨5, by decide⟩⟩,
        .leaf ⟨[7], none, some ⟨5, by decide⟩⟩,
        .branch ⟨[7], [⟨3, by decide⟩, ⟨4, by decide⟩], some ⟨6, by decide⟩⟩,
        .branch ⟨[5], [⟨2, by decide⟩, ⟨5, by decide⟩], none⟩]⟩, ⟨6, by decide⟩, 7⟩ :
          Tree Nat .standard)) := by cbv
  obtain ⟨t, ht, h⟩ := bind_eq_ok_iff.mp hrun
  obtain ⟨t', ht', he⟩ := bind_eq_ok_iff.mp h
  obtain ⟨rfl, rfl⟩ := Prod.mk.inj (Except.ok.inj he)
  obtain ⟨r, stop, -, -, hnodes, -⟩ := (frame_of_reachable ⟨_, ht⟩).1 7 _ ht'
  refine ⟨_, _, ht, ht', ?_, ?_⟩
  · obtain ⟨n', hn', -, -, hlink⟩ := hnodes ⟨3, by decide⟩ _ rfl
    rwa [← Except.ok.inj hn'] at hlink
  · obtain ⟨n', hn', -, -, hlink⟩ := hnodes ⟨2, by decide⟩ _ rfl
    rwa [← Except.ok.inj hn'] at hlink

end Tree

end TracedIndex
