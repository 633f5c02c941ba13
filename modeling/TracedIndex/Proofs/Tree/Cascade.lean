import TracedIndex.Proofs.Subtree.Cascade
import TracedIndex.Proofs.Tree.Search
import TracedIndex.Tree.Session

/-!
# When the root changes

How far the splits of an insertion climb is known before it begins: they go through the full nodes at the
end of the path of a search for the key. If a node of the path has room for one more key, the splits end
there, and the tree keeps its root and its height. If all nodes of the path are full, the old root is split
as well, and a new root above its halves is the last node of all.

* `fullAtEnd`: how many nodes at the end of a path are full;
* `Adds`: what an insertion that needs so many new nodes comes to;
* `InOrder.carries`: how far the splits climb; `InOrder.adds_of_growth`: what that means for the tree;
* **`cascade_of_reachable`**: all of this for a reachable tree.
-/

namespace TracedIndex.Tree

variable {K : Type} {o : Order}

/-- The number of full nodes at the end of a path, up to the last one that is not full. -/
def fullAtEnd (t : Tree K o) (path : List NodeId) : Nat := fullRun o (path.reverse.map t.arena.keysAt)

variable [Ord K]

/-- Insertion of `key` gives a tree of so many nodes more in which `P` holds, and returns its root, as long
as there are numbers for these nodes. -/
def Adds (t : Tree K o) (key : K) (added : Nat) (P : Tree K o → Prop) : Prop :=
  if t.nodeCount + added ≤ UInt32.size then
    ∃ t', t.insert key = .ok t' ∧ t.answer (.insert key) = .ok (.root t'.root, t') ∧
      t'.nodeCount = t.nodeCount + added ∧ P t'
  else t.insert key = .error .exhausted

variable {t : Tree K o} {d : Nat} {root : Subtree K} {key : K} {full added : Nat} {P : Tree K o → Prop}

theorem answer_insert {t' : Tree K o} (h : t.insert key = .ok t') :
    t.answer (.insert key) = .ok (.root t'.root, t') := by
  rw [answer, insertRoot_eq, h]
  rfl

theorem Adds.of_ok (h : t.Adds key added P) {t' : Tree K o} (ht' : t.insert key = .ok t') : P t' := by
  unfold Adds at h
  split at h
  · obtain ⟨t'', ht'', -, -, hP⟩ := h
    exact Except.ok.inj (ht''.symm.trans ht') ▸ hP
  · cases h.symm.trans ht'

namespace InOrder

theorem root_lt (h : t.InOrder d root) : t.root.index < t.nodeCount :=
  h.root_eq ▸ h.stores.covers.lt_of_mem root.id_mem_ids

variable [Std.TransOrd K]

/-- The splits of an insertion climb through the full nodes at the end of the path of a search. -/
theorem carries (h : t.InOrder d root) (key : K) :
    ∃ r, t.search key = .ok r ∧ t.fullAtEnd r.path ≤ d + 1 ∧
      Growth.Carries root root.size (t.fullAtEnd r.path) (d + 1) (root.insert o.size root.size key) := by
  obtain ⟨fs, id, keys, next, r, rfl, rfl, hfs, hr, hpath, -⟩ := h.lawful.search_eq key
  obtain ⟨⟨e, -, hleaf⟩, hroomy⟩ := h.regular.of_plug
  -- the path begins with the root, and the trail with the leaf
  have hfull : t.fullAtEnd r.path = fullRun o (keys :: fs.map Frame.keys) := by
    rw [fullAtEnd, hpath, List.reverse_append, List.reverse_reverse, List.reverse_singleton,
      List.singleton_append, List.map_cons, h.stores.trail.map_keysAt,
      Arena.keysAt_eq h.stores.leaf_eq]
    rfl
  refine ⟨r, hr, ?_, ?_⟩
  · simpa [hfull] using fullRun_le (o := o) (keys :: fs.map Frame.keys)
  · rw [hfull]
    exact Subtree.carries_insert hfs hroomy hleaf.length_keys_lt
      (h.stores.size_eq ▸ h.stores.covers.size_le)

theorem adds_of_growth (h : t.InOrder d root) {g : Growth K} {root' : Subtree K}
    (hg : root.insert o.size root.size key = some g) (hclose : g.close = some root')
    (hsize : root'.size = root.size + added) (hP : ∀ t', t'.InOrder (d + g.rise) root' → P t') :
    t.Adds key added P := by
  obtain ⟨t', ht', hin, -⟩ := insert_ok h hg hclose
  have hcount : t'.nodeCount = t.nodeCount + added := by
    rw [nodeCount, nodeCount, ← hin.stores.size_eq, ← h.stores.size_eq, hsize]
  rw [Adds, if_pos (hcount ▸ hin.stores.covers.size_le)]
  exact ⟨t', ht', answer_insert ht', hcount, hP t' hin⟩

theorem adds_exhausted (h : t.InOrder d root)
    (hnone : (root.insert o.size root.size key).bind Growth.close = none)
    (hmany : UInt32.size < root.size + added) : t.Adds key added P := by
  rw [Adds, if_neg (by rw [nodeCount, ← h.stores.size_eq]; exact Nat.not_le.mpr hmany)]
  exact insert_exhausted h hnone

/-- **If the splits stop below the root or at it, the root stays what it is.** -/
theorem adds_of_room (h : t.InOrder d root) (hlt : full < d + 1)
    (hcarries : Growth.Carries root root.size full (d + 1) (root.insert o.size root.size key)) :
    t.Adds key full fun t' => t'.root = t.root ∧ t'.height = .ok (d + 1) := by
  generalize hg : root.insert o.size root.size key = g at hcarries
  cases hcarries with
  | exhausted want => exact h.adds_exhausted (by rw [hg]; rfl) want
  | stops lt fits id_eq size_eq =>
    refine h.adds_of_growth hg rfl size_eq fun t' hin => ⟨?_, hin.height_eq⟩
    rw [hin.root_eq, h.root_eq, id_eq]
  | through eq => exact absurd eq (Nat.ne_of_lt hlt)

/-- **If the splits go through the root, a new root above its halves is the last node of all.** -/
theorem adds_of_full (h : t.InOrder d root) (hall : full = d + 1)
    (hcarries : Growth.Carries root root.size full (d + 1) (root.insert o.size root.size key)) :
    t.Adds key (d + 2) fun t' => t'.height = .ok (d + 2) ∧ t'.root.index = t.nodeCount + (d + 1) ∧
      ∃ (separator : K) (right : NodeId), right.index + 1 = t.nodeCount + (d + 1) ∧
        t'.arena.branch t'.root = .ok ⟨[separator], [t.root, right], none⟩ := by
  subst hall
  generalize hg : root.insert o.size root.size key = g at hcarries
  cases hcarries with
  | exhausted want => exact h.adds_exhausted (by rw [hg]; rfl) (Nat.lt_succ_of_lt want)
  | stops lt => exact absurd lt (Nat.lt_irrefl _)
  | @through left right separator eq fits id_eq index_right size_eq =>
    rw [h.stores.size_eq] at index_right
    cases hnew : NodeId.ofNat? (root.size + (d + 1)) with
    | none =>
      -- there were numbers for the halves, but there is none for the root above them
      have hmany := Growth.ofNat?_eq_none.mp hnew
      exact h.adds_exhausted (by rw [hg, Option.bind_some, Growth.close, hnew]; rfl) (by omega)
    | some new =>
      have hclose : (Growth.halves left separator right (root.size + (d + 1))).close =
          some (.branch new [separator] [left, right]) := by rw [Growth.close, hnew]; rfl
      refine h.adds_of_growth hg hclose ?_ fun t' hin => ⟨hin.height_eq, ?_, separator, right.id, ?_⟩
      · simp only [Subtree.size_branch, List.map_cons, List.map_nil, List.sum_cons, List.sum_nil]
        omega
      · rw [hin.root_eq, Subtree.id, Growth.ofNat?_eq_some.mp hnew, h.stores.size_eq, nodeCount]
      · refine ⟨index_right, Arena.branch_eq_ok_iff.mpr ?_⟩
        have hnode := hin.stores.holds.node_eq
        rwa [← hin.root_eq, Subtree.toNode, List.map_cons, List.map_singleton, id_eq, ← h.root_eq] at hnode

end InOrder

variable [Std.TransOrd K]

/-- **The full nodes at the end of a search path say all about the nodes, the root and the height that an
insertion gives.** If not all nodes of the path are full, each full one adds a node, and the root and the
height stay. If all are full, there is one node more and one level more; the last node is the new root,
which is returned and has one separator, and its children are the old root and the node before it. So the
root changes exactly where the height grows, and that by one level. An insertion fails only if there are no
numbers for the nodes that it adds. -/
theorem cascade_of_reachable (h : t.Reachable) (key : K) :
    ∃ (height : Nat) (r : Search), t.height = .ok height ∧ t.search key = .ok r ∧
      t.fullAtEnd r.path ≤ height ∧
      (t.fullAtEnd r.path < height → t.Adds key (t.fullAtEnd r.path) fun t' =>
        t'.root = t.root ∧ t'.height = .ok height) ∧
      (t.fullAtEnd r.path = height → t.Adds key (height + 1) fun t' =>
        t'.height = .ok (height + 1) ∧ t'.root.index = t.nodeCount + height ∧
        ∃ (separator : K) (right : NodeId), right.index + 1 = t.nodeCount + height ∧
          t'.arena.branch t'.root = .ok ⟨[separator], [t.root, right], none⟩) ∧
      ∀ t', t.insert key = .ok t' → ∃ height', t'.height = .ok height' ∧
        (height' = height ∨ height' = height + 1) ∧ (t'.root ≠ t.root ↔ height' = height + 1) := by
  obtain ⟨d, root, hin⟩ := h.inOrder
  obtain ⟨r, hr, hle, hcarries⟩ := hin.carries key
  have hroom := fun hlt => hin.adds_of_room hlt hcarries
  have hfull := fun he => hin.adds_of_full he hcarries
  refine ⟨d + 1, r, hin.height_eq, hr, hle, hroom, hfull, fun t' ht' => ?_⟩
  rcases Nat.lt_or_eq_of_le hle with hlt | he
  · obtain ⟨hroot, hheight⟩ := (hroom hlt).of_ok ht'
    exact ⟨d + 1, hheight, .inl rfl, by simp [hroot]⟩
  · obtain ⟨hheight, hroot, -⟩ := (hfull he).of_ok ht'
    refine ⟨d + 2, hheight, .inr rfl, iff_of_true (fun e => ?_) rfl⟩
    have := hin.root_lt
    rw [e] at hroot
    omega

/-- Two levels, and a key for a full leaf below a full root: three nodes and a level are added. -/
theorem cascade_of_full_path : ∃ (t t' : Tree Nat .standard) (r : Search),
    ofKeys [1, 2, 3, 4, 5, 6] = .ok t ∧ t.search 7 = .ok r ∧ t.nodeCount = 4 ∧ t.height = .ok 2 ∧
      t.fullAtEnd r.path = 2 ∧ t.answer (.insert 7) = .ok (.root t'.root, t') ∧ t'.nodeCount = 7 ∧
      t'.height = .ok 3 ∧ t'.root.index = 6 := by
  have hrun : (ofKeys [1, 2, 3, 4, 5, 6] : Except Fault (Tree Nat .standard)).bind
      (fun t => (t.height.bind fun height => (t.search 7).bind fun r =>
        .ok (t.nodeCount, height, t.fullAtEnd r.path))) = .ok (4, 2, 2) := by cbv
  obtain ⟨t, ht, h⟩ := bind_eq_ok_iff.mp hrun
  obtain ⟨height, r, hheight, hr, -, -, hfull, -⟩ := cascade_of_reachable ⟨_, ht⟩ 7
  rw [hheight, hr] at h
  obtain ⟨hcount, hh⟩ := Prod.mk.inj (Except.ok.inj h)
  obtain ⟨rfl, hend⟩ := Prod.mk.inj hh
  have hadds := hfull hend
  rw [Adds, if_pos (by rw [hcount]; decide)] at hadds
  obtain ⟨t', -, hanswer, hcount', hheight', hroot, -⟩ := hadds
  rw [hcount] at hcount' hroot
  exact ⟨t, t', r, ht, hr, hcount, hheight, hend, hanswer, hcount', hheight', hroot⟩

end TracedIndex.Tree
