import TracedIndex.Proofs.Basic
import TracedIndex.Snapshot
import TracedIndex.Tree.Insert
import TracedIndex.Tree.Search

/-!
# Other keys in the same arena

A **change of keys** puts `f k` in the place of every key `k`. If the new keys compare as the old ones do,
nothing that is done to an arena can tell the difference: it first changes the keys and then goes on, or
the other way round, to the same end.

* `Node.map`, `Arena.map`: the change of keys in a node and in an arena;
* `Arena.addKey_map`, `Arena.settle_map`: the two halves of an insertion;
* **`Tree.ofKeys_map`**: the tree of the new keys; `Tree.search_map`, `Tree.snapshot_map`.
-/

namespace TracedIndex

variable {K L : Type}

/-! ## Nodes -/

theorem Subtree.mapList_eq (f : K → L) (ss : List (Subtree K)) : mapList f ss = ss.map (map f) := by
  induction ss with
  | nil => rfl
  | cons s ss ih => rw [mapList, ih, List.map_cons]

theorem Bisect.cut_map (f : K → L) (p : L → Bool) (ks : List K) :
    Bisect.cut p (ks.map f) = Bisect.cut (fun k => p (f k)) ks := by
  fun_induction Bisect.cut (fun k => p (f k)) ks with
  | case1 ks hlen hm hp ih =>
    rw [Bisect.cut, dif_pos (by simpa using hlen)]
    simp only [List.length_map, List.getElem_map, hp, if_true, ← List.map_drop, ih]
  | case2 ks hlen hm hp ih =>
    rw [Bisect.cut, dif_pos (by simpa using hlen)]
    simp only [List.length_map, List.getElem_map, hp, ← List.map_take, ih]
    rfl
  | case3 ks hlen => rw [Bisect.cut, dif_neg (by simpa using hlen)]

def Leaf.map (f : K → L) (l : Leaf K) : Leaf L := { l with keys := l.keys.map f }

def Branch.map (f : K → L) (b : Branch K) : Branch L := { b with keys := b.keys.map f }

def Node.map (f : K → L) : Node K → Node L
  | .leaf l => .leaf (l.map f)
  | .branch b => .branch (b.map f)

theorem Node.keys_map (f : K → L) (n : Node K) : (n.map f).keys = n.keys.map f := by cases n <;> rfl

theorem Node.parent_map (f : K → L) (n : Node K) : (n.map f).parent = n.parent := by cases n <;> rfl

theorem Node.withParent_map (f : K → L) (p : Option NodeId) (n : Node K) :
    (n.map f).withParent p = (n.withParent p).map f := by cases n <;> rfl

/-- The halves of a leaf, and the separator between them. -/
theorem Leaf.split?_map (f : K → L) (l : Leaf K) :
    (l.map f).split? = l.split?.map fun h => (h.1.map f, f h.2.1, h.2.2.map f) := by
  simp only [split?, map, List.length_map, ← List.map_drop]
  cases l.keys.drop ((l.keys.length + 1) / 2) with
  | nil => rfl
  | cons k ks => simp

/-- The halves of a branch, and the separator between them. -/
theorem Branch.split?_map (f : K → L) (b : Branch K) :
    (b.map f).split? = b.split?.map fun h => ((h.1.1.map f, h.1.2), f h.2.1, (h.2.2.1.map f, h.2.2.2)) := by
  simp only [split?, map, List.length_map, List.getElem?_map]
  cases b.keys[b.keys.length / 2]? with
  | none => rfl
  | some k =>
    simp only [Option.map_some]
    split <;> simp

theorem Branch.adopt?_map (f : K → L) (b : Branch K) (left : NodeId) (separator : K) (right : NodeId) :
    (b.map f).adopt? left (f separator) right = (b.adopt? left separator right).map (map f) := by
  unfold adopt?
  rw [show (b.map f).slotOf? left = b.slotOf? left from rfl]
  cases b.slotOf? left with
  | none => rfl
  | some i =>
    simp only [map, List.length_map, ← List.map_insertIdx]
    split <;> rfl

section

variable [Ord K] [Ord L] {f : K → L} (hf : ∀ x y, compare (f x) (f y) = compare x y)

include hf

theorem Leaf.rank_map (l : Leaf K) (key : K) : (l.map f).rank (f key) = l.rank key := by
  rw [rank, map, Bisect.cut_map]
  simp only [hf, rank]

theorem Leaf.insert_map (l : Leaf K) (key : K) : (l.map f).insert (f key) = (l.insert key).map f := by
  rw [insert, insert, rank_map hf]
  simp only [map, List.map_insertIdx]

theorem Leaf.holds_map (l : Leaf K) (key : K) : (l.map f).holds (f key) = l.holds key := by
  unfold holds
  rw [rank_map hf]
  simp only [map, List.getElem?_map, Option.any_map, hf]

theorem Branch.route_map (b : Branch K) (key : K) : (b.map f).route (f key) = b.route key := by
  simp only [route, map, List.takeWhile_map, List.length_map, Function.comp_def, hf]

end

/-! ## Arenas -/

namespace Arena

def map (f : K → L) (a : Arena K) : Arena L := ⟨a.nodes.map (Node.map f)⟩

variable (f : K → L) (a : Arena K)

theorem size_map : (a.map f).size = a.size := Array.size_map ..

theorem node_map (id : NodeId) : (a.map f).node id = (a.node id).map (Node.map f) := by
  simp only [node, map, Array.getElem?_map]
  cases a.nodes[id.index]? <;> rfl

theorem leaf_map (id : NodeId) : (a.map f).leaf id = (a.leaf id).map (Leaf.map f) :=
  bind_eq_map (node_map f a id) fun n => by cases n <;> rfl

theorem branch_map (id : NodeId) : (a.map f).branch id = (a.branch id).map (Branch.map f) :=
  bind_eq_map (node_map f a id) fun n => by cases n <;> rfl

theorem put_map (id : NodeId) (n : Node K) : (a.map f).put id (n.map f) = (a.put id n).map f := by
  simp only [put, map, Array.map_setIfInBounds]

theorem alloc_map (n : Node K) :
    (a.map f).alloc (n.map f) = (a.alloc n).map fun p => (p.1.map f, p.2) := by
  simp only [alloc, map, Array.size_map]
  split
  · simp only [Except.map, Array.map_push]
  · rfl

theorem setParent_map (id : NodeId) (p : Option NodeId) :
    (a.map f).setParent id p = (a.setParent id p).map (map f) :=
  bind_eq_map (node_map f a id) fun n => by
    rw [Node.withParent_map, put_map]
    rfl

theorem setParents_map (ids : List NodeId) (p : Option NodeId) :
    (a.map f).setParents ids p = (a.setParents ids p).map (map f) :=
  foldlM_eq_map (fun a id => setParent_map f a id p) ids a

/-! ## Walks -/

theorem descend_map {choose : Branch K → Nat} {choose' : Branch L → Nat}
    (hchoose : ∀ b, choose' (b.map f) = choose b) (fuel : Nat) (id : NodeId) :
    (a.map f).descend choose' fuel id = a.descend choose fuel id := by
  induction fuel generalizing id with
  | zero => rfl
  | succ fuel ih =>
    rw [descend, descend, node_map]
    cases a.node id with
    | error e => rfl
    | ok n =>
      cases n with
      | leaf l => rfl
      | branch b =>
        simp only [Except.map, bind, Except.bind, Node.map, Branch.map, ih]
        rw [← Branch.map, hchoose]

theorem ascend_map (fuel : Nat) (id : NodeId) : (a.map f).ascend fuel id = a.ascend fuel id := by
  induction fuel generalizing id with
  | zero => rfl
  | succ fuel ih =>
    rw [ascend, ascend, node_map]
    cases a.node id with
    | error e => rfl
    | ok n => simp only [Except.map, bind, Except.bind, Node.parent_map, ih]

theorem rootOf_map (id : NodeId) : (a.map f).rootOf id = a.rootOf id := by
  rw [rootOf, rootOf, size_map, ascend_map]

/-- A copy has the new keys, and the shape that it had. -/
theorem copy_map (fuel : Nat) (id : NodeId) :
    (a.map f).copy fuel id = (a.copy fuel id).map (Subtree.map f) := by
  induction fuel generalizing id with
  | zero => rfl
  | succ fuel ih =>
    refine bind_eq_map (node_map f a id) fun n => ?_
    cases n with
    | leaf l => rfl
    | branch b =>
      refine bind_eq_map (mapM_eq_map ih b.children) fun ss => ?_
      rw [← Subtree.mapList_eq]
      rfl

end Arena

/-! ## Insertion -/

def Split.map (f : K → L) (s : Split K) : Split L := { s with separator := f s.separator }

def Progress.map (f : K → L) : Progress K → Progress L
  | .settled root => .settled root
  | .pending s => .pending (s.map f)

namespace Arena

variable (f : K → L) (a : Arena K)

theorem splitLeaf_map (left : NodeId) :
    (a.map f).splitLeaf left = (a.splitLeaf left).map fun p => (p.1.map f, p.2.map f) := by
  refine bind_eq_map (leaf_map f a left) fun l => ?_
  rw [Leaf.split?_map]
  rcases l.split? with _ | ⟨lower, separator, upper⟩
  · rfl
  · refine bind_eq_map (alloc_map f a (.leaf { l with keys := upper })) fun ⟨a, right⟩ => ?_
    exact congrArg (fun a => Except.ok (a, (⟨left, f separator, right⟩ : Split L)))
      (put_map f a left (.leaf { l with keys := lower, next := some right }))

theorem splitBranch_map (left : NodeId) :
    (a.map f).splitBranch left = (a.splitBranch left).map fun p => (p.1.map f, p.2.map f) := by
  refine bind_eq_map (branch_map f a left) fun b => ?_
  rw [Branch.split?_map]
  rcases b.split? with _ | ⟨lower, separator, upper⟩
  · rfl
  · refine bind_eq_map (alloc_map f a (.branch { b with keys := upper.1, children := upper.2 }))
      fun ⟨a, right⟩ => ?_
    have hput := put_map f a left (.branch { b with keys := lower.1, children := lower.2 })
    refine bind_eq_map (φ := map f) ?_ fun a => rfl
    exact (congrArg (setParents · upper.2 (some right)) hput).trans (setParents_map ..)

theorem growRoot_map (s : Split K) :
    (a.map f).growRoot (s.map f) = (a.growRoot s).map fun p => (p.1.map f, p.2) :=
  bind_eq_map (alloc_map f a (.branch ⟨[s.separator], [s.left, s.right], none⟩)) fun ⟨a, root⟩ =>
    bind_eq_map (setParents_map f a [s.left, s.right] (some root)) fun _ => rfl

theorem enter_map (parent : NodeId) (s : Split K) :
    (a.map f).enter parent (s.map f) = (a.enter parent s).map fun p => (p.1.map f, p.2.map f) := by
  refine bind_eq_map (branch_map f a parent) fun b => ?_
  rw [Split.map, Branch.adopt?_map]
  cases b.adopt? s.left s.separator s.right with
  | none => rfl
  | some b =>
    refine bind_eq_map (φ := map f) ?_ fun a => rfl
    exact (congrArg (setParent · s.right (some parent)) (put_map f a parent (.branch b))).trans
      (setParent_map ..)

/-- One level of the way up. -/
theorem climb_map (o : Order) (s : Split K) :
    (a.map f).climb o (s.map f) = (a.climb o s).map fun p => (p.1.map f, p.2.map f) := by
  refine bind_eq_map (node_map f a s.left) fun n => ?_
  rw [Node.parent_map]
  cases n.parent with
  | none => exact bind_eq_map (growRoot_map f a s) fun _ => rfl
  | some parent =>
    refine bind_eq_map (enter_map f a parent s) fun ⟨a, b⟩ => ?_
    simp only [Branch.map, List.length_map, rootOf_map]
    split
    · cases a.rootOf parent <;> rfl
    · exact bind_eq_map (splitBranch_map f a parent) fun _ => rfl

/-- The whole way up. -/
theorem settle_map (o : Order) (fuel : Nat) (a : Arena K) (p : Progress K) :
    settle o fuel (a.map f) (p.map f) = (settle o fuel a p).map fun q => (q.1.map f, q.2) := by
  induction fuel generalizing a p with
  | zero => cases p <;> rfl
  | succ fuel ih =>
    cases p with
    | settled root => rfl
    | pending s => exact bind_eq_map (climb_map f a o s) fun ⟨a, p⟩ => ih a p

variable {f} [Ord K] [Ord L] (hf : ∀ x y, compare (f x) (f y) = compare x y)

include hf

/-- A key that goes into a leaf. -/
theorem addKey_map (o : Order) (id : NodeId) (key : K) :
    (a.map f).addKey o id (f key) = (a.addKey o id key).map fun p => (p.1.map f, p.2.map f) := by
  refine bind_eq_map (leaf_map f a id) fun l => ?_
  have hput := put_map f a id (.leaf (l.insert key))
  rw [Node.map] at hput
  have hlen : ((l.insert key).map f).keys.length = (l.insert key).keys.length := List.length_map ..
  simp only [Leaf.insert_map hf, hput, hlen, rootOf_map]
  split
  · cases (a.put id (.leaf (l.insert key))).rootOf id <;> rfl
  · exact bind_eq_map (splitLeaf_map f _ id) fun _ => rfl

end Arena

/-! ## Trees -/

namespace Tree

variable {o : Order}

def map (f : K → L) (t : Tree K o) : Tree L o := ⟨t.arena.map f, t.root, t.len⟩

theorem empty_map (f : K → L) : (empty : Tree K o).map f = empty := by
  simp only [map, empty, Arena.map, List.map_toArray, List.map_cons, List.map_nil]
  rfl

theorem firstLeaf_map (f : K → L) (t : Tree K o) : (t.map f).firstLeaf = t.firstLeaf := by
  rw [firstLeaf, map, Arena.size_map, Arena.descend_map f t.arena fun _ => rfl]
  rfl

theorem height_map (f : K → L) (t : Tree K o) : (t.map f).height = t.height := by
  rw [height_eq_length, height_eq_length, firstLeaf_map]

/-- **The snapshot of a tree with other keys is that of the tree, with the other keys.** -/
theorem snapshot_map (f : K → L) (t : Tree K o) :
    (t.map f).snapshot = t.snapshot.map (Snapshot.map f) := by
  rw [snapshot, snapshot, height_map, map]
  simp only [Arena.size_map, Arena.copy_map]
  cases t.height with
  | error e => rfl
  | ok d => cases t.arena.copy t.arena.size t.root <;> rfl

variable [Ord K] [Ord L] {f : K → L} (hf : ∀ x y, compare (f x) (f y) = compare x y)

include hf

theorem findLeaf_map (t : Tree K o) (key : K) : (t.map f).findLeaf (f key) = t.findLeaf key := by
  rw [findLeaf, map, Arena.size_map, Arena.descend_map f t.arena fun b => b.route_map hf key]
  rfl

/-- **A search among other keys finds as it found before, on the same path.** -/
theorem search_map (t : Tree K o) (key : K) : (t.map f).search (f key) = t.search key := by
  rw [search, search, findLeaf_map hf]
  cases t.findLeaf key with
  | error e => rfl
  | ok w =>
    simp only [bind, Except.bind, map, Arena.leaf_map]
    cases t.arena.leaf w.stop with
    | error e => rfl
    | ok l =>
      simp only [Except.map, Leaf.holds_map hf]

theorem insertRoot_map (t : Tree K o) (key : K) :
    (t.map f).insertRoot (f key) = (t.insertRoot key).map fun p => (p.1, p.2.map f) := by
  refine bind_eq_map (φ := id) ?_ fun w => ?_
  · rw [findLeaf_map hf]
    cases t.findLeaf key <;> rfl
  refine bind_eq_map (Arena.addKey_map t.arena hf o w.stop key) fun ⟨a, p⟩ => ?_
  refine bind_eq_map (φ := fun q => (q.1.map f, q.2)) ?_ fun _ => rfl
  rw [Arena.size_map]
  exact Arena.settle_map f o a.size a p

theorem insert_map (t : Tree K o) (key : K) :
    (t.map f).insert (f key) = (t.insert key).map (map f) :=
  bind_eq_map (insertRoot_map hf t key) fun _ => rfl

theorem extend_map (t : Tree K o) (keys : List K) :
    (t.map f).extend (keys.map f) = (t.extend keys).map (map f) := by
  rw [extend, List.foldlM_map]
  exact foldlM_eq_map (φ := map f) (fun t key => insert_map hf t key) keys t

/-- **Other keys that compare in the same way grow the same tree**, and run out of numbers for its nodes
at the same key. -/
theorem ofKeys_map (keys : List K) :
    (ofKeys (keys.map f) : Except Fault (Tree L o)) = (ofKeys keys).map (map f) := by
  rw [ofKeys, ofKeys, ← extend_map hf, empty_map]

end Tree

end TracedIndex
