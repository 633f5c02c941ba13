import TracedIndex.Proofs.Arena.Climb
import TracedIndex.Proofs.Subtree.Numbering
import TracedIndex.Proofs.Tree.Linked

/-!
# Reachable trees

A tree is **in order** if its arena stores a regular tree with sorted keys, linked leaves and as many
keys as its length says. Insertion keeps this, and on the stored tree it is insertion by recursion.

* `InOrder`; `inOrder_empty`: the tree without keys;
* `InOrder.linked`: a tree in order is linked; `InOrder.exists_hole`: where a node is in the tree;
* **`insert_ok`**, **`insert_exhausted`**, `exists_growth`: one insertion;
* **`ofKeys_spec`**: a run of insertions, which can end early only for want of numbers, and then has
  more than `2 ^ 31` keys;
* `Reachable.inOrder`: every reachable tree is in order;
* `Reachable.induction`: what each insertion keeps.
-/

namespace TracedIndex.Tree

variable {K : Type} [Ord K] {o : Order} {t : Tree K o} {d : Nat} {root : Subtree K}

/-- The tree stores `root`, which is of depth `d` and has all that insertion keeps. -/
structure InOrder (t : Tree K o) (d : Nat) (root : Subtree K) : Prop where
  stores : t.arena.Stores root
  root_eq : t.root = root.id
  regular : root.Regular o d
  sorted : Sorted root.keysIn
  chained : ∃ start, Subtree.Chained start root.leavesIn none
  len_eq : t.len = root.keysIn.length

theorem inOrder_empty : (empty : Tree K o).InOrder 0 (.leaf ⟨0, by decide⟩ [] none) where
  stores := ⟨.leaf rfl, by simp [Arena.Covers, Arena.size, empty]⟩
  root_eq := rfl
  regular := .leaf (by have := o.three_le_size; simp; omega)
  sorted := by simp [Sorted]
  chained := ⟨_, by simp [Subtree.Chained, Subtree.next?]; rfl⟩
  len_eq := by simp [empty]

theorem InOrder.linked (h : t.InOrder d root) : t.Linked d root where
  stores := h.stores
  root_eq := h.root_eq
  balanced := h.regular.balanced
  chained := h.chained

theorem InOrder.firstLeaf (h : t.InOrder d root) :
    ∃ w l ls, t.firstLeaf = .ok w ∧ w.path.length = d + 1 ∧ root.leavesIn = l :: ls ∧
      w.stop = l.id :=
  h.linked.firstLeaf

theorem InOrder.height_eq (h : t.InOrder d root) : t.height = .ok (d + 1) := h.linked.height_eq

/-- Every node is at the root of a regular subtree, which is filled unless it is the whole tree. -/
theorem InOrder.exists_hole (h : t.InOrder d root) {id : NodeId} {n : Node K}
    (hn : t.arena.node id = .ok n) :
    ∃ (fs : Trail K) (s : Subtree K) (e : Nat), fs.plug s = root ∧ n = s.toNode fs.parent? ∧
      s.Regular o e ∧ (id ≠ t.root → s.Filled o) := by
  obtain ⟨fs, s, rfl, rfl⟩ := h.linked.exists_trail (Arena.lt_of_node hn)
  have hnode := h.stores.holds_hole.node_eq
  rw [hn] at hnode
  obtain ⟨⟨e, -, hreg⟩, -⟩ := h.regular.of_plug
  refine ⟨fs, s, e, rfl, Except.ok.inj hnode, hreg, fun hne => ?_⟩
  cases fs with
  | nil => exact absurd h.root_eq.symm hne
  | cons f fs =>
    have hplug : (Trail.plug fs (f.fill s)).Regular o d := h.regular
    obtain ⟨⟨e', -, hfill⟩, -⟩ := hplug.of_plug
    cases hfill with
    | branch _ _ _ _ hfilled => exact hfilled s (by simp)

/-! ## One insertion -/

variable [Std.TransOrd K] {key : K}

/-- Insertion into a tree changes its arena as insertion by recursion changes the stored tree. -/
theorem insert_stored (h : t.InOrder d root) (key : K) :
    ∃ r, t.insert key = r.map (fun r => ⟨r.1, r.2, t.len + 1⟩) ∧
      Arena.Stored r ((root.insert o.size root.size key).bind Growth.close) := by
  obtain ⟨fs, id, keys, next, rfl, -, hfs, hfind⟩ := h.linked.findLeaf key
  have hstores := h.stores
  obtain ⟨⟨e, -, hleaf⟩, hroomy⟩ := h.regular.of_plug
  have hsorted := Subtree.sorted_of_plug_leaf h.sorted
  have hadd := Arena.addKey_spec hstores hsorted hleaf.length_keys_lt key
  rw [Subtree.insert_plug hfs, Subtree.insert_leaf, hstores.size_eq, Option.bind_assoc]
  refine ⟨(t.arena.addKey o id key).bind fun r => Arena.settle o r.1.size r.1 r.2, ?_, ?_⟩
  · rw [insert, insertRoot, hfind]
    simp only [bind, Except.bind, pure, Except.pure]
    cases t.arena.addKey o id key with
    | error f => rfl
    | ok r =>
      dsimp only
      cases Arena.settle o r.1.size r.1 r.2 <;> rfl
  · cases hg : Growth.ofLeaf o.size t.arena.size id (insertBehind key keys) next with
    | none =>
      rw [hg] at hadd
      rw [show t.arena.addKey o id key = _ from hadd]
      rfl
    | some g =>
      rw [hg] at hadd
      obtain ⟨b, p, hb, hshows⟩ := hadd
      rw [hb]
      refine Arena.settle_spec hshows hroomy ?_
      cases hshows with
      | settled stores => exact stores.length_lt
      | pending pends => exact pends.length_lt

/-- **Where insertion by recursion gives a tree, insertion gives one that stores it.** -/
theorem insert_ok {g : Growth K} {root' : Subtree K} (h : t.InOrder d root)
    (hg : root.insert o.size root.size key = some g) (hroot : g.close = some root') :
    ∃ t', t.insert key = .ok t' ∧ t'.InOrder (d + g.rise) root' ∧
      root'.keysIn = insertBehind key root.keysIn := by
  obtain ⟨r, hinsert, hstored⟩ := insert_stored h key
  rw [hg, Option.bind_some, hroot] at hstored
  obtain ⟨a, rfl, hstores⟩ := hstored
  have hkeys : root'.keysIn = insertBehind key root.keysIn := by
    rw [Growth.parts_close Subtree.keysIn_branch hroot, ← Growth.keysIn,
      h.regular.insert_keysIn h.sorted hg]
  obtain ⟨start, hchained⟩ := h.chained
  refine ⟨_, hinsert, ⟨hstores, rfl, (h.regular.insert_regular h.sorted hg).close hroot, ?_,
    ⟨start, ?_⟩, ?_⟩, hkeys⟩
  · rw [hkeys]
    exact sorted_insertBehind h.sorted key
  · rw [Growth.parts_close Subtree.leavesIn_branch hroot]
    exact h.regular.insert_chained h.sorted hg hchained
  · rw [hkeys, length_insertBehind, h.len_eq]

/-- **Where insertion by recursion gives no tree, insertion runs out of numbers.** -/
theorem insert_exhausted (h : t.InOrder d root)
    (hnone : (root.insert o.size root.size key).bind Growth.close = none) :
    t.insert key = .error .exhausted := by
  obtain ⟨r, hinsert, hstored⟩ := insert_stored h key
  rw [hnone] at hstored
  rw [hinsert, show r = .error .exhausted from hstored]
  rfl

/-- **An insertion that gives a tree has grown the stored one by recursion.** -/
theorem exists_growth (h : t.InOrder d root) {t' : Tree K o} (hins : t.insert key = .ok t') :
    ∃ g root', root.insert o.size root.size key = some g ∧ g.close = some root' ∧
      t'.InOrder (d + g.rise) root' := by
  cases hroot : (root.insert o.size root.size key).bind Growth.close with
  | some root' =>
    obtain ⟨g, hg, hclose⟩ := Option.bind_eq_some_iff.mp hroot
    obtain ⟨t'', ht'', hin, -⟩ := insert_ok h hg hclose
    obtain rfl := Except.ok.inj (hins.symm.trans ht'')
    exact ⟨g, root', hg, hclose, hin⟩
  | none => cases hins.symm.trans (insert_exhausted h hroot)

/-- Insertion keeps a tree in order, unless it has `2 ^ 31` keys or more and runs out of numbers. -/
theorem insert_spec (h : t.InOrder d root) (key : K) :
    (∃ t' d' root', t.insert key = .ok t' ∧ t'.InOrder d' root' ∧
      root'.keysIn = insertBehind key root.keysIn) ∨
    (t.insert key = .error .exhausted ∧ 2 ^ 31 ≤ root.keysIn.length) := by
  cases hroot : (root.insert o.size root.size key).bind Growth.close with
  | some root' =>
    obtain ⟨g, hg, hclose⟩ := Option.bind_eq_some_iff.mp hroot
    obtain ⟨t', ht', hin, hkeys⟩ := insert_ok h hg hclose
    exact .inl ⟨t', _, root', ht', hin, hkeys⟩
  | none =>
    refine .inr ⟨insert_exhausted h hroot, Nat.not_lt.mp fun hlt => ?_⟩
    have hsize : UInt32.size = 2 ^ 32 := rfl
    have hfits : root.Fits root.size := by unfold Subtree.Fits; omega
    obtain ⟨root', hroot'⟩ := h.regular.close_isSome h.sorted hfits key
    rw [hroot'] at hroot
    cases hroot

/-! ## Runs of insertions -/

omit [Std.TransOrd K] in
theorem ofKeys_append (keys more : List K) :
    (ofKeys (keys ++ more) : Except Fault (Tree K o)) = (ofKeys keys).bind (·.extend more) :=
  List.foldlM_append

omit [Std.TransOrd K] in
theorem extend_singleton (t : Tree K o) (key : K) : t.extend [key] = t.insert key := by
  rw [extend, List.foldlM_cons]
  simp only [List.foldlM_nil, bind_pure]

/-- **A run of insertions gives a tree in order whose keys are a stable sort of the inserted ones**,
unless there are more than `2 ^ 31` of them and it runs out of numbers. -/
theorem ofKeys_spec (keys : List K) :
    (∃ (t : Tree K o) (d : Nat) (root : Subtree K), ofKeys keys = .ok t ∧ t.InOrder d root ∧
      StableSort keys root.keysIn) ∨
    ((ofKeys keys : Except Fault (Tree K o)) = .error .exhausted ∧ 2 ^ 31 < keys.length) := by
  induction keys using List.reverseRecOn with
  | nil => exact .inl ⟨empty, 0, _, rfl, inOrder_empty, by rw [Subtree.keysIn_leaf]; exact stableSort_nil⟩
  | append_singleton keys key ih =>
    rw [ofKeys_append, List.length_append, List.length_singleton]
    rcases ih with ⟨t, d, root, ht, hin, hsort⟩ | ⟨hex, hlen⟩
    · rw [ht, Except.bind, extend_singleton]
      rcases insert_spec hin key with ⟨t', d', root', ht', hin', hkeys⟩ | ⟨hex, hlen⟩
      · exact .inl ⟨t', d', root', ht', hin', hkeys ▸ hsort.insertBehind key⟩
      · rw [hsort.perm.length_eq] at hlen
        exact .inr ⟨hex, by omega⟩
    · rw [hex]
      exact .inr ⟨rfl, by omega⟩

/-- There are numbers enough for the nodes of `2 ^ 31` keys. -/
theorem exists_ofKeys (keys : List K) (h : keys.length ≤ 2 ^ 31) :
    ∃ t : Tree K o, ofKeys keys = .ok t := by
  rcases ofKeys_spec (o := o) keys with ⟨t, -, -, ht, -⟩ | ⟨-, hmany⟩
  · exact ⟨t, ht⟩
  · exact absurd hmany (Nat.not_lt.mpr h)

/-- The tree that a run of insertions gives is in order, and its keys are a stable sort of the inserted
ones. -/
theorem inOrder_of_ofKeys {keys : List K} (h : ofKeys keys = .ok t) :
    ∃ d root, t.InOrder d root ∧ StableSort keys root.keysIn := by
  rcases ofKeys_spec (o := o) keys with ⟨t', d, root, ht', hin, hsort⟩ | ⟨hex, -⟩
  · rw [h] at ht'
    obtain rfl := Except.ok.inj ht'
    exact ⟨d, root, hin, hsort⟩
  · rw [h] at hex
    cases hex

/-- **Every reachable tree is in order.** -/
theorem Reachable.inOrder (h : t.Reachable) : ∃ d root, t.InOrder d root := by
  obtain ⟨keys, hkeys⟩ := h
  obtain ⟨d, root, hin, -⟩ := inOrder_of_ofKeys hkeys
  exact ⟨d, root, hin⟩

omit [Std.TransOrd K] in
/-- **What holds of the tree without keys, and is kept by each insertion, holds of all reachable trees.** -/
theorem Reachable.induction {P : Tree K o → Prop} (empty : P empty)
    (insert : ∀ (t : Tree K o) (key : K) (t' : Tree K o), P t → t.insert key = .ok t' → P t')
    (h : t.Reachable) : P t := by
  obtain ⟨keys, hkeys⟩ := h
  induction keys using List.reverseRecOn generalizing t with
  | nil => exact Except.ok.inj hkeys ▸ empty
  | append_singleton keys key ih =>
    rw [ofKeys_append] at hkeys
    obtain ⟨t', ht', hinsert⟩ := bind_eq_ok_iff.mp hkeys
    rw [extend_singleton] at hinsert
    exact insert t' key t (ih ht') hinsert

end TracedIndex.Tree
