import TracedIndex.Proofs.Arena.Distinct
import TracedIndex.Proofs.Arena.Visit
import TracedIndex.Proofs.Tree.Lawful

/-!
# The laws hold

A check passes for the lawful trees, and for no others. That it passes for them is a matter of reading
the stored tree; that it passes for no others is not, since a visit does not notice that it comes to a
node again. But then it comes to a leaf again, which the chain of the leaves shows.

* `Arena.mem_ids`, `Arena.nodup_ids`: the numbers of an arena;
* `Linked.roots_eq`: the root is the only one;
* `Lawful.check_eq_ok`, `exists_lawful_of_check`, **`check_eq_ok_iff`**: when a check passes;
* **`check_of_reachable`**: every reachable tree keeps all laws.
-/

namespace TracedIndex

variable {K : Type}

namespace Arena

variable {a : Arena K}

theorem mem_ids {id : NodeId} : id ∈ a.ids ↔ id.index < a.size := by
  simp [ids, List.mem_filterMap, Growth.ofNat?_eq_some]

theorem nodup_ids : a.ids.Nodup := by
  refine List.Nodup.filterMap (fun m n id hm hn => ?_) List.nodup_range
  rw [← Growth.ofNat?_eq_some.mp hm, Growth.ofNat?_eq_some.mp hn]

end Arena

namespace Tree

open Arena (lookup require)

section

variable {o : Order} {t : Tree K o} {d : Nat} {root : Subtree K}

theorem Linked.roots_eq (h : t.Linked d root) :
    t.arena.ids.filterM (fun id => return (← lookup (t.arena.node id)).parent.isNone) =
      .ok [t.root] := by
  have hroot : t.root.index < t.arena.size := by
    rw [h.root_eq]
    exact h.stores.covers.lt_of_mem root.id_mem_ids
  have hone : t.arena.ids.filter (· == t.root) = [t.root] := by
    rw [List.filter_beq, List.count_eq_one_of_mem Arena.nodup_ids (Arena.mem_ids.mpr hroot)]
    rfl
  rw [← hone]
  refine filterM_eq fun id hid => ?_
  obtain ⟨n, hn, hparent⟩ := h.parent_isNone (Arena.mem_ids.mp hid)
  rw [hn, ← hparent]
  rfl

/-- The chain from the first leaf runs through all leaves. -/
theorem Linked.chain_first_eq (h : t.Linked d root) :
    ∃ first rest w, root.leavesIn.map Subtree.id = first :: rest ∧
      t.arena.chain (first :: rest).length first = .ok w ∧ w.path = first :: rest := by
  obtain ⟨-, l, ls, -, -, hls, -⟩ := h.firstLeaf
  obtain ⟨w, hw, hpath⟩ := h.chain_eq (hls.trans (List.nil_append _).symm) (Nat.lt_succ_self ls.length)
  exact ⟨l.id, ls.map Subtree.id, w, by rw [hls, List.map_cons], by simpa using hw, hpath⟩

end

variable [Ord K] {o : Order} {t : Tree K o} {d : Nat} {root : Subtree K}

theorem Lawful.isLeaf_or_lt (h : t.Lawful d root) :
    ∃ n, t.arena.node t.root = .ok n ∧ (!n.isLeaf || decide (t.len < o.size)) := by
  rw [h.root_eq, h.len_eq]
  cases h.stores.holds with
  | leaf node =>
    refine ⟨_, node, ?_⟩
    cases h.bounded with
    | leaf orderly =>
      rw [Subtree.keysIn_leaf]
      exact (Bool.or_eq_true _ _).mpr (.inr (decide_eq_true orderly.length_lt))
  | branch node _ => exact ⟨_, node, rfl⟩

/-- A check of a lawful tree finds nothing. -/
theorem Lawful.check_eq_ok [Std.TransOrd K] (h : t.Lawful d root) : t.check = .ok () := by
  obtain ⟨first, rest, w, hleaves, hw, hpath⟩ := h.chain_first_eq
  obtain ⟨n, hn, hfull⟩ := h.isLeaf_or_lt
  have hrootOf : (t.arena.ids.forM fun id => do
      require ((← lookup (t.arena.rootOf id)) == t.root) (.detached id)) = .ok () := by
    refine forM_eq fun id hid => ?_
    rw [h.rootOf_eq (Arena.mem_ids.mp hid), Arena.lookup_ok, ok_bind, beq_self_eq_true,
      Arena.require_true]
  have hvisit : t.arena.visit o d t.root none none =
      .ok ⟨first :: rest, root.keysIn.length, root.size⟩ := by
    refine (Arena.visit_eq_ok_iff _ _ _ _ _ _ _).mpr
      ⟨none, root, h.stores.holds, h.root_eq.symm, h.bounded, ?_⟩
    rw [Subtree.census, hleaves]
  rw [h.len_eq] at hfull
  rw [check, h.roots_eq]
  simp only [ok_bind, beq_self_eq_true, Arena.require_true, hrootOf, hn, Arena.lookup_ok, hfull,
    h.height_eq, Nat.add_sub_cancel, hvisit, nodeCount, h.stores.size_eq, h.len_eq, hw, pure_bind,
    hpath]

/-- **A check that finds nothing has gone over a lawful tree**, whatever the arena: the visit gives the
tree, and the chain of its leaves shows that none of its nodes stands in two places. -/
theorem exists_lawful_of_check [Std.TransOrd K] (h : t.check = .ok ()) :
    ∃ d root, t.Lawful d root := by
  simp only [check, bind, bind_eq_ok_iff, Arena.lookup_eq_ok_iff, Arena.require_eq_ok_iff,
    beq_iff_eq] at h
  obtain ⟨roots, hroots, -, rfl, -, -, -, -, -, -, height, -, c, hc, -, hnodes, -, hkeys, hchain⟩ := h
  obtain ⟨p, root, hholds, hid, hbounded, rfl⟩ := (Arena.visit_eq_ok_iff _ _ _ _ _ _ _).mp hc
  have hbal := hbounded.balanced
  -- the root has no parent
  have hp : p = none := by
    have hkept := eq_ok_of_mem_filterM hroots List.mem_cons_self
    simp only [bind_eq_ok_iff, Arena.lookup_eq_ok_iff] at hkept
    obtain ⟨n, hn, hparent⟩ := hkept
    obtain ⟨m, hm, hmp, -⟩ := hholds.root
    rw [hid, hn] at hm
    obtain rfl := Except.ok.inj hm
    rw [← hmp]
    exact Option.isNone_iff_eq_none.mp (Except.ok.inj hparent)
  subst hp
  obtain ⟨l, ls, hls⟩ := List.exists_cons_of_ne_nil hbal.leavesIn_ne_nil
  have hchained : Subtree.Chained (some l.id) root.leavesIn none := by
    simp only [Subtree.census, hls, List.map_cons, bind_eq_ok_iff, Arena.lookup_eq_ok_iff,
      Arena.require_eq_ok_iff, beq_iff_eq] at hchain
    obtain ⟨w, hw, _, hpath, heq⟩ := hchain
    refine Arena.chained_of_chain (fun m hm => hholds.leaf_of_mem hm) hw ?_
    rw [Except.ok.inj hpath, heq, hls, List.map_cons]
  refine ⟨height - 1, root, ⟨Arena.stores_of_chained hholds hbal hnodes hchained, hid.symm, hbal,
    ⟨_, hchained⟩⟩, hbounded, hkeys.symm⟩

/-- **A check finds nothing in the lawful trees, and in no others.** -/
theorem check_eq_ok_iff [Std.TransOrd K] : t.check = .ok () ↔ ∃ d root, t.Lawful d root :=
  ⟨exists_lawful_of_check, fun ⟨_, _, h⟩ => h.check_eq_ok⟩

/-- **Every reachable tree keeps all laws**: a check of it finds nothing, which is to say that it stores a tree
whose nodes are all the nodes of the arena, each with its own parent, whose leaves are all on the level of the
height and linked from left to right, whose nodes hold fewer keys than the order, in order and between their
separators, and whose leaves have as many keys as the length says. Each node is below the root, and the root is the
only one without a parent. -/
theorem check_of_reachable [Std.TransOrd K] (h : t.Reachable) : t.check = .ok () ∧
    ∃ d root, t.Lawful d root ∧ t.height = .ok (d + 1) ∧
      ∀ id : NodeId, id.index < t.nodeCount → t.arena.rootOf id = .ok t.root ∧
        ∃ n, t.arena.node id = .ok n ∧ n.parent.isNone = (id == t.root) := by
  obtain ⟨d, root, hin⟩ := h.inOrder
  have hlawful := hin.lawful
  exact ⟨hlawful.check_eq_ok, d, root, hlawful, hlawful.height_eq, fun id hid =>
    ⟨hlawful.rootOf_eq hid, hlawful.parent_isNone hid⟩⟩

/-- A tree of two leaves below a root, with equal keys on both sides of a separator. -/
theorem check_two_leaves : ∃ (t : Tree Nat .standard) (d : Nat) (root : Subtree Nat),
    ofKeys [2, 1, 2, 2] = .ok t ∧ t.nodeCount = 3 ∧ t.check = .ok () ∧ t.Lawful d root := by
  have ht : ofKeys [2, 1, 2, 2] = .ok (⟨⟨#[
      .leaf ⟨[1, 2], some ⟨1, by decide⟩, some ⟨2, by decide⟩⟩,
      .leaf ⟨[2, 2], none, some ⟨2, by decide⟩⟩,
      .branch ⟨[2], [⟨0, by decide⟩, ⟨1, by decide⟩], none⟩]⟩, ⟨2, by decide⟩, 4⟩ :
      Tree Nat .standard) := by cbv
  obtain ⟨hcheck, d, root, hlawful, -⟩ := check_of_reachable ⟨_, ht⟩
  exact ⟨_, d, root, ht, rfl, hcheck, hlawful⟩

end Tree

end TracedIndex
