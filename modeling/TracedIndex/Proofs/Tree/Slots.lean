import Mathlib.Data.List.Permutation
import TracedIndex.Proofs.Arena.Rounds
import TracedIndex.Proofs.Subtree.Slots
import TracedIndex.Proofs.Tree.Reachable

/-!
# Slots of pending splits

In each round of the way up, a split is entered into the branch above it behind the child that was cut,
which is found by its number. A descent would look for the place by the separator instead.

* `InOrder.pending`: what is left of the tree in the middle of an insertion;
* `InOrder.slot`: the place of a split by the child that was cut, and by the separator;
* **`slots_of_ofKeys`**: the same for a tree that arises from insertions.
-/

namespace TracedIndex.Tree

variable {K : Type} [Ord K] [Std.TransOrd K] {o : Order} {t : Tree K o} {d : Nat} {root : Subtree K}
  {key : K} {w : Walk} {a b : Arena K} {s r : Split K} {n : Nat} {m : Node K} {parent : NodeId}

/-- **Between two rounds, the split that is left has come from an insertion into one child** of the branch
that it will be entered into. -/
theorem InOrder.pending (h : t.InOrder d root) (hw : t.findLeaf key = .ok w)
    (hadd : t.arena.addKey o w.stop key = .ok (a, .pending s)) (hrounds : Arena.Rounds o a s n b r)
    (hm : b.node r.left = .ok m) (hparent : m.parent = some parent) :
    ∃ (f : Frame K) (rest : Trail K) (c left right : Subtree K) (e : Nat), f.id = parent ∧
      b.Pends (f :: rest) left right ∧ r.left = left.id ∧ r.right = right.id ∧
      (f.fill c).Regular o (e + 1) ∧ (f.fill c).keysIn.Sublist root.keysIn ∧ f.Follows (rankOf key) ∧
      c.insert o.size t.arena.size key = some (.halves left r.separator right b.size) := by
  obtain ⟨fs, id, keys, next, rfl, -, hfs, hfind⟩ := h.linked.findLeaf key
  obtain rfl := Except.ok.inj (hw.symm.trans hfind)
  obtain ⟨⟨e, -, hleaf⟩, hroomy⟩ := h.regular.of_plug
  have hsorted := Subtree.sorted_of_plug_leaf h.sorted
  obtain ⟨g, hg, hshows⟩ := (Arena.addKey_spec h.stores hsorted hleaf.length_keys_lt key).shows hadd
  cases hshows with
  | @pending left right separator pends =>
    obtain ⟨used, rest, left', right', separator', rfl, rfl, rfl, hb, hused⟩ := hrounds.pends pends hroomy
    obtain ⟨m', hm', hp, -⟩ := hb.holds_left.root
    obtain rfl := Except.ok.inj (hm.symm.trans hm')
    rw [hp] at hparent
    cases rest with
    | nil => cases hparent
    | cons f rest =>
      set c := Trail.plug used (.leaf id keys next) with hc
      have hplug : Trail.plug (used ++ f :: rest) (.leaf id keys next) = Trail.plug rest (f.fill c) := by
        rw [Trail.plug_append, Trail.plug_cons]
      have hregular := h.regular
      rw [hplug] at hregular ⊢
      obtain ⟨⟨e', -, hfill⟩, -⟩ := hregular.of_plug
      obtain ⟨e, rfl⟩ : ∃ e, e' = e + 1 := by
        cases hfill with
        | @branch e => exact ⟨e, rfl⟩
      refine ⟨f, rest, c, left', right', e, Option.some.inj hparent, hb, rfl, rfl, hfill,
        Trail.keysIn_sublist rest _, hfs f (by simp), ?_⟩
      rw [hc, Subtree.insert_plug (fun f hf => hfs f (List.mem_append_left _ hf)), Subtree.insert_leaf, hg,
        Option.bind_some, hused]

/-- **The place of a split by the child that was cut lies between the separators up to the new one and
those from it on**, and where no two keys compare as equal, the new one leads to it. -/
theorem InOrder.slot (h : t.InOrder d root) (hw : t.findLeaf key = .ok w)
    (hadd : t.arena.addKey o w.stop key = .ok (a, .pending s)) (hrounds : Arena.Rounds o a s n b r)
    (hm : b.node r.left = .ok m) (hparent : m.parent = some parent) :
    ∃ (branch branch' : Branch K) (p : Nat) (c : Arena K), b.branch parent = .ok branch ∧
      branch.slotOf? r.left = some p ∧ b.enter parent r = .ok (c, branch') ∧
      branch'.keys = branch.keys.take p ++ r.separator :: branch.keys.drop p ∧ Sorted branch'.keys ∧
      (((key :: root.keysIn).Pairwise fun x y => compare x y ≠ .eq) → p = branch.route r.separator) := by
  obtain ⟨f, rest, c, left, right, e, rfl, hb, hleft, hright, hreg, hsub, hf, hinsert⟩ :=
    h.pending hw hadd hrounds hm hparent
  obtain ⟨rl, separator, rr⟩ := r
  obtain rfl : rl = left.id := hleft
  obtain rfl : rr = right.id := hright
  have hs := h.sorted.sublist hsub
  have hslot : f.slot ≤ f.keys.length := hf ▸ rankOf_le key f.keys
  obtain ⟨c', hc', -, -⟩ := Arena.enter_spec separator hb hslot
  refine ⟨_, _, f.slot, c', Arena.branch_eq_ok_iff.mpr hb.trail.1.node, ?_, hc', rfl,
    hreg.sorted_entered hs hf hinsert, fun hne => hreg.slot_eq_rankOf hs hf hinsert ?_⟩
  · rw [Branch.slotOf?_eq hb.not_mem_before, List.length_map, Frame.slot]
  · refine ((insertBehind_perm key _).pairwise_iff fun {x y} hxy hyx => ?_).mpr
      (hne.sublist (hsub.cons_cons key))
    exact hxy (Std.OrientedCmp.eq_symm hyx)

/-- **In every round of the way up, the separator is entered in its place among the separators**, though the
place is found by the number of the child that was cut: the separators before it are up to the new one, and
those behind it are not below it. Where no two of the keys inserted so far compare as equal, it is the place
that a descent by the separator would find. -/
theorem slots_of_ofKeys {keys : List K} (h : ofKeys keys = .ok t) (hw : t.findLeaf key = .ok w)
    (hadd : t.arena.addKey o w.stop key = .ok (a, .pending s)) (hrounds : Arena.Rounds o a s n b r)
    (hm : b.node r.left = .ok m) (hparent : m.parent = some parent) :
    ∃ (branch branch' : Branch K) (p : Nat) (c : Arena K), b.branch parent = .ok branch ∧
      branch.slotOf? r.left = some p ∧
      (∀ k ∈ branch.keys.take p, (compare k r.separator).isLE) ∧
      (∀ k ∈ branch.keys.drop p, (compare r.separator k).isLE) ∧
      b.enter parent r = .ok (c, branch') ∧
      branch'.keys = branch.keys.take p ++ r.separator :: branch.keys.drop p ∧ Sorted branch'.keys ∧
      (((keys ++ [key]).Pairwise fun x y => compare x y ≠ .eq) → p = branch.route r.separator) := by
  obtain ⟨d, root, hin, hsort⟩ := inOrder_of_ofKeys h
  obtain ⟨branch, branch', p, c, hbranch, hp, hc, hkeys, hsorted, hroute⟩ :=
    hin.slot hw hadd hrounds hm hparent
  have hsandwich := hsorted
  rw [hkeys] at hsandwich
  obtain ⟨-, hbehind, hbefore⟩ := List.pairwise_append.mp hsandwich
  refine ⟨branch, branch', p, c, hbranch, hp, fun k hk => hbefore k hk _ List.mem_cons_self,
    fun k hk => List.rel_of_pairwise_cons hbehind hk, hc, hkeys, hsorted, fun hne => hroute ?_⟩
  have hperm : (keys ++ [key]).Perm (key :: root.keysIn) :=
    (List.perm_append_singleton key keys).trans (hsort.perm.symm.cons key)
  exact (hperm.pairwise_iff fun {x y} hxy hyx => hxy (Std.OrientedCmp.eq_symm hyx)).mp hne

/-- A separator that equals the one behind the child that was cut is entered before that one, where the way
by the keys leads behind it. -/
example : ∃ (t : Tree Nat .standard) (a : Arena Nat) (s : Split Nat) (branch : Branch Nat),
    ofKeys [3, 5, 5] = .ok t ∧ t.arena.addKey .standard ⟨0, by decide⟩ 4 = .ok (a, .pending s) ∧
      s.separator = 5 ∧ a.branch t.root = .ok branch ∧ branch.keys = [5] ∧
      branch.slotOf? s.left = some 0 ∧ branch.route s.separator = 1 :=
  ⟨_, _, _, _, by cbv, by cbv, rfl, rfl, rfl, rfl, rfl⟩

/-- Three levels, and a key that splits the last leaf and the branch above it: the second round enters the
separator 9 into the root, behind the 5. -/
theorem slots_of_two_rounds : ∃ (t : Tree Nat .standard) (w : Walk) (a b c : Arena Nat) (s r : Split Nat)
    (branch branch' : Branch Nat), ofKeys [1, 2, 3, 4, 5, 6, 7, 8, 9, 10] = .ok t ∧
      t.findLeaf 11 = .ok w ∧ t.arena.addKey .standard w.stop 11 = .ok (a, .pending s) ∧
      a.climb .standard s = .ok (b, .pending r) ∧ b.branch t.root = .ok branch ∧ branch.keys = [5] ∧
      branch.slotOf? r.left = some (branch.route r.separator) ∧ b.enter t.root r = .ok (c, branch') ∧
      branch'.keys = [5, 9] := by
  obtain ⟨t, w, a, b, s, r, m, ids, ht, hw, hadd, hclimb, hm, hparent, hroot, hsep⟩ :
      ∃ (t : Tree Nat .standard) (w : Walk) (a b : Arena Nat) (s r : Split Nat) (m : Node Nat)
        (ids : List NodeId), ofKeys [1, 2, 3, 4, 5, 6, 7, 8, 9, 10] = .ok t ∧ t.findLeaf 11 = .ok w ∧
          t.arena.addKey .standard w.stop 11 = .ok (a, .pending s) ∧
          a.climb .standard s = .ok (b, .pending r) ∧ b.node r.left = .ok m ∧ m.parent = some t.root ∧
          b.branch t.root = .ok ⟨[5], ids, none⟩ ∧ r.separator = 9 :=
    ⟨_, _, _, _, _, _, _, _, by cbv, by cbv, by cbv, by cbv, rfl, rfl, rfl, rfl⟩
  obtain ⟨branch, branch', p, c, hbranch, hp, -, -, hc, hkeys, -, hroute⟩ :=
    slots_of_ofKeys ht hw hadd (.round .start hclimb) hm hparent
  obtain rfl := hroute (by decide)
  obtain rfl := Except.ok.inj (hroot.symm.trans hbranch)
  exact ⟨t, w, a, b, c, s, r, _, branch', ht, hw, hadd, hclimb, hbranch, rfl, hp, hc,
    by rw [hkeys, hsep]; rfl⟩

end TracedIndex.Tree
