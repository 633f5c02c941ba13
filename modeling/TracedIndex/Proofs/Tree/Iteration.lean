import TracedIndex.Proofs.Arena.Cursor
import TracedIndex.Proofs.Keys
import TracedIndex.Proofs.Tree.Reachable

/-!
# Iteration

An iteration starts in the first leaf and faces all keys of the tree, so it gives them in the order of
the leaves.

* `Yields`: what an iteration gives, call by call;
* `Linked.faces_leaf`: the keys in front of a leaf are its own and those of the leaves behind it;
* `Linked.yields`, `Linked.toList_eq`: a linked tree yields the keys of the tree that it stores;
* **`iterate_ofKeys`**: a tree yields a stable sort of the keys that were inserted, and one more key
  comes behind all keys up to it.
-/

namespace TracedIndex

namespace Tree

variable {K : Type} {o : Order} {t : Tree K o}

/-- Calls of `next` give the keys `ks` one after another, and then nothing for ever. -/
def Yields (t : Tree K o) (ks : List K) : Prop :=
  ∃ c, t.iterate = .ok c ∧
    ∀ n, ∃ c', c.nextTimes t.arena .always n = .ok ((List.range n).map fun i => ks[i]?, c')

variable {d : Nat} {root : Subtree K}

/-- In front of a leaf, a cursor faces the keys of this leaf and of those behind it. -/
theorem Linked.faces_leaf (h : t.Linked d root) {before after : List (Subtree K)} {l : Subtree K}
    (hsplit : root.leavesIn = before ++ l :: after) :
    (Cursor.within l.id 0).Faces t.arena (Subtree.keysOf (l :: after)) := by
  obtain ⟨hleaves, hchained, hlt⟩ := h.leaves_after hsplit
  exact .within hleaves hchained hlt

theorem Linked.faces (h : t.Linked d root) :
    ∃ c, t.iterate = .ok c ∧ c.Faces t.arena root.keysIn := by
  obtain ⟨w, l, ls, hw, -, hls, hstop⟩ := h.firstLeaf
  refine ⟨.within l.id 0, ?_, ?_⟩
  · rw [iterate, hw, ← hstop]
    rfl
  · rw [Subtree.keysIn, hls]
    exact h.faces_leaf (hls.trans (List.nil_append _).symm)

theorem Linked.yields (h : t.Linked d root) : t.Yields root.keysIn := by
  obtain ⟨c, hc, hfaces⟩ := h.faces
  refine ⟨c, hc, fun n => ?_⟩
  have hn := hfaces.nextTimes .always n
  rwa [Verdict.taken_always] at hn

/-- The keys of the tree, in the order of its leaves. -/
theorem Linked.toList_eq (h : t.Linked d root) : t.toList = .ok root.keysIn := by
  obtain ⟨c, hc, hfaces⟩ := h.faces
  obtain ⟨c', hc'⟩ := hfaces.rest h.stores.length_keysIn_le .always
  rw [Verdict.taken_always] at hc'
  rw [toList, hc]
  simp only [bind, Except.bind, hc']
  rfl

variable [Ord K]

theorem InOrder.yields (h : t.InOrder d root) : t.Yields root.keysIn := h.linked.yields

theorem InOrder.toList_eq (h : t.InOrder d root) : t.toList = .ok root.keysIn := h.linked.toList_eq

variable [Std.TransOrd K]

/-- **A tree yields a stable sort of the keys that were inserted into it**, by whatever insertions, and
one key more comes behind all keys up to it and before all others. There is such a tree for every list
of keys, but for lists of more than `2 ^ 31` keys, for which the numbers may give out. -/
theorem iterate_ofKeys (keys : List K) :
    (∃ (t : Tree K o) (ls : List K), ofKeys keys = .ok t ∧ t.len = keys.length ∧
      StableSort keys ls ∧ t.Yields ls ∧
      (∀ key, t.insert key = ofKeys (keys ++ [key])) ∧
      (∀ more, t.extend more = ofKeys (keys ++ more)) ∧
      ∀ key t', t.insert key = .ok t' → ∃ xs ys, ls = xs ++ ys ∧ t'.Yields (xs ++ key :: ys) ∧
        (∀ x ∈ xs, (compare x key).isLE) ∧ ∀ y ∈ ys, (compare y key).isGT) ∨
    ((ofKeys keys : Except Fault (Tree K o)) = .error .exhausted ∧ 2 ^ 31 < keys.length) := by
  refine (ofKeys_spec keys).imp_left ?_
  rintro ⟨t, d, root, ht, hin, hsort⟩
  have hextend : ∀ more, t.extend more = ofKeys (keys ++ more) := fun more => by
    rw [ofKeys_append, ht]
    rfl
  refine ⟨t, root.keysIn, ht, by rw [hin.len_eq, hsort.perm.length_eq], hsort, hin.yields,
    fun key => by rw [← extend_singleton, hextend], hextend, fun key t' ht' => ?_⟩
  rcases insert_spec hin key with ⟨t'', d', root', ht'', hin', hkeys⟩ | ⟨hex, -⟩
  · rw [ht'] at ht''
    obtain rfl := Except.ok.inj ht''
    refine ⟨_, _, List.takeWhile_append_dropWhile.symm, ?_, fun x => isLE_of_mem_takeWhile,
      fun y hy => ?_⟩
    · have := hin'.yields
      rwa [hkeys, insertBehind] at this
    · have := hsort.sorted.not_isLE_of_mem_dropWhile hy
      rwa [← Ordering.not_isLE_eq_isGT, Bool.not_eq_true', ← Bool.not_eq_true]
  · rw [ht'] at hex
    cases hex

/-- Labelled keys come out by their numbers, those of one number in the order in which they went in. -/
theorem iterate_labelled :
    ∃ t : Tree Labelled .standard,
      ofKeys [⟨1, "a"⟩, ⟨0, "b"⟩, ⟨1, "c"⟩, ⟨1, "d"⟩, ⟨0, "e"⟩] = .ok t ∧ t.len = 5 ∧
        t.Yields [⟨0, "b"⟩, ⟨0, "e"⟩, ⟨1, "a"⟩, ⟨1, "c"⟩, ⟨1, "d"⟩] := by
  rcases iterate_ofKeys (K := Labelled) (o := .standard)
    [⟨1, "a"⟩, ⟨0, "b"⟩, ⟨1, "c"⟩, ⟨1, "d"⟩, ⟨0, "e"⟩] with ⟨t, ls, ht, hlen, hsort, hyields, -⟩ | ⟨-, hlen⟩
  · have hone := ((((stableSort_nil (K := Labelled)).insertBehind ⟨1, "a"⟩).insertBehind
      ⟨0, "b"⟩).insertBehind ⟨1, "c"⟩).insertBehind ⟨1, "d"⟩ |>.insertBehind ⟨0, "e"⟩
    rw [hsort.eq_mergeSort.trans hone.eq_mergeSort.symm] at hyields
    exact ⟨t, ht, hlen, hyields⟩
  · simp at hlen

end Tree

end TracedIndex
