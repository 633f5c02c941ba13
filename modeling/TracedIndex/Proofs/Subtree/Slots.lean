import TracedIndex.Proofs.Subtree.Insertion

/-!
# Where separators are entered

When a child is cut, the separator goes into the branch above at the position of this child: no key is
looked at. But the separators of the branch and the new one, put in that place, are all keys of the leaves
below, in the same order. So the new one lies between its neighbours, and where no two keys compare as
equal, counting the separators up to it leads to the same place.

* `rankOf_of_sorted`: the place of a key among distinct ones;
* **`Regular.entered_sublist`**: the separators of a branch with a new one entered;
* `Regular.sorted_entered`, `Regular.slot_eq_rankOf`: the order of these, and the way by the keys.
-/

namespace TracedIndex

variable {K : Type} [Ord K]

/-- Among sorted keys of which no two compare as equal, each comes behind as many as are up to it. -/
theorem rankOf_of_sorted [Std.OrientedOrd K] {key : K} {ks ls : List K} (h : Sorted (ks ++ key :: ls))
    (hne : (ks ++ key :: ls).Pairwise fun x y => compare x y ≠ .eq) : rankOf key (ks ++ ls) = ks.length := by
  obtain ⟨-, hkey, hks⟩ := List.pairwise_append.mp h
  have hbeyond : ∀ l ∈ ls.head?, ¬ (compare l key).isLE := by
    intro l hl hle
    have hmem := List.mem_of_mem_head? hl
    refine List.rel_of_pairwise_cons (List.pairwise_append.mp hne).2.1 hmem ?_
    exact Std.OrientedCmp.isLE_antisymm (List.rel_of_pairwise_cons hkey hmem) hle
  rw [rankOf, (span_append_left (p := fun k => (compare k key).isLE) ks hbeyond).1,
    List.takeWhile_eq_self_iff.mpr fun k hk => hks k hk key List.mem_cons_self]

namespace Subtree.Regular

variable [Std.TransOrd K] {o : Order} {d fresh n : Nat} {key separator : K} {f : Frame K}
  {c left right : Subtree K}

/-- **The separators of a branch with a new one entered are among the keys below, in the same order.** -/
theorem entered_sublist (h : (f.fill c).Regular o (d + 1)) (hs : Sorted (f.fill c).keysIn)
    (hf : f.Follows (rankOf key))
    (hc : c.insert o.size fresh key = some (.halves left separator right n)) :
    (f.keys.take f.slot ++ separator :: f.keys.drop f.slot).Sublist
      (insertBehind key (f.fill c).keysIn) := by
  have hb := h.bounds hs hf
  have hcs : Sorted c.keysIn := by
    rw [Frame.keysIn_fill] at hs
    exact (List.pairwise_append.mp (List.pairwise_append.mp hs).1).2.1
  have hkeys : left.keysIn ++ right.keysIn = insertBehind key c.keysIn := by
    rw [← h.of_fill.1.insert_keysIn hcs hc]
    simp [Growth.keysIn, Growth.parts]
  cases h.of_fill.1.insert_regular hcs hc with
  | halves hleft hlf hright hrf hsep =>
    have hfirst : f.before ≠ [] → left.first? = c.first? := by
      intro hne
      obtain ⟨k, hk, hle⟩ := hb.first hne
      rw [hk, ← head?_insertBehind hk hle, ← hkeys,
        List.head?_append_of_ne_nil _ (hleft.keysIn_ne_nil hlf), first?]
    have hentered : (f.before ++ left :: right :: f.after).flatMap keysIn =
        insertBehind key (f.fill c).keysIn := by
      rw [Frame.keysIn_fill, insertBehind_append hb.before hb.after, ← hkeys]
      simp
    cases h with
    | branch _ _ hseps _ _ =>
      exact hentered ▸ sublist_of_first? (Frame.separators_entered hseps hfirst hsep)

/-- **A separator is entered between those up to it and those from it on.** -/
theorem sorted_entered (h : (f.fill c).Regular o (d + 1)) (hs : Sorted (f.fill c).keysIn)
    (hf : f.Follows (rankOf key))
    (hc : c.insert o.size fresh key = some (.halves left separator right n)) :
    Sorted (f.keys.take f.slot ++ separator :: f.keys.drop f.slot) :=
  (sorted_insertBehind hs key).sublist (h.entered_sublist hs hf hc)

/-- **Where no two keys compare as equal, as many separators are up to the new one as stand before the
child that was cut.** -/
theorem slot_eq_rankOf (h : (f.fill c).Regular o (d + 1)) (hs : Sorted (f.fill c).keysIn)
    (hf : f.Follows (rankOf key))
    (hc : c.insert o.size fresh key = some (.halves left separator right n))
    (hne : (insertBehind key (f.fill c).keysIn).Pairwise fun x y => compare x y ≠ .eq) :
    f.slot = rankOf separator f.keys := by
  have hslot : f.slot ≤ f.keys.length := hf ▸ rankOf_le key f.keys
  have hrank := rankOf_of_sorted (h.sorted_entered hs hf hc) (hne.sublist (h.entered_sublist hs hf hc))
  rw [List.take_append_drop, List.length_take_of_le hslot] at hrank
  exact hrank.symm

end Subtree.Regular

end TracedIndex
