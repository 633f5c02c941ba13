import TracedIndex.Proofs.Sorted
import TracedIndex.Tree.Insert

/-!
# Changes to the contents of a node

On sorted keys bisection counts the leading keys up to a key, so a leaf takes a new key behind them
and finds a key just before that place.

* `Leaf.keys_insert`, **`Leaf.holds_iff`**: what a leaf does with a key;
* `Leaf.split?_eq`: how the contents of a leaf are cut;
* `Branch.slotOf?_eq`, `Branch.adopt?_eq`: a sibling is entered behind the child that it was split from.
-/

namespace TracedIndex

variable {K : Type}

namespace Leaf

theorem split?_eq {l : Leaf K} {separator : K}
    (h : l.keys[(l.keys.length + 1) / 2]? = some separator) :
    l.split? = some (l.keys.take ((l.keys.length + 1) / 2), separator,
      l.keys.drop ((l.keys.length + 1) / 2)) := by
  obtain ⟨ks, hks⟩ : ∃ ks, l.keys.drop ((l.keys.length + 1) / 2) = separator :: ks := by
    rw [← List.head?_drop] at h
    exact List.head?_eq_some_iff.mp h
  simp only [split?, hks]

variable [Ord K] [Std.TransOrd K] {l : Leaf K}

theorem rank_eq (h : Sorted l.keys) (key : K) : l.rank key = rankOf key l.keys :=
  Bisect.cut_eq_length_takeWhile _ _ (h.falls key)

theorem keys_insert (h : Sorted l.keys) (key : K) :
    (l.insert key).keys = insertBehind key l.keys := by
  simp only [insert, rank_eq h, insertBehind]
  rw [insertIdx_eq_take_append (rankOf_le key l.keys), take_rankOf, drop_rankOf]

/-- **A key is found in a leaf if some key of the leaf compares as equal to it.** -/
theorem holds_iff (h : Sorted l.keys) (key : K) :
    l.holds key ↔ ∃ k ∈ l.keys, compare k key = .eq := by
  set front := l.keys.takeWhile fun k => (compare k key).isLE with hfront
  have hsplit : front ++ l.keys.dropWhile (fun k => (compare k key).isLE) = l.keys :=
    List.takeWhile_append_dropWhile
  have hbeyond : ∀ k ∈ l.keys, compare k key = .eq → k ∈ front := by
    intro k hk heq
    rw [← hsplit] at hk
    refine (List.mem_append.mp hk).resolve_right fun hd => h.not_isLE_of_mem_dropWhile hd ?_
    rw [heq]
    rfl
  have hle : ∀ k ∈ front, (compare k key).isLE := fun k hk => isLE_of_mem_takeWhile hk
  have hsorted : Sorted front := by rw [← hsplit] at h; exact (List.pairwise_append.mp h).1
  have hmem : ∀ k ∈ front, k ∈ l.keys := fun k hk => hsplit ▸ List.mem_append_left _ hk
  unfold holds
  rw [rank_eq h, rankOf, ← hfront]
  clear_value front
  -- what decides is the last key up to `key`
  cases front using List.reverseRecOn with
  | nil => simpa using hbeyond
  | append_singleton ks last =>
    have hlast : l.keys[ks.length]? = some last := by
      rw [← hsplit]
      simp
    rw [List.length_append, List.length_singleton]
    simp only [hlast, Option.any_some, beq_iff_eq]
    constructor
    · exact fun heq => ⟨last, hmem last (by simp), heq⟩
    · rintro ⟨k, hk, heq⟩
      rcases List.mem_append.mp (hbeyond k hk heq) with hk' | hk'
      · have hkl := (List.pairwise_append.mp hsorted).2.2 k hk' last (by simp)
        rw [Std.TransCmp.congr_left heq] at hkl
        exact Std.OrientedCmp.isLE_antisymm (hle last (by simp)) hkl
      · rwa [List.mem_singleton.mp hk'] at heq

end Leaf

namespace Branch

section

variable {keys : List K} {before after : List NodeId} {left right : NodeId} {parent : Option NodeId}

theorem slotOf?_eq (hnot : left ∉ before) :
    (⟨keys, before ++ left :: after, parent⟩ : Branch K).slotOf? left = some before.length := by
  have hnone : before.findIdx? (· == left) = none := by
    refine List.findIdx?_eq_none_iff.mpr fun x hx => ?_
    exact beq_eq_false_iff_ne.mpr fun e => hnot (e ▸ hx)
  simp [slotOf?, List.findIdx?_append, List.findIdx?_cons, hnone]

theorem adopt?_eq (separator : K) (hnot : left ∉ before)
    (hlen : before.length ≤ keys.length) :
    (⟨keys, before ++ left :: after, parent⟩ : Branch K).adopt? left separator right =
      some ⟨keys.take before.length ++ separator :: keys.drop before.length,
        before ++ left :: right :: after, parent⟩ := by
  have hchildren : (before ++ left :: after).insertIdx (before.length + 1) right =
      before ++ left :: right :: after := by
    rw [List.append_cons, insertIdx_eq_take_append (by simp), List.take_left' (by simp),
      List.drop_left' (by simp)]
    simp
  simp only [adopt?, slotOf?_eq hnot, if_pos hlen, hchildren, insertIdx_eq_take_append hlen]

end

end Branch

end TracedIndex
