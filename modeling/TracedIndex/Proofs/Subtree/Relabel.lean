import TracedIndex.Proofs.Arena.Map
import TracedIndex.Proofs.Subtree.Insertion

/-!
# Other keys in the same subtree

An insertion compares the new key with the keys that are there, and these not with each other. So it goes
the same way among other keys, if only each of them is up to the other new key where the old one is up to the
old new key. Where the new key is not below any other, keys that cannot be told apart will do.

* `insertBehind_map`, `Growth.ofLeaf_map`, `Growth.ofBranch_map`, `Frame.grow_map`: the steps;
* **`Regular.insert_map`**: insertion among other keys;
* `Growth.close_map`, `size_map`: what a whole tree needs besides.
-/

namespace TracedIndex

variable {K L : Type}

/-! ## Steps -/

section

variable [Ord K] [Ord L] {f : K → L} {key : K} {keys : List K}
  (hf : ∀ k ∈ keys, (compare (f k) (f key)).isLE = (compare k key).isLE)

include hf

theorem rankOf_map : rankOf (f key) (keys.map f) = rankOf key keys := by
  induction keys with
  | nil => rfl
  | cons k keys ih =>
    obtain ⟨hk, hkeys⟩ := List.forall_mem_cons.mp hf
    have ih := ih hkeys
    simp only [rankOf, List.map_cons, List.takeWhile_cons, hk] at ih ⊢
    split
    · rw [List.length_cons, List.length_cons, ih]
    · rfl

theorem insertBehind_map : insertBehind (f key) (keys.map f) = (insertBehind key keys).map f := by
  simp only [insertBehind]
  rw [← take_rankOf, ← drop_rankOf, ← take_rankOf, ← drop_rankOf, rankOf_map hf, List.map_append,
    List.map_cons, List.map_take, List.map_drop]

end

namespace Growth

variable (f : K → L) {order fresh : Nat} {id : NodeId}

def map : Growth K → Growth L
  | .whole s => .whole (s.map f)
  | .halves left separator right fresh => .halves (left.map f) (f separator) (right.map f) fresh

theorem ofLeaf_map (keys : List K) (next : Option NodeId) :
    ofLeaf order fresh id (keys.map f) next = (ofLeaf order fresh id keys next).map (map f) := by
  simp only [ofLeaf, List.length_map, List.getElem?_map]
  split
  · rfl
  · cases NodeId.ofNat? fresh with
    | none => rfl
    | some right =>
      cases keys[(order + 1) / 2]? with
      | none => rfl
      | some separator => simp [map, Subtree.map]

theorem ofBranch_map (keys : List K) (children : List (Subtree K)) :
    ofBranch order fresh id (keys.map f) (children.map (Subtree.map f)) =
      (ofBranch order fresh id keys children).map (map f) := by
  simp only [ofBranch, List.length_map, List.getElem?_map]
  split
  · simp [map, Subtree.map, Subtree.mapList_eq]
  · cases NodeId.ofNat? fresh with
    | none => rfl
    | some right =>
      cases keys[order / 2]? with
      | none => rfl
      | some separator => simp [map, Subtree.map, Subtree.mapList_eq]

theorem close_map (g : Growth K) : (g.map f).close = g.close.map (Subtree.map f) := by
  cases g with
  | whole s => rfl
  | halves left separator right fresh =>
    simp only [map, close]
    cases NodeId.ofNat? fresh <;> rfl

end Growth

namespace Frame

variable (f : K → L) (fr : Frame K)

def map : Frame L := ⟨fr.id, fr.keys.map f, fr.before.map (Subtree.map f), fr.after.map (Subtree.map f)⟩

theorem fill_map (s : Subtree K) : (fr.map f).fill (s.map f) = (fr.fill s).map f := by
  simp [fill, map, Subtree.map, Subtree.mapList_eq]

theorem grow_map {order : Nat} (g : Growth K) :
    (fr.map f).grow order (g.map f) = (fr.grow order g).map (Growth.map f) := by
  cases g with
  | whole s => simp [grow, Growth.map, fill_map]
  | halves left separator right fresh =>
    have hslot : (fr.map f).slot = fr.slot := by simp [slot, map]
    simp only [grow, Growth.map, hslot]
    simp only [map, ← List.map_take, ← List.map_drop, ← List.map_cons, ← List.map_append,
      Growth.ofBranch_map]

end Frame

/-! ## Insertion -/

namespace Subtree

theorem size_map (f : K → L) (s : Subtree K) : (s.map f).size = s.size := by
  induction s using induction with
  | leaf => rfl
  | branch id keys children ih =>
    rw [map, mapList_eq, size_branch, size_branch, List.map_map]
    exact congrArg (List.sum · + 1) (List.map_congr_left ih)

/-- **Among other keys that the new one is compared with alike, an insertion goes the same way.** -/
theorem Regular.insert_map [Ord K] [Ord L] {o : Order} {d fresh : Nat} {key : K} {s : Subtree K} {f : K → L}
    (h : s.Regular o d) (hs : Sorted s.keysIn)
    (hf : ∀ k ∈ s.keysIn, (compare (f k) (f key)).isLE = (compare k key).isLE) :
    (s.map f).insert o.size fresh (f key) = (s.insert o.size fresh key).map (Growth.map f) := by
  refine descent_induction key (P := fun _ s =>
    (∀ k ∈ s.keysIn, (compare (f k) (f key)).isLE = (compare k key).isLE) →
    (s.map f).insert o.size fresh (f key) = (s.insert o.size fresh key).map (Growth.map f)) ?_ ?_ h hs hf
  · intro id keys next _ _ hf
    rw [keysIn_leaf] at hf
    rw [Subtree.map, insert_leaf, insert_leaf, insertBehind_map hf, Growth.ofLeaf_map]
  · intro d fr c hreg _ hfr _ ih hf
    have hkeys : ∀ k ∈ fr.keys, (compare (f k) (f key)).isLE = (compare k key).isLE :=
      fun k hk => hf k (hreg.keys_sublist.subset hk)
    have hfr' : (fr.map f).Follows (rankOf (f key)) := by
      rw [Frame.Follows, Frame.map, rankOf_map hkeys, ← hfr, Frame.slot, Frame.slot, List.length_map]
    rw [← Frame.fill_map, insert_fill hfr', insert_fill hfr,
      ih fun k hk => hf k (by simp [Frame.keysIn_fill, hk])]
    cases c.insert o.size fresh key with
    | none => rfl
    | some g => exact fr.grow_map f g

end Subtree

end TracedIndex
