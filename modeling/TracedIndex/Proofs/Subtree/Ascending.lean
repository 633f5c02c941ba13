import TracedIndex.Proofs.Subtree.Insertion

/-!
# Insertion at the right end

A key that is not below any other goes to the rightmost leaf, and whatever is cut is cut on the way up from
there. What is cut off to the left is never touched again, and holds just what the left half of a cut holds:
it is **packed**. A subtree is **tight** if all of it is packed but its nodes furthest to the right.

* `Packed`, `Tight`; `Growth.Tight`: the same for what has become of a subtree;
* **`Regular.insert_tight`**: a key at the right end keeps a subtree tight;
* `level`: the nodes on one level; `Regular.level_eq`: those on the last level are the leaves;
* **`Tight.of_mem_dropLast_level`**: on each level of a tight subtree, all nodes but the last are packed;
* `keys_of_equal_lengths`: what is in a leaf when all leaves before it hold as many keys.
-/

namespace TracedIndex

variable {K : Type} {o : Order}

namespace Subtree

/-- A subtree each node of which holds as much as the left half of a cut. -/
inductive Packed (o : Order) : Subtree K → Prop
  | leaf {id : NodeId} {keys : List K} {next : Option NodeId} (length_eq : keys.length = (o.size + 1) / 2) :
    Packed o (.leaf id keys next)
  | branch {id : NodeId} {keys : List K} {children : List (Subtree K)} (length_eq : keys.length = o.size / 2)
    (packed : ∀ c ∈ children, Packed o c) : Packed o (.branch id keys children)

/-- A subtree in which all children but the last ones are packed. -/
inductive Tight (o : Order) : Subtree K → Prop
  | leaf {id : NodeId} {keys : List K} {next : Option NodeId} : Tight o (.leaf id keys next)
  | branch {id : NodeId} {keys : List K} {before : List (Subtree K)} {last : Subtree K}
    (packed : ∀ c ∈ before, c.Packed o) (tight : Tight o last) : Tight o (.branch id keys (before ++ [last]))

end Subtree

/-- What has become of a tight subtree: where it is in two halves, the left one is packed. -/
inductive Growth.Tight (o : Order) : Growth K → Prop
  | whole {s : Subtree K} (tight : s.Tight o) : Tight o (.whole s)
  | halves {left right : Subtree K} {separator : K} {fresh : Nat} (packed : left.Packed o)
    (tight : right.Tight o) : Tight o (.halves left separator right fresh)

namespace Growth

variable {fresh : Nat} {id : NodeId} {keys : List K} {g : Growth K}

theorem tight_ofLeaf {next : Option NodeId} (h : ofLeaf o.size fresh id keys next = some g) :
    g.Tight o := by
  have := o.three_le_size
  rcases ofLeaf_cases h with ⟨-, rfl⟩ | ⟨hge, right, separator, -, -, rfl⟩
  · exact .whole .leaf
  · exact .halves (.leaf (List.length_take_of_le (by omega))) .leaf

/-- Where a branch is cut, its last child goes to the right. -/
theorem tight_ofBranch {before : List (Subtree K)} {last : Subtree K} (hlen : keys.length ≤ o.size)
    (hchildren : before.length = keys.length) (hpacked : ∀ c ∈ before, c.Packed o) (hlast : last.Tight o)
    (h : ofBranch o.size fresh id keys (before ++ [last]) = some g) : g.Tight o := by
  have := o.three_le_size
  rcases ofBranch_cases h with ⟨-, rfl⟩ | ⟨hge, right, separator, -, -, rfl⟩
  · exact .whole (.branch hpacked hlast)
  · have hmid : o.size / 2 + 1 ≤ before.length := by omega
    rw [List.take_append_of_le_length hmid, List.drop_append_of_le_length hmid]
    refine .halves (.branch (List.length_take_of_le (by omega)) fun c hc => ?_) (.branch (fun c hc => ?_) hlast)
    · exact hpacked c (List.mem_of_mem_take hc)
    · exact hpacked c (List.mem_of_mem_drop hc)

/-- A new root has a packed child and a tight one. -/
theorem Tight.close {root : Subtree K} (h : g.Tight o) (hg : g.close = some root) : root.Tight o := by
  cases h with
  | whole tight => exact Option.some.inj hg ▸ tight
  | @halves left right separator fresh packed tight =>
    obtain ⟨id, -, rfl⟩ := Option.map_eq_some_iff.mp hg
    have hroot : Subtree.Tight o (.branch id [separator] ([left] ++ [right])) :=
      .branch (by simpa using packed) tight
    exact hroot

end Growth

/-! ## Keys at the right end -/

/-- Nothing is behind the hole for a key that is not below any other. -/
theorem Frame.after_eq_nil [Ord K] {d : Nat} {f : Frame K} {c : Subtree K} {key : K}
    (h : (f.fill c).Regular o (d + 1)) (hf : f.Follows (rankOf key))
    (hle : ∀ k ∈ (f.fill c).keysIn, (compare k key).isLE) : f.after = [] := by
  have hkeys : ∀ k ∈ f.keys, (compare k key).isLE := fun k hk => hle k (h.keys_sublist.subset hk)
  have hall : rankOf key f.keys = f.keys.length := by
    rw [rankOf, List.takeWhile_eq_self_iff.mpr hkeys]
  have hslot : f.before.length = f.keys.length := hf.trans hall
  cases h with
  | branch hne _ hsep _ _ =>
    have hlen := Subtree.length_children hne hsep
    rw [List.length_append, List.length_cons] at hlen
    exact List.length_eq_zero_iff.mp (by omega)

namespace Subtree.Regular

variable [Ord K] {d fresh : Nat} {key : K} {s : Subtree K} {g : Growth K}

/-- **A key at the right end keeps a subtree tight.** -/
theorem insert_tight (h : s.Regular o d) (hs : Sorted s.keysIn) (hle : ∀ k ∈ s.keysIn, (compare k key).isLE)
    (ht : s.Tight o) (hg : s.insert o.size fresh key = some g) : g.Tight o := by
  revert g
  refine descent_induction key (P := fun _ s => (∀ k ∈ s.keysIn, (compare k key).isLE) → s.Tight o →
    ∀ {g : Growth K}, s.insert o.size fresh key = some g → g.Tight o) ?_ ?_ h hs hle ht
  · intro id keys next _ _ _ _ g hg
    rw [insert_leaf] at hg
    exact Growth.tight_ofLeaf hg
  · intro d f c hreg hs hf _ ih hle ht g hg
    rw [insert_fill hf] at hg
    obtain ⟨gc, hgc, hgrow⟩ := Option.bind_eq_some_iff.mp hg
    have hafter := Frame.after_eq_nil hreg hf hle
    have hplug : (Trail.plug [f] c).Regular o (d + 1) := hreg
    obtain ⟨hlt, hlen⟩ := hplug.of_plug.2 f List.mem_cons_self
    obtain ⟨id, keys, before, after⟩ := f
    obtain rfl : after = [] := hafter
    obtain ⟨hpacked, hc⟩ : (∀ x ∈ before, x.Packed o) ∧ c.Tight o := by
      generalize hfill : Frame.fill ⟨id, keys, before, []⟩ c = s at ht
      cases ht with
      | leaf => cases hfill
      | branch packed tight =>
        injection hfill with _ _ hchildren
        obtain ⟨rfl, hlast⟩ := List.append_inj' hchildren rfl
        exact ⟨packed, List.singleton_inj.mp hlast ▸ tight⟩
    cases ih (fun k hk => hle k (by simp [Frame.keysIn_fill, hk])) hc hgc with
    | whole tight =>
      obtain rfl := Option.some.inj hgrow
      exact .whole (.branch hpacked tight)
    | @halves left right separator fresh packed tight =>
      have hentered := Frame.length_entered ⟨id, keys, before, []⟩ separator
      rw [Frame.grow, show before ++ [left, right] = before ++ [left] ++ [right] by simp] at hgrow
      refine Growth.tight_ofBranch (by omega) ?_ ?_ tight hgrow
      · rw [hentered, List.length_append, ← hlen]
        rfl
      · intro x hx
        rcases List.mem_append.mp hx with hx | hx
        exacts [hpacked x hx, List.mem_singleton.mp hx ▸ packed]

end Subtree.Regular

/-! ## Levels -/

namespace Subtree

/-- The nodes `l` levels below the root, from left to right. -/
def level : Nat → Subtree K → List (Subtree K)
  | 0, s => [s]
  | _ + 1, .leaf .. => []
  | l + 1, .branch _ _ children => children.flatMap (level l)

/-- The nodes on the last level are the leaves. -/
theorem Balanced.level_eq {d : Nat} {s : Subtree K} (h : s.Balanced d) : s.level d = s.leavesIn := by
  induction h with
  | leaf => rw [level, leavesIn_leaf]
  | branch _ _ ih =>
    rw [level, leavesIn_branch]
    exact List.flatMap_congr ih

/-- The nodes on all levels above the last one are branches. -/
theorem Balanced.isLeaf_of_mem_level {d l : Nat} {s x : Subtree K} (h : s.Balanced d) (hl : l < d)
    (hx : x ∈ s.level l) : ¬ x.isLeaf := by
  induction h generalizing l with
  | leaf => omega
  | branch _ _ ih =>
    cases l with
    | zero => simp [List.mem_singleton.mp hx, isLeaf]
    | succ l =>
      obtain ⟨c, hc, hx⟩ := List.mem_flatMap.mp hx
      exact ih c hc (by omega) hx

theorem Packed.of_mem_level {l : Nat} {s x : Subtree K} (h : s.Packed o) (hx : x ∈ s.level l) :
    x.Packed o := by
  induction h generalizing l with
  | leaf hlen =>
    cases l with
    | zero => exact List.mem_singleton.mp hx ▸ .leaf hlen
    | succ l => cases hx
  | branch hlen packed ih =>
    cases l with
    | zero => exact List.mem_singleton.mp hx ▸ .branch hlen packed
    | succ l =>
      obtain ⟨c, hc, hx⟩ := List.mem_flatMap.mp hx
      exact ih c hc hx

/-- **On each level of a tight subtree, all nodes but the last are packed.** -/
theorem Tight.of_mem_dropLast_level {l : Nat} {s x : Subtree K} (h : s.Tight o)
    (hx : x ∈ (s.level l).dropLast) : x.Packed o := by
  induction h generalizing l with
  | leaf => cases l <;> simp [level] at hx
  | @branch id keys before last packed _ ih =>
    cases l with
    | zero => simp [level] at hx
    | succ l =>
      rw [level, List.flatMap_append, List.flatMap_singleton] at hx
      have hmem : x ∈ before.flatMap (level l) ∨ x ∈ (last.level l).dropLast := by
        rw [List.dropLast_append] at hx
        split at hx
        · exact .inl (List.dropLast_subset _ hx)
        · exact List.mem_append.mp hx
      rcases hmem with hx | hx
      · obtain ⟨c, hc, hx⟩ := List.mem_flatMap.mp hx
        exact (packed c hc).of_mem_level hx
      · exact ih hx

theorem Packed.length_keys {s : Subtree K} (h : s.Packed o) :
    s.keys.length = if s.isLeaf then (o.size + 1) / 2 else o.size / 2 := by
  cases h with
  | leaf hlen => exact hlen
  | branch hlen => exact hlen

/-- Where all nodes but the last hold `n` keys, each of them holds the `n` keys behind those of the nodes
before it. -/
theorem keys_of_equal_lengths {n : Nat} {ls : List (Subtree K)} (h : ∀ l ∈ ls.dropLast, l.keys.length = n)
    {i : Nat} {l : Subtree K} (hl : ls[i]? = some l) (hi : i + 1 < ls.length) :
    l.keys = ((keysOf ls).drop (i * n)).take n := by
  induction ls generalizing i with
  | nil => simp at hi
  | cons m ls ih =>
    obtain ⟨m', ls, rfl⟩ := List.exists_cons_of_length_pos (l := ls) (by simp at hi; omega)
    obtain ⟨hm, hls⟩ := List.forall_mem_cons.mp (List.dropLast_cons_cons ▸ h)
    rw [keysOf, List.flatMap_cons]
    cases i with
    | zero =>
      obtain rfl : m = l := by simpa using hl
      rw [Nat.zero_mul, List.drop_zero, List.take_left' hm]
    | succ i =>
      rw [Nat.succ_mul, Nat.add_comm, ← List.drop_drop, List.drop_left' hm]
      exact ih hls hl (by simpa using hi)

end Subtree

end TracedIndex
