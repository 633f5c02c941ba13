import TracedIndex.Proofs.Subtree.Shape
import TracedIndex.Tree.Check

/-!
# Bounded subtrees

A subtree is **bounded** if it is balanced, no node of it is full, and the keys below each child of a
branch lie between the separators around that child. Nothing is said about how few keys a node has, and
a separator need not be a key of any leaf. The keys are in order all the same, and a descent for a key
passes only keys up to it on its left.

* `Orderly`: what is asked of the keys of one node; `Bounded`, `BoundedAmong`: of a subtree, and of the
  children of a branch;
* `Bounded.balanced`, **`Bounded.sorted`**: the shape of a bounded subtree, and the order of its keys;
* **`Bounded.isLE_of_mem_leavesBefore`**: where the keys to the left of a descent lie;
* **`Regular.bounded`**: a regular subtree with sorted keys is bounded, since its separators are first
  keys.
-/

namespace TracedIndex

variable {K : Type} [Ord K] {o : Order} {d : Nat} {lower upper : Option K} {key : K}

theorem within_iff {k : K} :
    within lower upper k ↔
      (∀ l ∈ lower, (compare l k).isLE) ∧ ∀ u ∈ upper, (compare k u).isLE := by
  cases lower <;> cases upper <;> simp [within]

/-- The keys of a node are fewer than the order, ascend, and lie between the bounds. -/
structure Orderly (o : Order) (lower upper : Option K) (keys : List K) : Prop where
  length_lt : keys.length < o.size
  sorted : Sorted keys
  within : ∀ k ∈ keys, within lower upper k

namespace Subtree

mutual

/-- A subtree of depth `d` whose keys lie between `lower` and `upper`. -/
inductive Bounded (o : Order) : Nat → Option K → Option K → Subtree K → Prop
  | leaf {lower upper : Option K} {id : NodeId} {keys : List K} {next : Option NodeId}
    (orderly : Orderly o lower upper keys) : Bounded o 0 lower upper (.leaf id keys next)
  | branch {d : Nat} {lower upper : Option K} {id : NodeId} {keys : List K}
    {children : List (Subtree K)} (ne_nil : keys ≠ []) (orderly : Orderly o lower upper keys)
    (among : BoundedAmong o d lower upper keys children) :
    Bounded o (d + 1) lower upper (.branch id keys children)

/-- Subtrees of depth `d` with separators between them. -/
inductive BoundedAmong (o : Order) : Nat → Option K → Option K → List K → List (Subtree K) → Prop
  | last {d : Nat} {lower upper : Option K} {c : Subtree K} (bounded : Bounded o d lower upper c) :
    BoundedAmong o d lower upper [] [c]
  | cons {d : Nat} {lower upper : Option K} {separator : K} {separators : List K} {c : Subtree K}
    {cs : List (Subtree K)} (bounded : Bounded o d lower (some separator) c)
    (among : BoundedAmong o d (some separator) upper separators cs) :
    BoundedAmong o d lower upper (separator :: separators) (c :: cs)

end

/-! ## Shape -/

namespace BoundedAmong

variable {keys : List K} {cs : List (Subtree K)}

theorem length_eq (h : BoundedAmong o d lower upper keys cs) : cs.length = keys.length + 1 := by
  induction keys generalizing lower cs with
  | nil =>
    cases h
    rfl
  | cons k keys ih =>
    cases h with
    | cons _ among => rw [List.length_cons, ih among, List.length_cons]

theorem exists_bounded (h : BoundedAmong o d lower upper keys cs) :
    ∀ c ∈ cs, ∃ l u, c.Bounded o d l u := by
  induction keys generalizing lower cs with
  | nil =>
    cases h with
    | last bounded =>
      intro c hc
      obtain rfl := List.mem_singleton.mp hc
      exact ⟨_, _, bounded⟩
  | cons k keys ih =>
    cases h with
    | cons bounded among =>
      intro c hc
      rcases List.mem_cons.mp hc with rfl | hc
      exacts [⟨_, _, bounded⟩, ih among c hc]

end BoundedAmong

theorem Bounded.balanced {s : Subtree K} (h : s.Bounded o d lower upper) : s.Balanced d := by
  induction d generalizing s lower upper with
  | zero =>
    cases h
    exact .leaf
  | succ d ih =>
    cases h with
    | branch _ _ among =>
      refine .branch among.length_eq fun c hc => ?_
      obtain ⟨l, u, hlu⟩ := among.exists_bounded c hc
      exact ih hlu

/-! ## Keys in order -/

variable [Std.TransOrd K]

/-- What holds of the keys of each child between its bounds holds of all of them between the outer
bounds: the separators are between these, and in order. -/
theorem BoundedAmong.sorted {keys : List K} {cs : List (Subtree K)}
    (hchild : ∀ {c : Subtree K} {l u : Option K}, c.Bounded o d l u →
      Sorted c.keysIn ∧ ∀ k ∈ c.keysIn, within l u k)
    (hs : Sorted keys) (hkeys : ∀ k ∈ keys, within lower upper k)
    (h : BoundedAmong o d lower upper keys cs) :
    Sorted (cs.flatMap keysIn) ∧ ∀ k ∈ cs.flatMap keysIn, within lower upper k := by
  induction keys generalizing lower cs with
  | nil =>
    cases h with
    | last bounded =>
      rw [List.flatMap_singleton]
      exact hchild bounded
  | cons s keys ih =>
    cases h with
    | @cons _ _ _ _ _ c cs bounded among =>
      obtain ⟨hcs, hc⟩ := hchild bounded
      have hs' := within_iff.mp (hkeys s List.mem_cons_self)
      obtain ⟨hrests, hrest⟩ := ih hs.of_cons (fun k hk => within_iff.mpr
        ⟨by simpa using List.rel_of_pairwise_cons hs hk,
          (within_iff.mp (hkeys k (List.mem_cons_of_mem _ hk))).2⟩) among
      -- the separator is between the child and the rest
      have hle : ∀ k ∈ c.keysIn, (compare k s).isLE := fun k hk => (within_iff.mp (hc k hk)).2 s rfl
      have hge : ∀ k ∈ cs.flatMap keysIn, (compare s k).isLE := fun k hk =>
        (within_iff.mp (hrest k hk)).1 s rfl
      rw [List.flatMap_cons]
      refine ⟨List.pairwise_append.mpr ⟨hcs, hrests, fun x hx y hy => ?_⟩, fun k hk => ?_⟩
      · exact Std.TransOrd.isLE_trans (hle x hx) (hge y hy)
      · rcases List.mem_append.mp hk with hk | hk
        · exact within_iff.mpr ⟨(within_iff.mp (hc k hk)).1, fun u hu =>
            Std.TransOrd.isLE_trans (hle k hk) (hs'.2 u hu)⟩
        · exact within_iff.mpr ⟨fun l hl => Std.TransOrd.isLE_trans (hs'.1 l hl) (hge k hk),
            (within_iff.mp (hrest k hk)).2⟩

/-- **The keys of a bounded subtree are in order, and between its bounds.** -/
theorem Bounded.sorted {s : Subtree K} (h : s.Bounded o d lower upper) :
    Sorted s.keysIn ∧ ∀ k ∈ s.keysIn, within lower upper k := by
  induction d generalizing s lower upper with
  | zero =>
    cases h with
    | leaf orderly =>
      rw [keysIn_leaf]
      exact ⟨orderly.sorted, orderly.within⟩
  | succ d ih =>
    cases h with
    | branch _ orderly among =>
      rw [keysIn_branch]
      exact among.sorted ih orderly.sorted orderly.within

/-! ## Descents -/

/-- The keys before the child that a descent for `key` picks are up to `key`, as the separator behind
each of those children is. -/
theorem BoundedAmong.isLE_of_mem_before {keys : List K} {before after : List (Subtree K)}
    {c : Subtree K} (h : BoundedAmong o d lower upper keys (before ++ c :: after))
    (hslot : before.length = rankOf key keys) :
    (∀ k ∈ before.flatMap keysIn, (compare k key).isLE) ∧ ∃ l u, c.Bounded o d l u := by
  refine ⟨?_, h.exists_bounded c (by simp)⟩
  induction before generalizing lower keys with
  | nil => simp
  | cons b before ih =>
    cases keys with
    | nil => simp [rankOf] at hslot
    | cons s keys =>
      cases h with
      | cons bounded among =>
        have hs : (compare s key).isLE := by
          by_contra hs
          simp [rankOf, hs] at hslot
        have hrest := ih among (by simpa [rankOf, hs] using hslot)
        intro k hk
        rw [List.flatMap_cons, List.mem_append] at hk
        rcases hk with hk | hk
        · have hks := (within_iff.mp (bounded.sorted.2 k hk)).2 s rfl
          exact Std.TransOrd.isLE_trans hks hs
        · exact hrest k hk

/-- **The keys before the hole of the trail that a descent for a key follows are up to that key.** -/
theorem Bounded.isLE_of_mem_leavesBefore {fs : Trail K} (hfs : ∀ f ∈ fs, f.Follows (rankOf key))
    {s : Subtree K} (h : (fs.plug s).Bounded o d lower upper) :
    ∀ k ∈ keysOf fs.leavesBefore, (compare k key).isLE := by
  induction fs using List.reverseRecOn generalizing d lower upper with
  | nil => simp [Trail.leavesBefore, keysOf]
  | append_singleton fs f ih =>
    rw [Trail.plug_concat] at h
    cases h with
    | branch _ _ among =>
      obtain ⟨hbefore, l, u, hhole⟩ := among.isLE_of_mem_before (hfs f (by simp))
      have hrest := ih (fun f' hf' => hfs f' (List.mem_append_left _ hf')) hhole
      intro k hk
      rw [Trail.leavesBefore_concat, keysOf_append, List.mem_append] at hk
      rcases hk with hk | hk
      · rw [Frame.leavesBefore, keysOf_flatMap_leavesIn] at hk
        exact hbefore k hk
      · exact hrest k hk

/-! ## Regular subtrees -/

omit [Std.TransOrd K] in
/-- Separators that are first keys bound the keys around them. -/
theorem BoundedAmong.of_first [Std.ReflOrd K] {keys : List K} {c : Subtree K} {cs : List (Subtree K)}
    (hchild : ∀ s ∈ c :: cs, ∀ l u, (∀ k ∈ s.keysIn, within l u k) → s.Bounded o d l u)
    (hsep : keys.map some = cs.map first?) (hs : Sorted ((c :: cs).flatMap keysIn))
    (hbounds : ∀ k ∈ (c :: cs).flatMap keysIn, within lower upper k) :
    BoundedAmong o d lower upper keys (c :: cs) := by
  induction cs generalizing keys c lower with
  | nil =>
    obtain rfl : keys = [] := by simpa using hsep
    exact .last (hchild c List.mem_cons_self _ _ (by simpa using hbounds))
  | cons c' cs ih =>
    cases keys with
    | nil => simp at hsep
    | cons s keys =>
      rw [List.map_cons, List.map_cons, List.cons.injEq] at hsep
      obtain ⟨ks, hks⟩ := List.head?_eq_some_iff.mp hsep.1.symm
      rw [List.flatMap_cons] at hs hbounds
      obtain ⟨-, hsrest, hcross⟩ := List.pairwise_append.mp hs
      have hrest : (c' :: cs).flatMap keysIn = s :: (ks ++ cs.flatMap keysIn) := by
        rw [List.flatMap_cons, hks, List.cons_append]
      refine .cons (hchild c List.mem_cons_self _ _ fun k hk => within_iff.mpr ⟨?_, ?_⟩)
        (ih (fun s hs => hchild s (List.mem_cons_of_mem _ hs)) hsep.2 hsrest fun k hk =>
          within_iff.mpr ⟨?_, ?_⟩)
      · exact (within_iff.mp (hbounds k (List.mem_append_left _ hk))).1
      · rintro u ⟨⟩
        exact hcross k hk s (by simp [hrest])
      · rintro l ⟨⟩
        rw [hrest] at hsrest hk
        exact Sorted.isLE_of_mem_cons hsrest hk
      · exact (within_iff.mp (hbounds k (List.mem_append_right _ hk))).2

omit [Std.TransOrd K] in
/-- **A regular subtree with sorted keys between the bounds is bounded.** -/
theorem Regular.bounded [Std.ReflOrd K] {s : Subtree K} (h : s.Regular o d) (hs : Sorted s.keysIn)
    (hbounds : ∀ k ∈ s.keysIn, within lower upper k) : s.Bounded o d lower upper := by
  have horderly : Orderly o lower upper s.keys :=
    ⟨h.length_keys_lt, hs.sublist h.keys_sublist, fun k hk => hbounds k (h.keys_sublist.subset hk)⟩
  induction h generalizing lower upper with
  | leaf => exact .leaf horderly
  | @branch d id keys children hne _ hsep hreg _ ih =>
    rw [keysIn_branch] at hs hbounds
    refine .branch hne horderly ?_
    cases children with
    | nil => simp_all
    | cons c cs =>
      refine .of_first (fun s hs' l u hlu => ?_) hsep hs hbounds
      have hsub : s.keysIn.Sublist ((c :: cs).flatMap keysIn) :=
        List.sublist_flatten_of_mem (List.mem_map_of_mem hs')
      have hsorted := hs.sublist hsub
      exact ih s hs' hsorted hlu ⟨(hreg s hs').length_keys_lt,
        hsorted.sublist (hreg s hs').keys_sublist,
        fun k hk => hlu k ((hreg s hs').keys_sublist.subset hk)⟩

end Subtree

end TracedIndex
