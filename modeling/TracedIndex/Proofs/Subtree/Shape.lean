import TracedIndex.Proofs.Subtree.Balance
import TracedIndex.Proofs.Subtree.Growth

/-!
# The shape of a tree

A **regular** subtree of depth `d` has all its leaves `d` levels below its root. No node of it is
full, every node but its root is **filled**, at least to the half, and the separators of a branch are
the first keys of its children, the leftmost one apart. That is more than the bounds on the keys
below a child: a separator is itself the least key to its right.

* `Regular.length_of_mem_chains`: every way from the root to a leaf goes `d` levels down;
* **`Regular.keys_sublist`**: the separators of a branch are among the keys below it;
* **`Frame.Bounds`**, `Regular.bounds`: where a descent for a key goes on, the keys to the left are
  up to that key, and those to the right are beyond it;
* **`Regular.exists_eq_plug`**: so a descent for a key misses no key that is equal to it.
-/

namespace TracedIndex

variable {K : Type} {o : Order}

/-- The branch has room for one more separator, and one more child than separators when the hole is
filled. -/
structure Frame.Roomy (o : Order) (f : Frame K) : Prop where
  length_lt : f.keys.length < o.size
  length_eq : f.before.length + f.after.length = f.keys.length

theorem Frame.Roomy.slot_le {f : Frame K} (h : f.Roomy o) : f.slot ≤ f.keys.length := by
  have := h.length_eq
  rw [Frame.slot]
  omega

namespace Subtree

theorem sorted_of_plug_leaf [Ord K] {fs : Trail K} {id : NodeId} {keys : List K}
    {next : Option NodeId} (h : Sorted (fs.plug (.leaf id keys next)).keysIn) : Sorted keys := by
  have hkeys := h.sublist (fs.keysIn_sublist _)
  rwa [keysIn_leaf] at hkeys

/-- A node that is at least half full. -/
def Filled (o : Order) : Subtree K → Prop
  | leaf _ keys _ => o.size / 2 ≤ keys.length
  | branch _ _ children => (o.size + 1) / 2 ≤ children.length

/-- A subtree with all its leaves on one level, whose separators are first keys of its children. -/
inductive Regular (o : Order) : Nat → Subtree K → Prop
  | leaf {id : NodeId} {keys : List K} {next : Option NodeId} (length_lt : keys.length < o.size) :
    Regular o 0 (.leaf id keys next)
  | branch {d : Nat} {id : NodeId} {keys : List K} {children : List (Subtree K)}
    (ne_nil : keys ≠ []) (length_lt : keys.length < o.size)
    (separators : keys.map some = children.tail.map first?)
    (regular : ∀ c ∈ children, Regular o d c) (filled : ∀ c ∈ children, c.Filled o) :
    Regular o (d + 1) (.branch id keys children)

theorem length_children {keys : List K} {children : List (Subtree K)} (hne : keys ≠ [])
    (h : keys.map some = children.tail.map first?) : children.length = keys.length + 1 := by
  have hlen := congrArg List.length h
  simp only [List.length_map, List.length_tail] at hlen
  have := List.length_pos_iff.mpr hne
  omega

/-- First keys of some children are among the keys below them, in the same order. -/
theorem sublist_of_first? {keys : List K} {children : List (Subtree K)}
    (h : keys.map some = children.tail.map first?) : keys.Sublist (children.flatMap keysIn) := by
  have hfirst : ∀ (ks : List K) (ss : List (Subtree K)), ks.map some = ss.map first? →
      ks.Sublist (ss.flatMap keysIn) := by
    intro ks ss
    induction ss generalizing ks with
    | nil => intro h; simp_all
    | cons s ss ih =>
      intro h
      cases ks with
      | nil => exact List.nil_sublist _
      | cons k ks =>
        rw [List.map_cons, List.map_cons, List.cons.injEq] at h
        obtain ⟨rest, hrest⟩ := List.head?_eq_some_iff.mp h.1.symm
        rw [List.flatMap_cons, hrest, List.cons_append]
        exact ((ih ks h.2).trans (List.sublist_append_right _ _)).cons_cons k
  refine (hfirst keys children.tail h).trans ?_
  cases children with
  | nil => simp
  | cons c cs => exact List.sublist_append_right _ _

namespace Regular

theorem keysIn_ne_nil {d : Nat} {s : Subtree K} (h : s.Regular o d) (hf : s.Filled o) :
    s.keysIn ≠ [] := by
  have := o.three_le_size
  induction h with
  | leaf =>
    rw [keysIn_leaf]
    rintro rfl
    simp only [Filled, List.length_nil] at hf
    omega
  | @branch d id keys children hne _ hsep _ hfilled ih =>
    rw [keysIn_branch]
    intro hnil
    have hlen := length_children hne hsep
    obtain ⟨c, hc⟩ := List.exists_mem_of_length_pos (l := children) (by omega)
    exact ih c hc (hfilled c hc) (List.flatMap_eq_nil_iff.mp hnil c hc)

theorem balanced {d : Nat} {s : Subtree K} (h : s.Regular o d) : s.Balanced d := by
  induction h with
  | leaf => exact .leaf
  | branch hne _ hsep _ _ ih => exact .branch (length_children hne hsep) ih

/-- Every way from the root to a leaf passes a node on each level. -/
theorem length_of_mem_chains {d : Nat} {s : Subtree K} (h : s.Regular o d) :
    ∀ p ∈ s.chains, p.length = d + 1 := by
  induction h with
  | leaf => simp
  | @branch d id keys children _ _ _ _ _ ih =>
    rw [chains_branch]
    intro p hp
    obtain ⟨q, hq, rfl⟩ := List.mem_map.mp hp
    obtain ⟨c, hc, hq⟩ := List.mem_flatMap.mp hq
    rw [List.length_cons, ih c hc q hq]

/-- A subtree in the hole of a trail is regular, of a depth that is less by the length of the trail, and
no branch of the trail is full. -/
theorem of_plug {d : Nat} {fs : Trail K} {s : Subtree K} (h : (fs.plug s).Regular o d) :
    (∃ e, d = e + fs.length ∧ s.Regular o e) ∧ ∀ f ∈ fs, f.Roomy o := by
  induction fs generalizing s with
  | nil => exact ⟨⟨d, rfl, h⟩, by simp⟩
  | cons f fs ih =>
    obtain ⟨⟨e, he, hfill⟩, hfs⟩ := ih h
    cases hfill with
    | @branch e _ _ _ hne hlt hsep hreg _ =>
      refine ⟨⟨e, by rw [he, List.length_cons]; omega, hreg s (by simp)⟩, fun f' hf' => ?_⟩
      rcases List.mem_cons.mp hf' with rfl | hf'
      · have hlen := length_children hne hsep
        rw [List.length_append, List.length_cons] at hlen
        exact ⟨hlt, by omega⟩
      · exact hfs f' hf'

theorem length_keys_lt {d : Nat} {s : Subtree K} (h : s.Regular o d) : s.keys.length < o.size := by
  cases h with
  | leaf length_lt => exact length_lt
  | branch _ length_lt => exact length_lt

/-- **The keys or separators of a node are among the keys of its leaves, in the same order.** -/
theorem keys_sublist {d : Nat} {s : Subtree K} (h : s.Regular o d) : s.keys.Sublist s.keysIn := by
  cases h with
  | leaf => simp [keys]
  | branch _ _ hsep _ _ =>
    rw [keysIn_branch]
    exact sublist_of_first? hsep

end Regular

end Subtree

namespace Frame

/-- The separators before the hole are the first keys of the children up to it, and those behind the
hole the first keys of the children behind it. -/
theorem separators_fill {f : Frame K} {c : Subtree K}
    (h : f.keys.map some = (f.before ++ c :: f.after).tail.map Subtree.first?) :
    (f.keys.take f.slot).map some = (f.before ++ [c]).tail.map Subtree.first? ∧
      (f.keys.drop f.slot).map some = f.after.map Subtree.first? := by
  have hsplit : (f.before ++ c :: f.after).tail = (f.before ++ [c]).tail ++ f.after := by
    cases f.before <;> simp
  have hlen : ((f.before ++ [c]).tail.map Subtree.first?).length = f.slot := by
    simp [slot]
  rw [hsplit, List.map_append] at h
  constructor
  · rw [List.map_take, h, ← hlen, List.take_left]
  · rw [List.map_drop, h, ← hlen, List.drop_left]

variable [Ord K]

/-- The keys on both sides of a hole into which `key` belongs. -/
structure Bounds (f : Frame K) (key : K) (c : Subtree K) : Prop where
  /-- The keys to the left are up to `key`. -/
  before : ∀ k ∈ f.before.flatMap Subtree.keysIn, (compare k key).isLE
  /-- The first key to the right is beyond `key`. -/
  after : ∀ k ∈ (f.after.flatMap Subtree.keysIn).head?, ¬ (compare k key).isLE
  /-- Unless nothing is to the left, the first key in the hole is up to `key`. -/
  first : f.before ≠ [] → ∃ k, c.first? = some k ∧ (compare k key).isLE

end Frame

namespace Subtree.Regular

variable [Ord K] [Std.TransOrd K] {d : Nat} {key : K} {f : Frame K} {c : Subtree K}

omit [Std.TransOrd K] in
theorem first_isLE (h : (f.fill c).Regular o d) (hf : f.Follows (rankOf key)) (hne : f.before ≠ []) :
    ∃ k, c.first? = some k ∧ (compare k key).isLE := by
  cases h with
  | branch _ _ hsep _ _ =>
    have hleft := (Frame.separators_fill hsep).1
    have hc : c.first? ∈ (f.before ++ [c]).tail.map first? := by
      refine List.mem_map_of_mem ?_
      obtain ⟨b, bs, hb⟩ := List.exists_cons_of_ne_nil hne
      simp [hb]
    rw [← hleft, hf, take_rankOf, List.mem_map] at hc
    obtain ⟨k, hk, hck⟩ := hc
    exact ⟨k, hck.symm, isLE_of_mem_takeWhile hk⟩

omit [Std.TransOrd K] in
theorem head?_after (h : (f.fill c).Regular o d) (hf : f.Follows (rankOf key)) :
    ∀ k ∈ (f.after.flatMap keysIn).head?, ¬ (compare k key).isLE := by
  intro k hk
  cases h with
  | branch _ _ hsep _ _ =>
    have hright := (Frame.separators_fill hsep).2
    cases hafter : f.after with
    | nil => simp [hafter] at hk
    | cons x xs =>
      rw [hf, drop_rankOf, hafter, List.map_cons] at hright
      obtain ⟨s, ss, hss, hsx, -⟩ := List.map_eq_cons_iff.mp hright
      have hnot := List.head?_dropWhile_not (fun s => (compare s key).isLE) f.keys
      rw [hss] at hnot
      obtain ⟨rest, hrest⟩ := List.head?_eq_some_iff.mp hsx.symm
      rw [hafter, List.flatMap_cons, hrest] at hk
      obtain rfl : s = k := by simpa using hk
      simpa using hnot

/-- **Where a descent goes on, the keys to the left are up to the key, and those to the right are
beyond it.** -/
theorem bounds (h : (f.fill c).Regular o d) (hs : Sorted (f.fill c).keysIn)
    (hf : f.Follows (rankOf key)) : f.Bounds key c where
  before := by
    intro k hk
    have hne : f.before ≠ [] := by rintro e; simp [e] at hk
    obtain ⟨k', hk', hle⟩ := h.first_isLE hf hne
    obtain ⟨rest, hrest⟩ := List.head?_eq_some_iff.mp hk'
    rw [Frame.keysIn_fill, hrest, List.append_assoc] at hs
    have := (List.pairwise_append.mp hs).2.2 k hk k' (by simp)
    exact Std.TransOrd.isLE_trans this hle
  after := h.head?_after hf
  first := h.first_isLE hf

/-- **If a key compares as equal to some key of a branch, it does so to some key in the hole**: where
one to the left is equal to it, so is the first key in the hole. -/
theorem exists_eq_fill (h : (f.fill c).Regular o d) (hs : Sorted (f.fill c).keysIn)
    (hf : f.Follows (rankOf key)) :
    (∃ k ∈ (f.fill c).keysIn, compare k key = .eq) ↔ ∃ k ∈ c.keysIn, compare k key = .eq := by
  have hb := h.bounds hs hf
  rw [Frame.keysIn_fill] at hs ⊢
  obtain ⟨hleft, hsafter, -⟩ := List.pairwise_append.mp hs
  constructor
  · rintro ⟨k, hk, heq⟩
    rcases List.mem_append.mp hk with hk | hk
    · rcases List.mem_append.mp hk with hk | hk
      · have hne : f.before ≠ [] := by rintro e; simp [e] at hk
        obtain ⟨first, hfirst, hle⟩ := hb.first hne
        have hmem : first ∈ c.keysIn := List.mem_of_head? hfirst
        have hkf := (List.pairwise_append.mp hleft).2.2 k hk first hmem
        rw [Std.TransCmp.congr_left heq] at hkf
        exact ⟨first, hmem, Std.OrientedCmp.isLE_antisymm hle hkf⟩
      · exact ⟨k, hk, heq⟩
    · have hbeyond := Sorted.not_isLE_of_head? hsafter hb.after k hk
      rw [heq] at hbeyond
      exact absurd rfl hbeyond
  · rintro ⟨k, hk, heq⟩
    exact ⟨k, List.mem_append_left _ (List.mem_append_right _ hk), heq⟩

/-- A key is in a tree if it is in the hole of the trail that a descent for it follows. -/
theorem exists_eq_plug {fs : Trail K} (hfs : ∀ f ∈ fs, f.Follows (rankOf key)) {s : Subtree K}
    (h : (fs.plug s).Regular o d) (hs : Sorted (fs.plug s).keysIn) :
    (∃ k ∈ (fs.plug s).keysIn, compare k key = .eq) ↔ ∃ k ∈ s.keysIn, compare k key = .eq := by
  induction fs generalizing s with
  | nil => rfl
  | cons f fs ih =>
    have hplug : (Trail.plug fs (f.fill s)).Regular o d := h
    obtain ⟨⟨e, -, hfill⟩, -⟩ := hplug.of_plug
    rw [Trail.plug_cons, ih (fun f' hf' => hfs f' (List.mem_cons_of_mem _ hf')) h hs]
    exact hfill.exists_eq_fill (hs.sublist (Trail.keysIn_sublist fs _)) (hfs f List.mem_cons_self)

end Subtree.Regular

end TracedIndex
