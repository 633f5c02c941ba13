import TracedIndex.Proofs.Subtree.Insertion

/-!
# The numbers of the nodes

Fresh nodes are numbered on from the nodes there are. A regular subtree has fewer than two nodes for
each of its keys, so the numbers last for `2 ^ 31` keys.

* **`Regular.size_lt`**: fewer than two nodes for each key;
* **`Regular.insert_numbers`**: insertion keeps the old numbers, and fresh ones follow without a gap;
* **`Regular.insert_isSome`**, `Regular.close_isSome`: the numbers last while there are few keys.
-/

namespace TracedIndex

variable {K : Type} {o : Order}

/-! ## Nodes and keys -/

namespace Subtree.Regular

/-- Subtrees with fewer than two nodes for each of their keys have so together, with one node to spare
for each of them. -/
theorem sum_size_le {ss : List (Subtree K)}
    (h : ∀ c ∈ ss, c.size + 1 ≤ 2 * c.keysIn.length) :
    (ss.map size).sum + ss.length ≤ 2 * (ss.flatMap keysIn).length := by
  induction ss with
  | nil => simp
  | cons s ss ih =>
    have h₁ := h s List.mem_cons_self
    have h₂ := ih fun c hc => h c (List.mem_cons_of_mem _ hc)
    simp only [List.map_cons, List.sum_cons, List.length_cons, List.flatMap_cons,
      List.length_append]
    omega

/-- **A regular subtree has fewer than two nodes for each of its keys.** -/
theorem size_lt {d : Nat} {s : Subtree K} (h : s.Regular o d) (hne : s.keysIn ≠ []) :
    s.size + 1 ≤ 2 * s.keysIn.length := by
  induction h with
  | @leaf id keys next hlt =>
    have := List.length_pos_iff.mpr hne
    rw [size]
    omega
  | @branch d id keys children hkeys _ hsep hreg hfill ih =>
    have hlen := length_children hkeys hsep
    have hpos := List.length_pos_iff.mpr hkeys
    have := sum_size_le fun c hc => ih c hc ((hreg c hc).keysIn_ne_nil (hfill c hc))
    rw [size_branch, keysIn_branch]
    omega

end Subtree.Regular

/-! ## Fresh numbers -/

namespace Growth

/-- The number for the next fresh node, if the subtree was cut. -/
def fresh? : Growth K → Option Nat
  | whole _ => none
  | halves _ _ _ fresh => some fresh

/-- The nodes of the parts are those of `s`, and fresh ones numbered on from `fresh`. -/
def Numbers (fresh : Nat) (s : Subtree K) (g : Growth K) : Prop :=
  ∃ new : List NodeId, (g.parts.flatMap Subtree.ids).Perm (s.ids ++ new) ∧
    new.map NodeId.index = List.range' fresh new.length ∧
    ∀ n ∈ g.fresh?, n = fresh + new.length

theorem numbers_ofLeaf {order fresh : Nat} {id : NodeId} {keys keys' : List K}
    {next next' : Option NodeId} {g : Growth K} (h : ofLeaf order fresh id keys next = some g) :
    g.Numbers fresh (.leaf id keys' next') := by
  rcases ofLeaf_cases h with ⟨-, rfl⟩ | ⟨-, right, separator, hright, -, rfl⟩
  · exact ⟨[], by simp [parts], rfl, by simp [fresh?]⟩
  · exact ⟨[right], by simp [parts], by simp [hright], by simp [fresh?]⟩

theorem perm_ids_fill (f : Frame K) (c : Subtree K) {is new : List NodeId}
    (h : is.Perm (c.ids ++ new)) :
    (f.id :: (f.before.flatMap Subtree.ids ++ is ++ f.after.flatMap Subtree.ids)).Perm
      ((f.fill c).ids ++ new) := by
  simp only [Frame.fill, Subtree.ids_branch, List.flatMap_append, List.flatMap_cons,
    List.cons_append]
  refine List.Perm.cons _ ?_
  refine ((h.append_left _).append_right _).trans ?_
  simp only [List.append_assoc]
  exact (List.perm_append_comm.append_left _).append_left _

end Growth

theorem Frame.numbers_grow {order fresh : Nat} {f : Frame K} {c : Subtree K} {g g' : Growth K}
    (hg : g.Numbers fresh c) (h : f.grow order g = some g') : g'.Numbers fresh (f.fill c) := by
  obtain ⟨new, hperm, hnew, hfresh⟩ := hg
  have hids := Growth.perm_ids_fill f c hperm
  cases g with
  | whole c' =>
    obtain rfl := Option.some.inj h
    refine ⟨new, ?_, hnew, by simp [Growth.fresh?]⟩
    simpa [Growth.parts, Frame.fill] using hids
  | halves left separator right fresh' =>
    obtain rfl : fresh' = fresh + new.length := hfresh fresh' rfl
    rcases Growth.ofBranch_cases h with ⟨-, rfl⟩ | ⟨-, n, k, hn, -, rfl⟩
    · refine ⟨new, ?_, hnew, by simp [Growth.fresh?]⟩
      simpa [Growth.parts] using hids
    · refine ⟨new ++ [n], ?_, ?_, by simp [Growth.fresh?, Nat.add_assoc]⟩
      · rw [← List.append_assoc]
        refine (?_ : List.Perm _ _).trans (hids.append_right [n])
        simp only [Growth.parts, List.flatMap_cons, List.flatMap_nil, List.append_nil,
          Subtree.ids_branch, List.cons_append]
        refine List.Perm.cons _ (List.perm_middle.trans ?_)
        rw [← List.flatMap_append, List.take_append_drop]
        refine (List.perm_append_singleton n _).symm.trans ?_
        simp
      · rw [List.map_append, hnew, List.length_append, List.length_singleton, List.map_singleton, hn,
          List.range'_concat, Nat.one_mul]

namespace Subtree.Regular

variable [Ord K] {d fresh : Nat} {key : K} {s : Subtree K} {g : Growth K}

/-- **Insertion keeps the old numbers, and the fresh ones follow without a gap.** -/
theorem insert_numbers (h : s.Regular o d) (hs : Sorted s.keysIn)
    (hg : s.insert o.size fresh key = some g) : g.Numbers fresh s := by
  revert g
  refine descent_induction key (P := fun _ s => ∀ {g : Growth K},
    s.insert o.size fresh key = some g → g.Numbers fresh s) ?_ ?_ h hs
  · intro id keys next _ _ g hg
    rw [insert_leaf] at hg
    exact Growth.numbers_ofLeaf hg
  · intro d f c _ _ hf _ ih g hg
    rw [insert_fill hf] at hg
    obtain ⟨gc, hgc, hgrow⟩ := Option.bind_eq_some_iff.mp hg
    exact Frame.numbers_grow (ih hgc) hgrow

end Subtree.Regular

/-! ## Numbers to spare -/

namespace Subtree

/-- The numbers from `fresh` on last for one key more: those taken outside of `s` are fewer than two
for each key outside of it. -/
def Fits (fresh : Nat) (s : Subtree K) : Prop :=
  fresh + 2 * (s.keysIn.length + 1) ≤ UInt32.size + s.size + 1

end Subtree

namespace Frame

/-- What fits into a branch fits into each of its children, since there is another child. -/
theorem fits_of_fill {d fresh : Nat} {f : Frame K} {c : Subtree K}
    (h : (f.fill c).Regular o (d + 1)) (hfits : (f.fill c).Fits fresh) : c.Fits fresh := by
  cases h with
  | branch hne _ hsep hreg hfill =>
    have hlen := Subtree.length_children hne hsep
    have hpos := List.length_pos_iff.mpr hne
    have hother : ∀ x ∈ f.before ++ f.after, x.size + 1 ≤ 2 * x.keysIn.length := by
      intro x hx
      have hx' : x ∈ f.before ++ c :: f.after := by
        simp only [List.mem_append, List.mem_cons] at hx ⊢
        tauto
      exact (hreg x hx').size_lt ((hreg x hx').keysIn_ne_nil (hfill x hx'))
    have hsum := Subtree.Regular.sum_size_le hother
    unfold Subtree.Fits at hfits ⊢
    rw [keysIn_fill] at hfits
    simp only [fill, Subtree.size_branch, List.map_append, List.map_cons,
      List.sum_append, List.sum_cons, List.flatMap_append, List.length_append, List.length_cons]
      at hfits hsum hlen
    omega

end Frame

namespace Subtree.Regular

variable [Ord K] [Std.TransOrd K] {d fresh : Nat} {key : K} {s : Subtree K} {g : Growth K}

/-- Where one more key fits, there is still a number after a subtree was cut. -/
theorem fresh_lt (h : s.Regular o d) (hs : Sorted s.keysIn) (hfits : s.Fits fresh)
    (hg : s.insert o.size fresh key = some g) : ∀ n ∈ g.fresh?, n < UInt32.size := by
  intro n hn
  have hkeys := congrArg List.length (h.insert_keysIn hs hg)
  obtain ⟨new, hperm, -, hfresh⟩ := h.insert_numbers hs hg
  have hnew := hperm.length_eq
  have hn' := hfresh n hn
  cases h.insert_regular hs hg with
  | whole => simp [Growth.fresh?] at hn
  | @halves left right separator fresh' hl hlf hr hrf hsep =>
    have hleft := hl.size_lt (hl.keysIn_ne_nil hlf)
    have hright := hr.size_lt (hr.keysIn_ne_nil hrf)
    simp only [Growth.keysIn, Growth.parts, List.flatMap_cons, List.flatMap_nil, List.append_nil,
      List.length_append, length_ids, length_insertBehind] at hkeys hnew
    unfold Fits at hfits
    omega

/-- **Insertion finds the numbers that it needs where one more key fits.** -/
theorem insert_isSome (h : s.Regular o d) (hs : Sorted s.keysIn) (hfits : s.Fits fresh) (key : K) :
    ∃ g, s.insert o.size fresh key = some g := by
  have := o.three_le_size
  revert hfits
  refine descent_induction key (P := fun d s => s.Fits fresh →
    ∃ g, s.insert o.size fresh key = some g) ?_ ?_ h hs
  · intro id keys next hlt _ hfits
    rw [insert_leaf, ← Option.ne_none_iff_exists', Ne, Growth.ofLeaf_eq_none (by omega),
      length_insertBehind]
    simp only [Fits, keysIn_leaf, size] at hfits
    omega
  · intro d f c hreg hs hf hc ih hfits
    obtain ⟨g, hg⟩ := ih (Frame.fits_of_fill hreg hfits)
    rw [insert_fill hf, hg, Option.bind_some]
    cases g with
    | whole c' => exact ⟨_, rfl⟩
    | halves left separator right fresh' =>
      have hlt := hreg.of_fill.1.fresh_lt hc (Frame.fits_of_fill hreg hfits) hg fresh' rfl
      rw [← Option.ne_none_iff_exists', Ne, Frame.grow, Growth.ofBranch_eq_none (by omega)]
      omega

theorem close_isSome (h : s.Regular o d) (hs : Sorted s.keysIn) (hfits : s.Fits fresh) (key : K) :
    ∃ root, (s.insert o.size fresh key).bind Growth.close = some root := by
  obtain ⟨g, hg⟩ := h.insert_isSome hs hfits key
  have hlt := h.fresh_lt hs hfits hg
  rw [hg, Option.bind_some]
  cases g with
  | whole t => exact ⟨t, rfl⟩
  | halves left separator right fresh' =>
    rw [← Option.ne_none_iff_exists', Ne, Growth.close, Option.map_eq_none_iff,
      Growth.ofNat?_eq_none]
    exact Nat.not_le.mpr (hlt fresh' rfl)

end Subtree.Regular

end TracedIndex
