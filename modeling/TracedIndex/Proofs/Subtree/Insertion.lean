import TracedIndex.Proofs.Subtree.Shape

/-!
# What insertion keeps

Insertion into a subtree goes down to a leaf and comes back up frame by frame, so what it keeps is
shown at a leaf and for the step of one frame (`Regular.descent_induction`).

* **`Regular.insert_keysIn`**: the key comes behind all keys up to it;
* **`Regular.insert_regular`**: the parts are regular of the same depth, and filled if there are two;
  so a new root above them is regular (`Growth.Regular.close`);
* **`Regular.insert_chained`**: the leaves stay linked, from the same first one to the same end.
-/

namespace TracedIndex

variable {K : Type} {o : Order}

/-! ## Induction along the descent -/

namespace Subtree.Regular

theorem of_fill {d : Nat} {f : Frame K} {c : Subtree K} (h : (f.fill c).Regular o (d + 1)) :
    c.Regular o d ∧ c.Filled o := by
  cases h with
  | branch _ _ _ hreg hfill => exact ⟨hreg c (by simp), hfill c (by simp)⟩

/-- A statement about a regular subtree, by the descent for a key: a leaf, then one frame after
another. -/
theorem descent_induction [Ord K] (key : K) {P : Nat → Subtree K → Prop}
    (leaf : ∀ (id : NodeId) (keys : List K) (next : Option NodeId), keys.length < o.size →
      Sorted keys → P 0 (.leaf id keys next))
    (step : ∀ (d : Nat) (f : Frame K) (c : Subtree K), (f.fill c).Regular o (d + 1) →
      Sorted (f.fill c).keysIn → f.Follows (rankOf key) → Sorted c.keysIn → P d c →
      P (d + 1) (f.fill c))
    {d : Nat} {s : Subtree K} (h : s.Regular o d) (hs : Sorted s.keysIn) : P d s := by
  induction h with
  | @leaf id keys next hlt => exact leaf id keys next hlt (by simpa using hs)
  | @branch d id keys children hne hlt hsep hreg hfill ih =>
    have hlen := length_children hne hsep
    have hpos : rankOf key keys < children.length := by have := rankOf_le key keys; omega
    set f : Frame K :=
      ⟨id, keys, children.take (rankOf key keys), children.drop (rankOf key keys + 1)⟩ with hfdef
    have hf : f.Follows (rankOf key) := by
      simp only [hfdef, Frame.Follows, Frame.slot, List.length_take]
      omega
    have hfill' : f.fill children[rankOf key keys] = .branch id keys children := by
      rw [hfdef, Frame.fill, ← List.drop_eq_getElem_cons hpos, List.take_append_drop]
    have hreg' : Regular o (d + 1) (.branch id keys children) := .branch hne hlt hsep hreg hfill
    rw [← hfill'] at hreg' hs ⊢
    have hc : Sorted children[rankOf key keys].keysIn := by
      rw [Frame.keysIn_fill] at hs
      exact (List.pairwise_append.mp (List.pairwise_append.mp hs).1).2.1
    exact step d f _ hreg' hs hf hc (ih _ (List.getElem_mem hpos) hc)

end Subtree.Regular

/-! ## Keys -/

/-- What insertion of a key makes of a subtree. -/
def Growth.keysIn (g : Growth K) : List K := g.parts.flatMap Subtree.keysIn

namespace Subtree.Regular

variable [Ord K] [Std.TransOrd K] {d fresh : Nat} {key : K} {s : Subtree K} {g : Growth K}

/-- **An inserted key comes behind all keys up to it, and before all others.** -/
theorem insert_keysIn (h : s.Regular o d) (hs : Sorted s.keysIn)
    (hg : s.insert o.size fresh key = some g) : g.keysIn = insertBehind key s.keysIn := by
  revert g
  refine descent_induction key (P := fun _ s => ∀ {g : Growth K},
    s.insert o.size fresh key = some g → g.keysIn = insertBehind key s.keysIn) ?_ ?_ h hs
  · intro id keys next _ _ g hg
    rw [insert_leaf] at hg
    rcases Growth.ofLeaf_cases hg with ⟨-, rfl⟩ | ⟨-, right, separator, -, -, rfl⟩
    · simp [Growth.keysIn, Growth.parts]
    · simp only [Growth.keysIn, Growth.parts, List.flatMap_cons, List.flatMap_nil, keysIn_leaf,
        List.append_nil, List.take_append_drop]
  · intro d f c hreg hs hf _ ih g hg
    rw [insert_fill hf] at hg
    obtain ⟨gc, hgc, hgrow⟩ := Option.bind_eq_some_iff.mp hg
    have hb := hreg.bounds hs hf
    rw [Growth.keysIn, Frame.parts_grow keysIn_branch hgrow, ← Growth.keysIn, ih hgc,
      Frame.keysIn_fill, insertBehind_append hb.before hb.after]

end Subtree.Regular

/-! ## Shape -/

/-- The parts of a subtree of depth `d` are regular, and two parts are filled with the first key of
the right one for their separator. A part that stays whole is filled if it was. -/
inductive Growth.Regular (o : Order) (d : Nat) (s : Subtree K) : Growth K → Prop
  | whole {t : Subtree K} (regular : t.Regular o d) (filled : s.Filled o → t.Filled o) :
    Regular o d s (.whole t)
  | halves {left right : Subtree K} {separator : K} {fresh : Nat} (regular_left : left.Regular o d)
    (filled_left : left.Filled o) (regular_right : right.Regular o d)
    (filled_right : right.Filled o) (first_right : right.first? = some separator) :
    Regular o d s (.halves left separator right fresh)

/-- A separator is the first key of the child right behind it, and the separators behind it are those
of the children behind that one. -/
theorem Subtree.children_behind {keys : List K} {children : List (Subtree K)} {i : Nat} {separator : K}
    (hsep : keys.map some = children.tail.map first?) (hi : keys[i]? = some separator) :
    ∃ c cs, children.drop (i + 1) = c :: cs ∧ c.first? = some separator ∧
      (keys.drop (i + 1)).map some = cs.map first? := by
  have hdrop : (keys.drop i).map some = (children.drop (i + 1)).map first? := by
    rw [List.map_drop, hsep, ← List.map_drop, ← List.drop_one, List.drop_drop, Nat.add_comm]
  obtain ⟨hlt, rfl⟩ := List.getElem?_eq_some_iff.mp hi
  rw [List.drop_eq_getElem_cons hlt, List.map_cons] at hdrop
  obtain ⟨c, cs, hcs, hfirst, hrest⟩ := List.map_eq_cons_iff.mp hdrop.symm
  exact ⟨c, cs, hcs, hfirst, hrest.symm⟩

namespace Growth

theorem regular_ofLeaf {fresh : Nat} {id : NodeId} {keys : List K} {next : Option NodeId}
    {s : Subtree K} {g : Growth K} (hlen : keys.length ≤ o.size)
    (hs : s.Filled o → o.size / 2 ≤ keys.length)
    (h : ofLeaf o.size fresh id keys next = some g) : g.Regular o 0 s := by
  have := o.three_le_size
  rcases ofLeaf_cases h with ⟨hlt, rfl⟩ | ⟨hge, right, separator, -, hsep, rfl⟩
  · exact .whole (.leaf hlt) hs
  · refine .halves (.leaf ?_) ?_ (.leaf ?_) ?_ ?_
    · rw [List.length_take]; omega
    · simp only [Subtree.Filled, List.length_take]; omega
    · rw [List.length_drop]; omega
    · simp only [Subtree.Filled, List.length_drop]; omega
    · rw [Subtree.first?, Subtree.keysIn_leaf, List.head?_drop, hsep]

theorem regular_ofBranch {d fresh : Nat} {id : NodeId} {keys : List K} {children : List (Subtree K)}
    {s : Subtree K} {g : Growth K} (hne : keys ≠ []) (hlen : keys.length ≤ o.size)
    (hsep : keys.map some = children.tail.map Subtree.first?)
    (hreg : ∀ c ∈ children, c.Regular o d) (hfill : ∀ c ∈ children, c.Filled o)
    (hs : s.Filled o → (o.size + 1) / 2 ≤ children.length)
    (h : ofBranch o.size fresh id keys children = some g) : g.Regular o (d + 1) s := by
  have := o.three_le_size
  have hchildren := Subtree.length_children hne hsep
  rcases ofBranch_cases h with ⟨hlt, rfl⟩ | ⟨hge, right, separator, -, hmid, rfl⟩
  · exact .whole (.branch hne hlt hsep hreg hfill) hs
  obtain ⟨c, cs, hcs, hfirst, hrest⟩ := Subtree.children_behind hsep hmid
  refine .halves (.branch ?_ ?_ ?_ ?_ ?_) ?_ (.branch ?_ ?_ ?_ ?_ ?_) ?_ ?_
  · rw [← List.length_pos_iff, List.length_take]; omega
  · rw [List.length_take]; omega
  · rw [List.map_take, hsep, ← List.map_take, ← List.drop_one, ← List.drop_one, List.take_drop,
      Nat.add_comm]
  · exact fun c hc => hreg c (List.mem_of_mem_take hc)
  · exact fun c hc => hfill c (List.mem_of_mem_take hc)
  · simp only [Subtree.Filled, List.length_take]; omega
  · rw [← List.length_pos_iff, List.length_drop]; omega
  · rw [List.length_drop]; omega
  · rw [hcs, List.tail_cons, hrest]
  · exact fun c hc => hreg c (List.mem_of_mem_drop hc)
  · exact fun c hc => hfill c (List.mem_of_mem_drop hc)
  · simp only [Subtree.Filled, List.length_drop]; omega
  · obtain ⟨ks, hks⟩ := List.head?_eq_some_iff.mp hfirst
    rw [hcs, Subtree.first?, Subtree.keysIn_branch, List.flatMap_cons, hks]
    rfl

/-- A new root above two halves has one separator, which is the first key of the right half. -/
theorem Regular.close {d : Nat} {s root : Subtree K} {g : Growth K} (h : g.Regular o d s)
    (hg : g.close = some root) : root.Regular o (d + g.rise) := by
  have := o.three_le_size
  cases h with
  | whole regular =>
    obtain rfl := Option.some.inj hg
    exact regular
  | halves hl hlf hr hrf hsep =>
    obtain ⟨id, -, rfl⟩ := Option.map_eq_some_iff.mp hg
    refine .branch (by simp) (by simp; omega) (by simp [hsep]) (fun c hc => ?_) (fun c hc => ?_)
    · rcases List.mem_pair.mp hc with rfl | rfl
      exacts [hl, hr]
    · rcases List.mem_pair.mp hc with rfl | rfl
      exacts [hlf, hrf]

end Growth

namespace Frame

/-- Another subtree in the hole leaves the branch regular, if its first key is the one that the
separator before it repeats. -/
theorem regular_fill {d : Nat} {f : Frame K} {c c' : Subtree K} (h : (f.fill c).Regular o (d + 1))
    (hc' : c'.Regular o d) (hfilled : c'.Filled o) (hfirst : f.before ≠ [] → c'.first? = c.first?) :
    (f.fill c').Regular o (d + 1) := by
  cases h with
  | branch hne hlt hsep hreg hfill =>
    have hmem : ∀ x ∈ f.before ++ c' :: f.after, x = c' ∨ x ∈ f.before ++ c :: f.after := by
      intro x hx
      simp only [List.mem_append, List.mem_cons] at hx ⊢
      tauto
    refine .branch hne hlt ?_ (fun x hx => ?_) (fun x hx => ?_)
    · rw [hsep]
      cases hb : f.before with
      | nil => rfl
      | cons b bs => simp [hfirst (by simp [hb])]
    · rcases hmem x hx with rfl | hx
      exacts [hc', hreg x hx]
    · rcases hmem x hx with rfl | hx
      exacts [hfilled, hfill x hx]

/-- A separator that is entered is the first key of the child right behind it as well. -/
theorem separators_entered {f : Frame K} {c left right : Subtree K} {separator : K}
    (h : f.keys.map some = (f.before ++ c :: f.after).tail.map Subtree.first?)
    (hfirst : f.before ≠ [] → left.first? = c.first?) (hsep : right.first? = some separator) :
    (f.keys.take f.slot ++ separator :: f.keys.drop f.slot).map some =
      (f.before ++ left :: right :: f.after).tail.map Subtree.first? := by
  obtain ⟨hleft, hright⟩ := separators_fill h
  rw [List.map_append, List.map_cons, hleft, hright]
  cases hb : f.before with
  | nil => simp [hsep]
  | cons b bs => simp [hsep, hfirst (by simp [hb])]

theorem regular_grow {d : Nat} {f : Frame K} {c : Subtree K} {g g' : Growth K}
    (h : (f.fill c).Regular o (d + 1)) (hg : g.Regular o d c)
    (hfirst : f.before ≠ [] → g.keysIn.head? = c.first?) (hgrow : f.grow o.size g = some g') :
    g'.Regular o (d + 1) (f.fill c) := by
  cases hg with
  | @whole c' hc' hfilled =>
    obtain rfl := Option.some.inj hgrow
    have hfirst' : f.before ≠ [] → c'.first? = c.first? := fun hne => by
      rw [← hfirst hne]
      simp [Growth.keysIn, Growth.parts, Subtree.first?]
    refine .whole (regular_fill h hc' (hfilled h.of_fill.2) hfirst') fun hf => ?_
    simpa [fill, Subtree.Filled] using hf
  | @halves left right separator fresh hl hlf hr hrf hsep =>
    cases h with
    | branch hne hlt hseps hreg hfill =>
      have hfirst' : f.before ≠ [] → left.first? = c.first? := fun hb => by
        rw [← hfirst hb]
        obtain ⟨k, ks, hks⟩ := List.exists_cons_of_ne_nil (hl.keysIn_ne_nil hlf)
        simp [Growth.keysIn, Growth.parts, Subtree.first?, hks]
      have hmem : ∀ x ∈ f.before ++ left :: right :: f.after,
          x = left ∨ x = right ∨ x ∈ f.before ++ c :: f.after := by
        intro x hx
        simp only [List.mem_append, List.mem_cons] at hx ⊢
        tauto
      refine Growth.regular_ofBranch (by simp) ?_ (separators_entered hseps hfirst' hsep)
        (fun x hx => ?_) (fun x hx => ?_) ?_ hgrow
      · rw [f.length_entered]
        omega
      · rcases hmem x hx with rfl | rfl | hx
        exacts [hl, hr, hreg x hx]
      · rcases hmem x hx with rfl | rfl | hx
        exacts [hlf, hrf, hfill x hx]
      · intro hf
        simp only [fill, Subtree.Filled, List.length_append, List.length_cons] at hf ⊢
        omega

end Frame

namespace Subtree.Regular

variable [Ord K] [Std.TransOrd K] {d fresh : Nat} {key : K} {s : Subtree K} {g : Growth K}

/-- **Insertion keeps the shape**: the same depth, no full node, and none but the root less than half
full. -/
theorem insert_regular (h : s.Regular o d) (hs : Sorted s.keysIn)
    (hg : s.insert o.size fresh key = some g) : g.Regular o d s := by
  revert g
  refine descent_induction key (P := fun d s => ∀ {g : Growth K},
    s.insert o.size fresh key = some g → g.Regular o d s) ?_ ?_ h hs
  · intro id keys next hlt _ g hg
    rw [insert_leaf] at hg
    refine Growth.regular_ofLeaf ?_ ?_ hg
    · rw [length_insertBehind]; omega
    · rw [length_insertBehind, Filled]; omega
  · intro d f c hreg hs hf hc ih g hg
    rw [insert_fill hf] at hg
    obtain ⟨gc, hgc, hgrow⟩ := Option.bind_eq_some_iff.mp hg
    refine Frame.regular_grow hreg (ih hgc) (fun hne => ?_) hgrow
    -- the separator before the hole repeats a key up to the new one, which stays the first
    obtain ⟨k, hk, hle⟩ := (hreg.bounds hs hf).first hne
    rw [hreg.of_fill.1.insert_keysIn hc hgc, head?_insertBehind hk hle, hk]

/-! ## The chain of leaves -/

omit [Std.TransOrd K] in
/-- **Insertion keeps the leaves linked**, from the same first leaf to the same end: a leaf that is
cut keeps its number, names the fresh leaf as the next one, and hands its own next one on. -/
theorem insert_chained (h : s.Regular o d) (hs : Sorted s.keysIn)
    (hg : s.insert o.size fresh key = some g) {start stop : Option NodeId}
    (hc : Chained start s.leavesIn stop) : Chained start (g.parts.flatMap leavesIn) stop := by
  revert g start stop
  refine descent_induction key (P := fun _ s => ∀ {g : Growth K},
    s.insert o.size fresh key = some g → ∀ {start stop : Option NodeId},
    Chained start s.leavesIn stop → Chained start (g.parts.flatMap leavesIn) stop) ?_ ?_ h hs
  · intro id keys next _ _ g hg start stop hc
    rw [insert_leaf] at hg
    rw [leavesIn_leaf] at hc
    rcases Growth.ofLeaf_cases hg with ⟨-, rfl⟩ | ⟨-, right, separator, -, -, rfl⟩
    · simpa [Growth.parts, Chained, next?, Subtree.id] using hc
    · simpa [Growth.parts, Chained, next?, Subtree.id] using hc
  · intro d f c hreg hs hf _ ih g hg start stop hc
    rw [insert_fill hf] at hg
    obtain ⟨gc, hgc, hgrow⟩ := Option.bind_eq_some_iff.mp hg
    rw [Frame.leavesIn_fill, chained_append] at hc
    obtain ⟨mid, hc, hafter⟩ := hc
    obtain ⟨first, hbefore, hc⟩ := chained_append.mp hc
    rw [Frame.parts_grow leavesIn_branch hgrow]
    exact chained_append.mpr ⟨mid, chained_append.mpr ⟨first, hbefore, ih hgc hc⟩, hafter⟩

end Subtree.Regular

end TracedIndex
