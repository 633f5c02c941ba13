import TracedIndex.Proofs.Subtree.Shape

/-!
# Separators are first keys

A separator is made as a copy of the first key of a leaf, and is moved up when a branch is split. So, read
in order through all branches of a regular subtree, the separators are the first keys of its leaves, the
leftmost one apart, in whichever branch each of them has come to be.

* `Regular.leavesIn_eq_cons`: the first leaf begins with the first key;
* **`Regular.separators_eq`**: the separators and the first keys of the leaves;
* `Regular.exists_child`: the separators of one branch and the first keys of its children.
-/

namespace TracedIndex.Subtree

variable {K : Type} {o : Order} {d : Nat}

@[simp]
theorem separators_leaf (id : NodeId) (keys : List K) (next : Option NodeId) :
    (leaf id keys next).separators = [] := by
  rw [separators]

@[simp]
theorem separators_branch (id : NodeId) (keys : List K) (children : List (Subtree K)) :
    (branch id keys children).separators = separatorsAmong keys children := by
  rw [separators]

/-- The first keys of some nodes, where there are any. -/
def firstKeys (ss : List (Subtree K)) : List (Option K) := ss.map fun s => s.keys.head?

namespace Regular

/-- A filled subtree begins with the first key of its first leaf. -/
theorem leavesIn_eq_cons {s : Subtree K} (h : s.Regular o d) (hf : s.Filled o) :
    ∃ l ls, s.leavesIn = l :: ls ∧ l.keys.head? = s.first? := by
  induction h with
  | @leaf id keys next => exact ⟨.leaf id keys next, [], by simp, by rw [first?, keysIn_leaf]; rfl⟩
  | @branch d id keys children hne _ hsep hreg hfill ih =>
    have hlen := length_children hne hsep
    obtain ⟨c, cs, rfl⟩ := List.exists_cons_of_length_pos (l := children) (by omega)
    have hc : c.keysIn ≠ [] := (hreg c List.mem_cons_self).keysIn_ne_nil (hfill c List.mem_cons_self)
    obtain ⟨l, ls, hls, hl⟩ := ih c List.mem_cons_self (hfill c List.mem_cons_self)
    refine ⟨l, ls ++ cs.flatMap leavesIn, ?_, ?_⟩
    · rw [leavesIn_branch, List.flatMap_cons, hls, List.cons_append]
    · rw [hl, first?, first?, keysIn_branch, List.flatMap_cons, List.head?_append_of_ne_nil _ hc]

/-- The leaves of a filled subtree and some more begin with the first key of the subtree. -/
theorem firstKeys_append {s : Subtree K} (h : s.Regular o d) (hf : s.Filled o) (ls : List (Subtree K)) :
    firstKeys (s.leavesIn ++ ls) = s.first? :: firstKeys (s.leavesIn ++ ls).tail ∧
      firstKeys (s.leavesIn ++ ls).tail = firstKeys s.leavesIn.tail ++ firstKeys ls := by
  obtain ⟨m, ms, hms, hm⟩ := h.leavesIn_eq_cons hf
  simp [firstKeys, hms, hm]

/-- Between the separators of one child and those of the next stands the first key of the next one. -/
theorem separatorsAmong_eq {keys : List K} {c : Subtree K} {cs : List (Subtree K)}
    (hreg : ∀ x ∈ c :: cs, x.Regular o d) (hfill : ∀ x ∈ c :: cs, x.Filled o)
    (hsep : keys.map some = cs.map first?)
    (ih : ∀ x ∈ c :: cs, x.separators.map some = firstKeys x.leavesIn.tail) :
    (separatorsAmong keys (c :: cs)).map some = firstKeys ((c :: cs).flatMap leavesIn).tail := by
  induction cs generalizing keys c with
  | nil =>
    obtain rfl := List.map_eq_nil_iff.mp hsep
    simpa [separatorsAmong] using ih c List.mem_cons_self
  | cons c' cs ihcs =>
    have hmem : ∀ x ∈ c' :: cs, x ∈ c :: c' :: cs := fun x hx => List.mem_cons_of_mem _ hx
    have hc' := List.mem_cons_self (a := c') (l := cs)
    obtain ⟨k, ks, rfl, hk, hks⟩ := List.map_eq_cons_iff.mp hsep
    have hrest := ihcs (fun x hx => hreg x (hmem x hx)) (fun x hx => hfill x (hmem x hx)) hks
      fun x hx => ih x (hmem x hx)
    have hnext := ((hreg c' (hmem c' hc')).firstKeys_append (hfill c' (hmem c' hc'))
      (cs.flatMap leavesIn)).1
    have hfront := ((hreg c List.mem_cons_self).firstKeys_append (hfill c List.mem_cons_self)
      ((c' :: cs).flatMap leavesIn)).2
    calc (separatorsAmong (k :: ks) (c :: c' :: cs)).map some
        = c.separators.map some ++ some k :: (separatorsAmong ks (c' :: cs)).map some := by
          rw [separatorsAmong]
          simp
      _ = firstKeys c.leavesIn.tail ++ c'.first? :: firstKeys ((c' :: cs).flatMap leavesIn).tail := by
          rw [ih c List.mem_cons_self, hk, hrest]
      _ = firstKeys c.leavesIn.tail ++ firstKeys ((c' :: cs).flatMap leavesIn) := by
          rw [List.flatMap_cons, hnext]
      _ = firstKeys ((c :: c' :: cs).flatMap leavesIn).tail := hfront.symm

/-- **The separators of a subtree, in order, are the first keys of its leaves, the leftmost one apart.** -/
theorem separators_eq {s : Subtree K} (h : s.Regular o d) :
    s.separators.map some = firstKeys s.leavesIn.tail := by
  induction h with
  | leaf => simp [firstKeys]
  | @branch d id keys children hne _ hsep hreg hfill ih =>
    have hlen := length_children hne hsep
    obtain ⟨c, cs, rfl⟩ := List.exists_cons_of_length_pos (l := children) (by omega)
    rw [separators_branch, leavesIn_branch]
    exact separatorsAmong_eq hreg hfill hsep ih

/-- There is one separator fewer than there are leaves. -/
theorem length_separators {s : Subtree K} (h : s.Regular o d) :
    s.separators.length = s.leavesIn.length - 1 := by
  have hlen := congrArg List.length h.separators_eq
  simpa [firstKeys] using hlen

/-- Each separator of a branch is the first key of the child behind it. -/
theorem exists_child {id : NodeId} {keys : List K} {children : List (Subtree K)}
    (h : (Subtree.branch id keys children).Regular o d) {i : Nat} {k : K} (hk : keys[i]? = some k) :
    ∃ c, children[i + 1]? = some c ∧ c.first? = some k := by
  cases h with
  | branch _ _ hsep _ _ =>
    have hi : (children.tail.map first?)[i]? = some (some k) := by rw [← hsep, List.getElem?_map, hk]; rfl
    rw [List.getElem?_map, Option.map_eq_some_iff, List.getElem?_tail] at hi
    exact hi

end Regular

end TracedIndex.Subtree
