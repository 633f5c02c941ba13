/-!
# Bisection of a list

A test that holds on a front part of a list and fails on the rest has a **cut**: the length of that
front part. Bisection finds it by looking at the middle element and going on in one half.

* `cut`: the cut of a test, found by halving;
* **`cut_eq_length_takeWhile`**: on a list where the test never holds again after it failed, this is
  the length of the front part on which it holds.
-/

namespace TracedIndex.Bisect

variable {α : Type}

/-- The cut of the test `p`, found by looking at the middle of the list. -/
def cut (p : α → Bool) (xs : List α) : Nat :=
  if h : 0 < xs.length then
    have hm : xs.length / 2 < xs.length := by omega
    if p xs[xs.length / 2] then
      xs.length / 2 + 1 + cut p (xs.drop (xs.length / 2 + 1))
    else
      cut p (xs.take (xs.length / 2))
  else 0
termination_by xs.length
decreasing_by all_goals grind

/-- The test `p` never holds again once it failed. -/
def Falls (p : α → Bool) (xs : List α) : Prop := xs.Pairwise fun x y => p y → p x

instance (p : α → Bool) (xs : List α) : Decidable (Falls p xs) := by unfold Falls; infer_instance

theorem takeWhile_append_of_not {p : α → Bool} {xs ys : List α} {y : α} (h : ¬ p y) :
    (xs ++ y :: ys).takeWhile p = xs.takeWhile p := by
  rw [List.takeWhile_append]
  split
  · next hl => simp [List.takeWhile_cons_of_neg h, (List.takeWhile_prefix p).eq_of_length hl]
  · rfl

/-- **Bisection finds the end of the front part on which the test holds.** -/
theorem cut_eq_length_takeWhile (p : α → Bool) (xs : List α) (h : Falls p xs) :
    cut p xs = (xs.takeWhile p).length := by
  fun_induction cut p xs with
  | case1 xs hlen hm hp ih =>
    have hsplit : xs = xs.take (xs.length / 2 + 1) ++ xs.drop (xs.length / 2 + 1) := by simp
    have hall : ∀ x ∈ xs.take (xs.length / 2 + 1), p x := by
      intro x hx
      rw [List.take_add_one, List.getElem?_eq_getElem hm] at hx
      rcases List.mem_append.mp hx with hx | hx
      · have hw := h
        rw [Falls, ← List.take_append_drop (xs.length / 2) xs, List.pairwise_append] at hw
        refine hw.2.2 x hx xs[xs.length / 2] ?_ hp
        rw [List.drop_eq_getElem_cons hm]
        exact List.mem_cons_self
      · simp only [Option.toList_some, List.mem_singleton] at hx
        exact hx ▸ hp
    rw [ih (h.sublist (List.drop_sublist _ _))]
    conv => rhs; rw [hsplit, List.takeWhile_append_of_pos hall]
    simp only [List.length_append, List.length_take]
    omega
  | case2 xs hlen hm hp ih =>
    have hsplit : xs =
        xs.take (xs.length / 2) ++ xs[xs.length / 2] :: xs.drop (xs.length / 2 + 1) := by
      rw [← List.drop_eq_getElem_cons hm, List.take_append_drop]
    rw [ih (h.sublist (List.take_sublist _ _))]
    conv => rhs; rw [hsplit, takeWhile_append_of_not hp]
  | case3 xs hlen =>
    have : xs = [] := List.length_eq_zero_iff.mp (by omega)
    simp [this]

end TracedIndex.Bisect
