import Mathlib.Data.List.InsertIdx

/-!
# Lists, and steps that may fail

A **step** gives a value or fails; steps are taken one after another, or one for each element of a list.

* `bind_eq_ok_iff`, `map_eq_ok_iff`: when two steps, or a step and a change of its value, end well;
* `bind_eq_map`, `foldlM_eq_map`, `mapM_eq_map`: a change that all steps go along with;
* `filterM_eq`, `forM_eq`, `mapM_map_eq_pure`, `mapM_of_zip`: steps along a list that all end well;
* `mapM_eq_none_of_mem`: a step along a list that fails;
* `insertIdx_eq_take_append`, `span_append_left`, `lookup_cons_eq`, `eq_of_map_eq`: lists.
-/

namespace TracedIndex

/-! ## Two steps -/

section

variable {ε α β : Type}

theorem ok_bind (x : α) (f : α → Except ε β) : (Except.ok x >>= f) = f x := rfl

/-- Two steps end well if the first one does, and the second one does on what the first one gives. -/
theorem bind_eq_ok_iff {x : Except ε α} {f : α → Except ε β} {b : β} :
    x.bind f = .ok b ↔ ∃ a, x = .ok a ∧ f a = .ok b := by
  cases x <;> simp [Except.bind]

theorem map_eq_ok_iff {x : Except ε α} {f : α → β} {b : β} : x.map f = .ok b ↔ ∃ a, x = .ok a ∧ f a = b := by
  cases x <;> simp [Except.map]

/-- A step whose result is known to pass a test ends well. -/
theorem exists_ok_of_any {x : Except ε α} {p : α → Bool} (h : x.toOption.any p) : ∃ a, x = .ok a ∧ p a := by
  cases x with
  | error => cases h
  | ok a => exact ⟨a, rfl, h⟩

/-- A change that both steps of a sequence go along with. -/
theorem bind_eq_map {α' β' : Type} {φ : α → α'} {ψ : β → β'} {x : Except ε α} {x' : Except ε α'}
    {g : α → Except ε β} {g' : α' → Except ε β'} (hx : x' = x.map φ)
    (hg : ∀ a, g' (φ a) = (g a).map ψ) : x'.bind g' = (x.bind g).map ψ := by
  cases x with
  | error e => rw [hx]; rfl
  | ok a => rw [hx]; exact hg a

end

/-! ## Steps along a list -/

section

variable {ε α β ι : Type}

/-- A change that every step along a list goes along with. -/
theorem foldlM_eq_map {φ : α → β} {g : α → ι → Except ε α} {g' : β → ι → Except ε β}
    (hg : ∀ a i, g' (φ a) i = (g a i).map φ) (is : List ι) (a : α) :
    is.foldlM g' (φ a) = (is.foldlM g a).map φ := by
  induction is generalizing a with
  | nil => rfl
  | cons i is ih => exact bind_eq_map (hg a i) ih

theorem mapM_eq_map {φ : α → β} {g : ι → Except ε α} {g' : ι → Except ε β}
    (hg : ∀ i, g' i = (g i).map φ) (is : List ι) :
    is.mapM g' = (is.mapM g).map (List.map φ) := by
  induction is with
  | nil => rfl
  | cons i is ih =>
    rw [List.mapM_cons, List.mapM_cons]
    exact bind_eq_map (hg i) fun a => bind_eq_map ih fun as => rfl

theorem filterM_eq {f : α → Except ε Bool} {g : α → Bool} {xs : List α}
    (h : ∀ x ∈ xs, f x = .ok (g x)) : xs.filterM f = .ok (xs.filter g) := by
  have haux : ∀ acc : List α, xs.filterAuxM f acc = .ok ((xs.filter g).reverse ++ acc) := by
    induction xs with
    | nil => exact fun acc => rfl
    | cons x xs ih =>
      intro acc
      rw [List.filterAuxM, h x List.mem_cons_self]
      have hxs := ih fun y hy => h y (List.mem_cons_of_mem _ hy)
      simp only [bind, Except.bind, hxs]
      cases hg : g x <;> simp [hg]
  rw [List.filterM, haux]
  simp [bind, Except.bind, pure, Except.pure]

/-- What a filter keeps passes its test. -/
theorem eq_ok_of_mem_filterM {f : α → Except ε Bool} {xs ys : List α}
    (h : xs.filterM f = .ok ys) {y : α} (hy : y ∈ ys) : f y = .ok true := by
  have haux : ∀ (xs acc zs : List α), xs.filterAuxM f acc = .ok zs → y ∈ zs →
      y ∈ acc ∨ f y = .ok true := by
    intro xs
    induction xs with
    | nil =>
      intro acc zs hzs hy
      exact .inl (Except.ok.inj hzs ▸ hy)
    | cons x xs ih =>
      intro acc zs hzs hy
      simp only [List.filterAuxM, bind, bind_eq_ok_iff] at hzs
      obtain ⟨b, hb, hzs⟩ := hzs
      rcases ih _ zs hzs hy with hacc | htrue
      · cases b with
        | false => exact .inl hacc
        | true => exact (List.mem_cons.mp hacc).symm.imp_right fun e => (congrArg f e).trans hb
      · exact .inr htrue
  simp only [List.filterM, bind, bind_eq_ok_iff] at h
  obtain ⟨zs, hzs, h⟩ := h
  obtain rfl := Except.ok.inj h
  exact (haux xs [] zs hzs (List.mem_reverse.mp hy)).resolve_left List.not_mem_nil

theorem forM_eq {f : α → Except ε Unit} {xs : List α} (h : ∀ x ∈ xs, f x = .ok ()) :
    xs.forM f = .ok () := by
  induction xs with
  | nil => rfl
  | cons x xs ih =>
    rw [List.forM_eq_forM, List.forM_cons, h x List.mem_cons_self]
    exact ih fun y hy => h y (List.mem_cons_of_mem _ hy)

/-- Elements that are all given back. -/
theorem mapM_map_eq_pure {m : Type → Type} [Monad m] [LawfulMonad m] {g : α → β} {f : β → m α}
    {xs : List α} (h : ∀ x ∈ xs, f (g x) = pure x) : (xs.map g).mapM f = pure xs := by
  induction xs with
  | nil => rfl
  | cons x xs ih =>
    rw [List.map_cons, List.mapM_cons, h x List.mem_cons_self,
      ih fun y hy => h y (List.mem_cons_of_mem _ hy)]
    simp

/-- What the elements stand for, one by one. -/
theorem mapM_of_zip {f : β → Option α} {xs : List α} {ys : List β} (hlen : xs.length = ys.length)
    (h : ∀ p ∈ xs.zip ys, f p.2 = some p.1) : ys.mapM f = some xs := by
  induction xs generalizing ys with
  | nil => rw [List.length_eq_zero_iff.mp hlen.symm]; rfl
  | cons x xs ih =>
    obtain ⟨y, ys, rfl⟩ := List.exists_cons_of_length_eq_add_one hlen.symm
    obtain ⟨hy, hys⟩ := List.forall_mem_cons.mp h
    rw [List.mapM_cons, hy, ih (Nat.succ.inj hlen) hys]
    rfl

theorem mapM_eq_none_of_mem {f : α → Option β} {xs : List α} {x : α} (hx : x ∈ xs)
    (h : f x = none) : xs.mapM f = none := by
  induction xs with
  | nil => cases hx
  | cons y ys ih =>
    rw [List.mapM_cons]
    rcases List.mem_cons.mp hx with rfl | hx
    · rw [h]
      rfl
    · rw [ih hx]
      cases f y <;> rfl

end

/-! ## Lists -/

section

variable {α β : Type}

theorem insertIdx_eq_take_append {xs : List α} {i : Nat} (h : i ≤ xs.length) (x : α) :
    xs.insertIdx i x = xs.take i ++ x :: xs.drop i := by
  induction i generalizing xs with
  | zero => simp
  | succ i ih =>
    cases xs with
    | nil => simp at h
    | cons y ys =>
      have hi : i ≤ ys.length := by simpa using h
      simp [ih hi]

/-- A test that fails on the first element of a tail stops within the front. -/
theorem span_append_left {p : α → Bool} (cs : List α) {as : List α} (ha : ∀ x ∈ as.head?, ¬ p x) :
    (cs ++ as).takeWhile p = cs.takeWhile p ∧ (cs ++ as).dropWhile p = cs.dropWhile p ++ as := by
  induction cs with
  | nil =>
    cases as with
    | nil => simp
    | cons x as => simp [List.takeWhile_cons_of_neg (ha x rfl), List.dropWhile_cons_of_neg (ha x rfl)]
  | cons c cs ih =>
    by_cases hc : p c
    · simp [hc, ih]
    · simp [hc]

theorem lookup_cons_eq (name : String) (e : String × β) (es : List (String × β)) :
    (e :: es).lookup name = if name = e.1 then some e.2 else es.lookup name := by
  rw [List.lookup_cons]
  by_cases hname : name = e.1
  · rw [if_pos hname, beq_iff_eq.mpr hname]
  · rw [if_neg hname, beq_false_of_ne hname]

theorem eq_of_map_eq {f : α → β} {xs ys : List α} (h : xs.map f = ys.map f)
    (hf : ∀ x ∈ xs, ∀ y ∈ ys, f x = f y → x = y) : xs = ys := by
  have hlen : xs.length = ys.length := by simpa using congrArg List.length h
  refine List.ext_getElem hlen fun i hx hy => ?_
  refine hf _ (List.getElem_mem hx) _ (List.getElem_mem hy) ?_
  have := List.getElem_of_eq h (by simpa using hx)
  simpa using this

end

end TracedIndex
