import Mathlib.Data.List.Induction
import Mathlib.Data.List.TakeWhile
import TracedIndex.Proofs.Basic
import TracedIndex.Snapshot.Insert

/-!
# Sorted keys

Keys are compared by a total preorder: distinct keys may compare as equal.

* `Sorted`: every key is up to all keys behind it;
* `insertBehind_append`: a key is inserted into the part of a list that it belongs to;
* `sorted_insertBehind`, `insertBehind_perm`: insertion keeps the order and adds one key;
* `StableSort`; **`StableSort.insertBehind`**: keys inserted one after another come out as a stable
  sort of them; `StableSort.eq_mergeSort`: there is no other.
-/

namespace TracedIndex

variable {K : Type} [Ord K]

/-- Every key is up to all keys behind it. -/
def Sorted (ks : List K) : Prop := ks.Pairwise fun x y => (compare x y).isLE

instance (ks : List K) : Decidable (Sorted ks) := by unfold Sorted; infer_instance

/-- The keys that compare as equal to `key`, in their order. -/
def alike (key : K) (ks : List K) : List K := ks.filter fun k => compare k key == .eq

theorem alike_append (key : K) (ks ls : List K) :
    alike key (ks ++ ls) = alike key ks ++ alike key ls :=
  List.filter_append _ _

theorem Sorted.isLE_of_mem_cons [Std.ReflOrd K] {x y : K} {ks : List K} (h : Sorted (x :: ks))
    (hy : y ∈ x :: ks) : (compare x y).isLE := by
  rcases List.mem_cons.mp hy with rfl | hy
  · rw [Std.ReflOrd.compare_self]
    rfl
  · exact List.rel_of_pairwise_cons h hy

/-! ## Leading keys up to a key -/

/-- The number of leading keys up to `key`: the position at which it is inserted, and that of the child
that it belongs to. -/
def rankOf (key : K) (keys : List K) : Nat :=
  (keys.takeWhile fun s => (compare s key).isLE).length

theorem rankOf_le (key : K) (keys : List K) : rankOf key keys ≤ keys.length :=
  (List.takeWhile_prefix _).length_le

theorem take_rankOf (key : K) (keys : List K) :
    keys.take (rankOf key keys) = keys.takeWhile fun s => (compare s key).isLE :=
  (List.prefix_iff_eq_take.mp (List.takeWhile_prefix _)).symm

theorem drop_rankOf (key : K) (keys : List K) :
    keys.drop (rankOf key keys) = keys.dropWhile fun s => (compare s key).isLE := by
  have h := List.take_append_drop (rankOf key keys) keys
  rw [take_rankOf] at h
  refine List.append_cancel_left (h.trans ?_)
  exact List.takeWhile_append_dropWhile.symm

/-- **A key is inserted into the part of a list that it belongs to**: behind keys up to it, before
keys beyond it. -/
theorem insertBehind_append {key : K} {bs cs as : List K}
    (hb : ∀ b ∈ bs, (compare b key).isLE) (ha : ∀ x ∈ as.head?, ¬ (compare x key).isLE) :
    insertBehind key (bs ++ cs ++ as) = bs ++ insertBehind key cs ++ as := by
  obtain ⟨ht, hd⟩ := span_append_left (p := fun k => (compare k key).isLE) cs ha
  simp only [insertBehind, List.append_assoc, List.takeWhile_append_of_pos hb,
    List.dropWhile_append_of_pos hb, ht, hd, List.cons_append]

theorem insertBehind_perm (key : K) (ks : List K) : (insertBehind key ks).Perm (key :: ks) := by
  have h : (insertBehind key ks).Perm (key :: (ks.takeWhile (fun k => (compare k key).isLE) ++
      ks.dropWhile fun k => (compare k key).isLE)) := List.perm_middle
  rwa [List.takeWhile_append_dropWhile] at h

theorem length_insertBehind (key : K) (ks : List K) :
    (insertBehind key ks).length = ks.length + 1 :=
  (insertBehind_perm key ks).length_eq

theorem head?_insertBehind {key k : K} {ks : List K} (hk : ks.head? = some k)
    (hle : (compare k key).isLE) : (insertBehind key ks).head? = some k := by
  obtain ⟨ks', rfl⟩ : ∃ ks', ks = k :: ks' := List.head?_eq_some_iff.mp hk
  simp [insertBehind, hle]

theorem isLE_of_mem_takeWhile {ks : List K} {key k : K}
    (hk : k ∈ ks.takeWhile fun k => (compare k key).isLE) : (compare k key).isLE :=
  List.mem_takeWhile_imp (p := fun k => (compare k key).isLE) hk

variable [Std.TransOrd K]

omit [Std.TransOrd K] in
theorem isLE_of_not_isLE [Std.OrientedOrd K] {x y : K} (h : ¬ (compare x y).isLE) :
    (compare y x).isLE := by
  have h' := Std.OrientedCmp.lt_of_not_isLE h
  rw [h']
  rfl

theorem Sorted.falls {ks : List K} (h : Sorted ks) (key : K) :
    Bisect.Falls (fun k => (compare k key).isLE) ks :=
  h.imp fun hxy hy => Std.TransOrd.isLE_trans hxy hy

theorem Sorted.not_isLE_of_mem_dropWhile {ks : List K} (h : Sorted ks) {key k : K}
    (hk : k ∈ ks.dropWhile fun k => (compare k key).isLE) : ¬ (compare k key).isLE := by
  induction ks with
  | nil => simp at hk
  | cons x ks ih =>
    by_cases hx : (compare x key).isLE
    · simp only [List.dropWhile_cons, hx, if_true] at hk
      exact ih h.of_cons hk
    · simp only [List.dropWhile_cons, hx, if_false, Bool.false_eq_true] at hk
      intro hle
      rcases List.mem_cons.mp hk with rfl | hk
      · exact hx hle
      · exact hx (Std.TransOrd.isLE_trans (List.rel_of_pairwise_cons h hk) hle)

/-- Where the first key is beyond `key`, all keys are. -/
theorem Sorted.not_isLE_of_head? {ks : List K} (h : Sorted ks) {key : K}
    (hhead : ∀ k ∈ ks.head?, ¬ (compare k key).isLE) : ∀ k ∈ ks, ¬ (compare k key).isLE := by
  intro k hk
  cases ks with
  | nil => simp at hk
  | cons x ks =>
    exact fun hle => hhead x rfl (Std.TransOrd.isLE_trans (h.isLE_of_mem_cons hk) hle)

/-- **Insertion keeps keys sorted.** -/
theorem sorted_insertBehind {ks : List K} (h : Sorted ks) (key : K) :
    Sorted (insertBehind key ks) := by
  have hs : Sorted (ks.takeWhile (fun k => (compare k key).isLE) ++
      ks.dropWhile fun k => (compare k key).isLE) := by
    rwa [List.takeWhile_append_dropWhile]
  have hle : ∀ k ∈ ks.takeWhile (fun k => (compare k key).isLE), (compare k key).isLE :=
    fun _ => isLE_of_mem_takeWhile
  rw [Sorted, List.pairwise_append] at hs
  refine List.pairwise_append.mpr ⟨hs.1, ?_, ?_⟩
  · refine List.pairwise_cons.mpr ⟨fun k hk => ?_, hs.2.1⟩
    exact isLE_of_not_isLE (h.not_isLE_of_mem_dropWhile hk)
  · intro x hx y hy
    rcases List.mem_cons.mp hy with rfl | hy
    · exact hle x hx
    · exact hs.2.2 x hx y hy

/-- An inserted key comes behind the keys that compare as equal to it, and changes nothing among the
others. -/
theorem alike_insertBehind {ks : List K} (h : Sorted ks) (key k : K) :
    alike k (insertBehind key ks) = alike k (ks ++ [key]) := by
  have hd : alike k ks = alike k (ks.takeWhile fun k => (compare k key).isLE) ++
      alike k (ks.dropWhile fun k => (compare k key).isLE) := by
    rw [← alike_append, List.takeWhile_append_dropWhile]
  have hnil : compare key k = .eq → alike k (ks.dropWhile fun k => (compare k key).isLE) = [] := by
    intro hkey
    refine List.filter_eq_nil_iff.mpr fun x hx hxk => h.not_isLE_of_mem_dropWhile hx ?_
    rw [Std.TransCmp.congr_right hkey, beq_iff_eq.mp hxk]
    rfl
  by_cases hkey : compare key k = .eq
  · have hn := hnil hkey
    rw [hn, List.append_nil] at hd
    unfold alike at hn hd ⊢
    simp [insertBehind, hkey, hd, hn]
  · unfold alike at hd ⊢
    simp [insertBehind, hkey, hd]

/-! ## Stable sorting -/

/-- The keys `ls` are a stable sort of `ks`: in order, each as often as in `ks`, and those that compare
as equal to each other in the order that they have in `ks`. -/
structure StableSort (ks ls : List K) : Prop where
  sorted : Sorted ls
  perm : ls.Perm ks
  alike_eq : ∀ k, alike k ls = alike k ks

omit [Std.TransOrd K] in
theorem stableSort_nil : StableSort ([] : List K) [] :=
  ⟨List.Pairwise.nil, List.Perm.refl _, fun _ => rfl⟩

/-- **Inserting one key more keeps a stable sort.** -/
theorem StableSort.insertBehind {ks ls : List K} (h : StableSort ks ls) (key : K) :
    StableSort (ks ++ [key]) (insertBehind key ls) where
  sorted := sorted_insertBehind h.sorted key
  perm := (insertBehind_perm key ls).trans
    ((h.perm.cons key).trans (List.perm_append_singleton key ks).symm)
  alike_eq k := by
    rw [alike_insertBehind h.sorted, alike_append, alike_append, h.alike_eq]

omit [Std.TransOrd K] in
/-- Sorted lists with the same keys alike to any key, in the same order, are equal. -/
theorem Sorted.eq_of_alike [Std.ReflOrd K] [Std.OrientedOrd K] {ks ls : List K} (hk : Sorted ks)
    (hl : Sorted ls) (h : ∀ k, alike k ks = alike k ls) : ks = ls := by
  induction ks generalizing ls with
  | nil =>
    cases ls with
    | nil => rfl
    | cons y ls => have := h y; simp [alike] at this
  | cons x ks ih =>
    cases ls with
    | nil => have := h x; simp [alike] at this
    | cons y ls =>
      have hx : x ∈ y :: ls := by
        have hm : x ∈ alike x (y :: ls) := by rw [← h x]; simp [alike]
        exact (List.mem_filter.mp hm).1
      have hy : y ∈ x :: ks := by
        have hm : y ∈ alike y (x :: ks) := by rw [h y]; simp [alike]
        exact (List.mem_filter.mp hm).1
      -- each head is up to the other, so both are the first key alike to `x`
      have hxy : compare x y = .eq := by
        rcases List.mem_cons.mp hx with rfl | hx
        · exact Std.ReflOrd.compare_self
        rcases List.mem_cons.mp hy with rfl | hy
        · exact Std.ReflOrd.compare_self
        exact Std.OrientedCmp.isLE_antisymm (List.rel_of_pairwise_cons hk hy)
          (List.rel_of_pairwise_cons hl hx)
      have hhead := h x
      have hyx : compare y x = .eq := Std.OrientedCmp.eq_symm hxy
      simp only [alike, List.filter_cons, Std.ReflOrd.compare_self, hyx, beq_self_eq_true, if_true,
        List.cons.injEq] at hhead
      obtain ⟨rfl, -⟩ := hhead
      congr 1
      refine ih hk.of_cons hl.of_cons fun k => ?_
      have hkk := h k
      simp only [alike, List.filter_cons] at hkk ⊢
      split at hkk
      · exact (List.cons.inj hkk).2
      · exact hkk

theorem isLE_trans' (a b c : K) (hab : (compare a b).isLE) (hbc : (compare b c).isLE) :
    (compare a c).isLE :=
  Std.TransOrd.isLE_trans hab hbc

omit [Std.TransOrd K] in
theorem isLE_total [Std.OrientedOrd K] (a b : K) : (compare a b).isLE || (compare b a).isLE := by
  by_cases h : (compare a b).isLE
  · simp [h]
  · simp [isLE_of_not_isLE h]

theorem alike_mergeSort (ks : List K) (k : K) :
    alike k (ks.mergeSort fun x y => (compare x y).isLE) = alike k ks := by
  have hs : Sorted (alike k ks) := by
    refine List.Pairwise.imp_of_mem (R := fun _ _ => True) ?_
      (List.pairwise_of_forall fun _ _ => trivial)
    intro x y hx hy _
    have hxk : compare x k = .eq := by simpa using (List.mem_filter.mp hx).2
    have hyk : compare y k = .eq := by simpa using (List.mem_filter.mp hy).2
    rw [Std.TransCmp.congr_left hxk, Std.OrientedCmp.eq_symm hyk]
    rfl
  have hsub : (alike k ks).Sublist (ks.mergeSort fun x y => (compare x y).isLE) :=
    List.sublist_mergeSort isLE_trans' isLE_total hs List.filter_sublist
  have hsub' : (alike k ks).Sublist (alike k (ks.mergeSort fun x y => (compare x y).isLE)) := by
    have := hsub.filter fun x => compare x k == .eq
    simpa only [alike, List.filter_filter, Bool.and_self] using this
  refine (hsub'.eq_of_length ?_).symm
  exact (((List.mergeSort_perm ks _).filter _).length_eq).symm

/-- **There is one stable sort, and the library finds it.** -/
theorem StableSort.eq_mergeSort {ks ls : List K} (h : StableSort ks ls) :
    ls = ks.mergeSort fun x y => (compare x y).isLE := by
  refine h.sorted.eq_of_alike (List.pairwise_mergeSort isLE_trans' isLE_total ks) fun k => ?_
  rw [h.alike_eq, alike_mergeSort]

end TracedIndex
