import Mathlib.Data.List.Nodup
import TracedIndex.Proofs.Format.Snapshot
import TracedIndex.Proofs.Json.Results

/-!
# Objects with a flaw

An object of known fields has a **flaw** if one field that must be there is missing, one field comes twice, or the
value of one field is bad. No other field changes by that, and no value nests deeper. When an object is read field by
field, each field that was read comes once and has a value that was accepted.

* `Flawed`: one flaw somewhere in the members of an object; `Flawed.exists_badField`: it concerns one field only;
* `exists_field_of_foldlM`: what is known of a field when all members were read;
* `OnlyMismatched`: readings that fail in one way only.
-/

namespace TracedIndex

open Json Subtree

variable {α β σ : Type}

/-! ## Members with a flaw -/

/-- The second list of members is the first one with one flaw at any place: a field that must be there is missing,
a field comes once more, with any value that nests no deeper, or a field has a bad value. -/
inductive Flawed (required : List String) (Bad : String → Value → Prop) :
    List (String × Value) → List (String × Value) → Prop
  | missing {before behind : List (String × Value)} {name : String} {v : Value} (must : name ∈ required) :
    Flawed required Bad (before ++ (name, v) :: behind) (before ++ behind)
  | repeated {before behind : List (String × Value)} {name : String} {v w : Value}
    (known : (name, v) ∈ before ++ behind) (depth : w.depth ≤ v.depth) :
    Flawed required Bad (before ++ behind) (before ++ (name, w) :: behind)
  | replaced {before behind : List (String × Value)} {name : String} {v w : Value} (bad : Bad name w) :
    Flawed required Bad (before ++ (name, v) :: behind) (before ++ (name, w) :: behind)

/-- The field is missing but must be there, or comes twice, or has a bad value. -/
def BadField (required : List String) (Bad : String → Value → Prop) (name : String) (ms : List (String × Value)) :
    Prop :=
  name ∈ required ∧ field? name ms = some none ∨ field? name ms = none ∨
    ∃ v, Bad name v ∧ field? name ms = some (some v)

/-- A field that comes once, with a value that is not bad, is no bad field. -/
theorem not_badField {required : List String} {Bad : String → Value → Prop} {name : String}
    {ms : List (String × Value)} {v : Value} (h : field? name ms = some (some v)) (hv : ¬ Bad name v) :
    ¬ BadField required Bad name ms := by
  unfold BadField
  rw [h]
  rintro (⟨-, hnone⟩ | hnone | ⟨w, hw, hsome⟩)
  · cases hnone
  · cases hnone
  · cases hsome
    exact hv hw

theorem field?_append_cons_of_ne {name : String} {m : String × Value} {before behind : List (String × Value)}
    (h : m.1 ≠ name) : field? name (before ++ m :: behind) = field? name (before ++ behind) := by
  unfold field?
  rw [List.filter_append, List.filter_append, List.filter_cons_of_neg (by simpa using h)]

theorem field?_append_cons_self {name : String} {v : Value} {before behind : List (String × Value)}
    (h : ∀ m ∈ before ++ behind, m.1 ≠ name) : field? name (before ++ (name, v) :: behind) = some (some v) := by
  obtain ⟨hbefore, hbehind⟩ := List.forall_mem_append.mp h
  have hnone : before.filter (fun m => m.1 == name) = [] := by simpa using hbefore
  have hnone' : behind.filter (fun m => m.1 == name) = [] := by simpa using hbehind
  unfold field?
  rw [List.filter_append, hnone, List.filter_cons_of_pos (by simp), hnone']
  rfl

theorem field?_eq_some_none_iff {name : String} {ms : List (String × Value)} :
    field? name ms = some none ↔ ∀ m ∈ ms, m.1 ≠ name := by
  refine ⟨fun h => ?_, field?_of_ne⟩
  unfold field? at h
  split at h
  · next hnone => simpa using hnone
  · cases h
  · cases h

/-- If no name comes twice, then no other member has the name of a given one. -/
theorem ne_of_nodup {name : String} {v : Value} {before behind : List (String × Value)}
    (h : ((before ++ (name, v) :: behind).map Prod.fst).Nodup) : ∀ m ∈ before ++ behind, m.1 ≠ name := by
  rw [List.map_append, List.map_cons, List.nodup_middle] at h
  have hnot : name ∉ (before ++ behind).map Prod.fst := by
    rw [List.map_append]
    exact (List.nodup_cons.mp h).1
  rintro m hm rfl
  exact hnot (List.mem_map_of_mem hm)

/-- A field that comes once more comes twice. -/
theorem field?_repeated {name : String} {v w : Value} {before behind : List (String × Value)}
    (h : (name, v) ∈ before ++ behind) : field? name (before ++ (name, w) :: behind) = none := by
  have hmem : (name, v) ∈ (before ++ behind).filter fun m => m.1 == name :=
    List.mem_filter.mpr ⟨h, beq_self_eq_true name⟩
  have hlen : 2 ≤ ((before ++ (name, w) :: behind).filter fun m => m.1 == name).length := by
    have hpos := List.length_pos_of_mem hmem
    simp only [List.filter_append, List.length_append] at hpos ⊢
    rw [List.filter_cons_of_pos (by simp), List.length_cons]
    omega
  unfold field?
  split
  · next hnil => simp [hnil] at hlen
  · next hone => simp [hone] at hlen
  · rfl

namespace Flawed

variable {required : List String} {Bad : String → Value → Prop} {ms ms' : List (String × Value)}
  (h : Flawed required Bad ms ms')

include h

/-- **A flaw concerns one field**, and all others are as before. -/
theorem exists_badField (hnodup : (ms.map Prod.fst).Nodup) : ∃ name ∈ ms.map Prod.fst,
    BadField required Bad name ms' ∧ ∀ other, other ≠ name → field? other ms' = field? other ms := by
  cases h with
  | @missing before behind name v must =>
    have hne := ne_of_nodup hnodup
    refine ⟨name, by simp, Or.inl ⟨must, field?_of_ne hne⟩, fun other hother => ?_⟩
    exact (field?_append_cons_of_ne (m := (name, v)) hother.symm).symm
  | @repeated before behind name v w known =>
    refine ⟨name, List.mem_map_of_mem known, Or.inr (Or.inl (field?_repeated known)), fun other hother => ?_⟩
    exact field?_append_cons_of_ne (m := (name, w)) hother.symm
  | @replaced before behind name v w bad =>
    have hne := ne_of_nodup hnodup
    refine ⟨name, by simp, Or.inr (Or.inr ⟨w, bad, field?_append_cons_self hne⟩), fun other hother => ?_⟩
    rw [field?_append_cons_of_ne (m := (name, w)) hother.symm, field?_append_cons_of_ne (m := (name, v)) hother.symm]

/-- There are no other names, and no value nests deeper. -/
theorem exists_mem (hbad : ∀ name v, Bad name v → v.depth = 0) :
    ∀ m ∈ ms', ∃ m₀ ∈ ms, m.1 = m₀.1 ∧ m.2.depth ≤ m₀.2.depth := by
  have hself {l : List (String × Value)} {m : String × Value} (hm : m ∈ l) :
      ∃ m₀ ∈ l, m.1 = m₀.1 ∧ m.2.depth ≤ m₀.2.depth := ⟨m, hm, rfl, Nat.le_refl _⟩
  cases h with
  | missing must =>
    intro m hm
    exact hself (List.mem_append.mpr ((List.mem_append.mp hm).imp_right (List.mem_cons_of_mem _)))
  | @repeated before behind name v w known depth =>
    intro m hm
    rcases List.mem_append.mp hm with hm | hm
    · exact hself (List.mem_append_left _ hm)
    rcases List.mem_cons.mp hm with rfl | hm
    · exact ⟨_, known, rfl, depth⟩
    · exact hself (List.mem_append_right _ hm)
  | @replaced before behind name v w bad =>
    intro m hm
    rcases List.mem_append.mp hm with hm | hm
    · exact hself (List.mem_append_left _ hm)
    rcases List.mem_cons.mp hm with rfl | hm
    · exact ⟨(name, v), by simp, rfl, (hbad name w bad).le.trans (Nat.zero_le _)⟩
    · exact hself (List.mem_append_right _ (List.mem_cons_of_mem _ hm))

end Flawed

/-! ## Fields that were read -/

section

variable {f : σ → String × Value → Except Defect σ} {name : String} {g : σ → Option β}
  {as : Value → Except Defect β} {ms : List (String × Value)}
  (hself : ∀ s v s', f s (name, v) = .ok s' → g s = none ∧ ∃ x, as v = .ok x ∧ g s' = some x)
  (hother : ∀ m ∈ ms, m.1 ≠ name → ∀ s s', f s m = .ok s' → g s' = g s)

include hself hother

/-- When all members were read, the field either did not come, or came once, if it had not been read before; then its
value was accepted. Here `g` is what was read of the field so far. -/
theorem foldlM_field {s s' : σ} (h : ms.foldlM f s = .ok s') : field? name ms = some none ∧ g s' = g s ∨
    g s = none ∧ ∃ v x, field? name ms = some (some v) ∧ as v = .ok x ∧ g s' = some x := by
  induction ms generalizing s with
  | nil =>
    obtain rfl := Except.ok.inj h
    exact Or.inl ⟨rfl, rfl⟩
  | cons m ms ih =>
    obtain ⟨k, v⟩ := m
    obtain ⟨hm, hms⟩ := List.forall_mem_cons.mp hother
    rw [List.foldlM_cons] at h
    obtain ⟨s₁, hs₁, hrest⟩ := bind_eq_ok_iff.mp h
    by_cases hname : k = name
    · subst hname
      obtain ⟨hnone, x, hx, hget⟩ := hself s v s₁ hs₁
      rcases ih hms hrest with ⟨hfield, heq⟩ | ⟨hnone', -⟩
      · exact Or.inr ⟨hnone, v, x, field?_cons_self v (field?_eq_some_none_iff.mp hfield), hx, heq.trans hget⟩
      · rw [hget] at hnone'
        cases hnone'
    · rw [field?_cons_of_ne hname, ← hm hname s s₁ hs₁]
      exact ih hms hrest

/-- **A field that was read comes once, and its value was accepted.** -/
theorem exists_field_of_foldlM {s s' : σ} (h : ms.foldlM f s = .ok s') (hstart : g s = none) {x : β}
    (hx : g s' = some x) : ∃ v, field? name ms = some (some v) ∧ as v = .ok x := by
  rcases foldlM_field hself hother h with ⟨-, heq⟩ | ⟨-, v, y, hfield, hv, hy⟩
  · rw [hx, hstart] at heq
    cases heq
  · rw [hx] at hy
    obtain rfl := Option.some.inj hy
    exact ⟨v, hfield, hv⟩

end

/-- A field that must not come twice was not read before. -/
theorem once_eq_ok_iff {old : Option α} {y : Except Defect β} {x : β} :
    once old y = .ok x ↔ old = none ∧ y = .ok x := by
  unfold once
  cases old <;> simp

theorem orMismatched_eq_ok_iff {o : Option α} {x : α} : orMismatched o = .ok x ↔ o = some x := by
  cases o <;> simp [orMismatched]

theorem asScalar_eq_ok_iff {f : Scalar → Option α} {v : Value} {x : α} :
    asScalar f v = .ok x ↔ ∃ s, v = .scalar s ∧ f s = some x := by
  cases v <;> simp [asScalar, orMismatched_eq_ok_iff]

/-! ## Readings that fail in one way only -/

/-- The reading succeeds, or the text is of another kind. -/
def OnlyMismatched (y : Except Defect α) : Prop := ∀ d, y = .error d → d = .mismatched

namespace OnlyMismatched

variable {y : Except Defect α}

theorem eq_error (h : OnlyMismatched y) (hne : ∀ x, y ≠ .ok x) : y = .error .mismatched := by
  cases y with
  | error d => rw [h d rfl]
  | ok x => exact absurd rfl (hne x)

theorem ok (x : α) : OnlyMismatched (.ok x) := nofun

theorem mismatched : OnlyMismatched (.error .mismatched : Except Defect α) := by
  rintro d ⟨⟩
  rfl

theorem bind (h : OnlyMismatched y) {f : α → Except Defect β} (hf : ∀ x, OnlyMismatched (f x)) :
    OnlyMismatched (y.bind f) := by
  cases y with
  | error e =>
    obtain rfl := h e rfl
    exact mismatched
  | ok x => exact hf x

theorem map (h : OnlyMismatched y) (f : α → β) : OnlyMismatched (y.map f) := by
  cases y with
  | error e =>
    obtain rfl := h e rfl
    exact mismatched
  | ok x => exact ok (f x)

theorem once (h : OnlyMismatched y) (old : Option β) : OnlyMismatched (once old y) := by
  unfold Json.once
  split
  · exact mismatched
  · exact h

theorem orMismatched (o : Option α) : OnlyMismatched (orMismatched o) := by
  cases o with
  | none => exact mismatched
  | some x => exact ok x

theorem asScalar (f : Scalar → Option α) (v : Value) : OnlyMismatched (asScalar f v) := by
  cases v with
  | scalar s => exact orMismatched (f s)
  | array | object => exact mismatched

theorem foldlM {ι : Type} {f : σ → ι → Except Defect σ} {is : List ι}
    (h : ∀ i ∈ is, ∀ s, OnlyMismatched (f s i)) (s : σ) : OnlyMismatched (is.foldlM f s) := by
  induction is generalizing s with
  | nil => exact ok s
  | cons i is ih =>
    obtain ⟨hi, his⟩ := List.forall_mem_cons.mp h
    rw [List.foldlM_cons]
    exact (hi s).bind fun s' => ih his s'

end OnlyMismatched

end TracedIndex
