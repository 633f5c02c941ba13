import TracedIndex.Proofs.Json.Written

/-!
# What a text shows of a value

There are no JSON numbers for infinities and NaN, and they are written as `null`. So the text of a value that
holds one spells another value, the one that the text **shows**. It has as many arrays and objects in one
another. What it has in the place of a finite number depends on what the text of that number is read as.

* `Scalar.shownAs`, `Value.shownAs`: the value with `f x` in place of each finite number `x`, and with `null` in
  place of each number that is not finite; `Value.depth_shownAs`: its depth;
* `Scalar.spelled_real_shownAs`: the text of a number;
* `Value.shown`: the value with `null` in place of each number that is not finite; `Value.write_shown`: it has the
  same text;
* `Number.AllReadBack`: some numbers that are read back.
-/

namespace TracedIndex.Json

open Decimal

variable {f : Binary64 → Binary64}

/-! ## Scalars -/

/-- What the text of a scalar shows, where that of a finite number `x` is read as `f x`: `null` for a number that is
not finite. -/
def Scalar.shownAs (f : Binary64 → Binary64) : Scalar → Scalar
  | number (.real x) => if x.isFinite then number (.real (f x)) else null
  | s => s

theorem Scalar.shownAs_of_isFinite {x : Binary64} (h : x.isFinite) :
    (number (.real x)).shownAs f = number (.real (f x)) := if_pos h

theorem Scalar.shownAs_of_not_isFinite {x : Binary64} (h : ¬ x.isFinite) :
    (number (.real x)).shownAs f = null := if_neg h

theorem Number.write_of_not_isFinite {x : Binary64} (h : ¬ x.isFinite) :
    (real x).write = Scalar.null.write := by
  have hle : Binary64.infiniteMagnitude ≤ x.magnitude := by simpa [Binary64.isFinite] using h
  rw [write, Style.write]
  by_cases hnan : x.isNaN
  · rw [if_pos hnan]
    rfl
  · have hinf : x.isInfinite := by
      rw [Binary64.isNaN, decide_eq_true_eq] at hnan
      rw [Binary64.isInfinite, beq_iff_eq]
      omega
    rw [if_neg hnan, if_pos hinf]
    cases x.negative <;> rfl

theorem Scalar.write_shownAs_id (s : Scalar) : (s.shownAs id).write = s.write := by
  unfold shownAs
  split
  · split
    · rfl
    · next h => exact (Number.write_of_not_isFinite h).symm
  · rfl

/-- The finite ones among some numbers are read back to the last place. -/
def Number.AllReadBack (xs : List Binary64) : Prop := ∀ x ∈ xs, x.isFinite → ReadsBack x

instance (xs : List Binary64) : Decidable (Number.AllReadBack xs) := by
  unfold Number.AllReadBack
  infer_instance

/-- The text of a number spells what it shows: the number that it is read as if it is finite, and else `null`. -/
theorem Scalar.spelled_real_shownAs {x : Binary64} (h : x.isFinite → Number.ReadsAs x (f x)) :
    ((number (.real x)).shownAs f).Spelled (number (.real x)).write := by
  by_cases hx : x.isFinite
  · rw [shownAs_of_isFinite hx]
    exact spelled_real (h hx)
  · rw [shownAs_of_not_isFinite hx, show (number (.real x)).write = _ from Number.write_of_not_isFinite hx]
    exact spelled_null

/-! ## Values -/

namespace Value

mutual

/-- What the text of a value shows, where that of a finite number `x` is read as `f x`. -/
def shownAs (f : Binary64 → Binary64) : Value → Value
  | scalar s => scalar (s.shownAs f)
  | array vs => array (elementsShownAs f vs)
  | object ms => object (membersShownAs f ms)

def elementsShownAs (f : Binary64 → Binary64) : List Value → List Value
  | [] => []
  | v :: vs => shownAs f v :: elementsShownAs f vs

def membersShownAs (f : Binary64 → Binary64) : List (String × Value) → List (String × Value)
  | [] => []
  | (k, v) :: ms => (k, shownAs f v) :: membersShownAs f ms

end

theorem elementsShownAs_eq (vs : List Value) : elementsShownAs f vs = vs.map (shownAs f) := by
  induction vs with
  | nil => rfl
  | cons v vs ih => rw [elementsShownAs, ih, List.map_cons]

theorem membersShownAs_eq (ms : List (String × Value)) :
    membersShownAs f ms = ms.map fun m => (m.1, m.2.shownAs f) := by
  induction ms with
  | nil => rfl
  | cons m ms ih => rw [membersShownAs, ih, List.map_cons]

@[simp]
theorem shownAs_scalar (s : Scalar) : (scalar s).shownAs f = scalar (s.shownAs f) := by rw [shownAs]

@[simp]
theorem shownAs_ofNat (n : Nat) : (ofNat n).shownAs f = ofNat n := shownAs_scalar _

@[simp]
theorem shownAs_ofText (s : String) : (ofText s).shownAs f = ofText s := shownAs_scalar _

@[simp]
theorem shownAs_array (vs : List Value) : (array vs).shownAs f = array (vs.map (shownAs f)) := by
  rw [shownAs, elementsShownAs_eq]

@[simp]
theorem shownAs_object (ms : List (String × Value)) :
    (object ms).shownAs f = object (ms.map fun m => (m.1, m.2.shownAs f)) := by
  rw [shownAs, membersShownAs_eq]

mutual

theorem depth_shownAs : ∀ v : Value, (v.shownAs f).depth = v.depth
  | scalar s => by rw [shownAs, depth, depth]
  | array vs => by rw [shownAs, depth, depth, depthOfElements_shownAs vs]
  | object ms => by rw [shownAs, depth, depth, depthOfMembers_shownAs ms]

theorem depthOfElements_shownAs : ∀ vs : List Value,
    depthOfElements (elementsShownAs f vs) = depthOfElements vs
  | [] => rfl
  | v :: vs => by
    rw [elementsShownAs, depthOfElements, depthOfElements, depth_shownAs v, depthOfElements_shownAs vs]

theorem depthOfMembers_shownAs : ∀ ms : List (String × Value),
    depthOfMembers (membersShownAs f ms) = depthOfMembers ms
  | [] => rfl
  | (k, v) :: ms => by
    rw [membersShownAs, depthOfMembers, depthOfMembers, depth_shownAs v, depthOfMembers_shownAs ms]

end

/-! ## The numbers themselves -/

/-- The value with `null` in place of each number that is not finite. -/
def shown : Value → Value := shownAs id

mutual

theorem write_shownAs_id : ∀ v : Value, (v.shownAs id).write = v.write
  | scalar s => by rw [shownAs, write, write, s.write_shownAs_id]
  | array vs => by rw [shownAs, write, write, writeElements_shownAs_id vs]
  | object ms => by rw [shownAs, write, write, writeMembers_shownAs_id ms]

theorem writeElements_shownAs_id : ∀ vs : List Value, writeElements (elementsShownAs id vs) = writeElements vs
  | [] => rfl
  | [v] => by rw [elementsShownAs, elementsShownAs, writeElements, writeElements, write_shownAs_id v]
  | v :: w :: vs => by
    have hrest := writeElements_shownAs_id (w :: vs)
    rw [elementsShownAs] at hrest
    rw [elementsShownAs, elementsShownAs, writeElements, writeElements, write_shownAs_id v, hrest]

theorem writeMembers_shownAs_id : ∀ ms : List (String × Value),
    writeMembers (membersShownAs id ms) = writeMembers ms
  | [] => rfl
  | [(k, v)] => by rw [membersShownAs, membersShownAs, writeMembers, writeMembers, write_shownAs_id v]
  | (k, v) :: (l, w) :: ms => by
    have hrest := writeMembers_shownAs_id ((l, w) :: ms)
    rw [membersShownAs] at hrest
    rw [membersShownAs, membersShownAs, writeMembers, writeMembers, write_shownAs_id v, hrest]

end

/-- **With `null` in place of each number that is not finite, a value has the same text.** -/
theorem write_shown (v : Value) : v.shown.write = v.write := v.write_shownAs_id

end Value

end TracedIndex.Json
