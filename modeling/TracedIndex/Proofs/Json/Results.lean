import TracedIndex.Json.Record
import TracedIndex.Proofs.Basic
import TracedIndex.Proofs.Binary64.Rounding

/-!
# What readers can give

Whatever a text is, what a reader gives has the properties that its parts have: numbers are finite, and
values nest no more arrays and objects than allowed.

* `Reader.Ensures`, `Reader.Ensures.of_parse`: every value that the reader gives has a property;
* `readArray_ensures`, `readObject_ensures`, `readRecord_ensures`: from parts to wholes;
* `Number.isFinite_of_read`, `readAs_ensures`: scalars;
* **`Value.read_ensures`**: values of a limited depth.
-/

namespace TracedIndex.Json

variable {α β κ σ : Type} {P : α → Prop}

/-- Whatever the text, a value that the reader gives has the property. -/
def Reader.Ensures (r : Reader α) (P : α → Prop) : Prop :=
  ∀ fuel text x rest, r fuel text = .ok (x, rest) → P x

theorem Reader.Ensures.of_parse {r : Reader α} (h : r.Ensures P) {text : String} {x : α}
    (hx : r.parse text = .ok x) : P x := by
  obtain ⟨⟨y, rest⟩, hy, hx⟩ := bind_eq_ok_iff.mp hx
  dsimp only at hx
  split at hx
  · rw [← Except.ok.inj hx]
    exact h _ _ _ _ hy
  · cases hx

theorem Reader.Ensures.afterColon {r : Reader α} (h : r.Ensures P) : r.afterColon.Ensures P := by
  intro fuel text x rest hx
  unfold Reader.afterColon at hx
  split at hx
  · cases hx
  · split at hx
    · exact h _ _ _ _ hx
    · cases hx

theorem Reader.Ensures.readOnce {r : Reader α} (h : r.Ensures P) (old : Option β) :
    (readOnce old r).Ensures P := by
  intro fuel text x rest hx
  unfold Json.readOnce at hx
  split at hx
  · cases hx
  · exact h.afterColon _ _ _ _ hx

/-- A field that is added to those read before. -/
theorem Reader.Ensures.collect {r : Reader β} {Q : β → Prop} {I : σ → Prop} (h : r.Ensures Q)
    (old : Option α) (add : β → σ) (hadd : ∀ x, Q x → I (add x)) :
    Reader.Ensures (fun fuel text => do
      let (x, rest) ← Json.readOnce old r fuel text
      pure (add x, rest)) I := by
  intro fuel text s rest hs
  obtain ⟨⟨x, t⟩, hx, hs⟩ := bind_eq_ok_iff.mp hs
  obtain ⟨rfl, -⟩ := Prod.mk.inj (Except.ok.inj hs)
  exact hadd x (h.readOnce old _ _ _ _ hx)

theorem Reader.Ensures.filterMap {r : Reader α} (h : r.Ensures P) {f : α → Option β} {Q : β → Prop}
    (hf : ∀ x y, P x → f x = some y → Q y) : (r.filterMap f).Ensures Q := by
  intro fuel text y rest hy
  obtain ⟨⟨x, t⟩, hx, hy⟩ := bind_eq_ok_iff.mp hy
  cases hfx : f x with
  | none => simp only [hfx] at hy; cases hy
  | some z =>
    simp only [hfx] at hy
    obtain ⟨rfl, -⟩ := Prod.mk.inj (Except.ok.inj hy)
    exact hf x z (h _ _ _ _ hx) hfx

/-! ## Arrays -/

theorem readElements_ensures {r : Reader α} (h : r.Ensures P) (fuel steps : Nat) (text : List Char)
    (xs : List α) (rest : List Char) (hxs : readElements r fuel steps text = .ok (xs, rest)) :
    ∀ x ∈ xs, P x := by
  induction steps generalizing text xs rest with
  | zero => cases hxs
  | succ steps ih =>
    obtain ⟨⟨x, t⟩, hx, hxs⟩ := bind_eq_ok_iff.mp hxs
    have hP := h _ _ _ _ hx
    dsimp only at hxs
    split at hxs
    · cases hxs
    split at hxs
    · obtain ⟨rfl, -⟩ := Prod.mk.inj (Except.ok.inj hxs)
      exact List.forall_mem_singleton.mpr hP
    split at hxs
    · obtain ⟨⟨ys, t'⟩, hys, hxs⟩ := bind_eq_ok_iff.mp hxs
      obtain ⟨rfl, -⟩ := Prod.mk.inj (Except.ok.inj hxs)
      exact List.forall_mem_cons.mpr ⟨hP, ih _ _ _ hys⟩
    · cases hxs

theorem readArray_ensures {r : Reader α} (h : r.Ensures P) :
    (readArray r).Ensures fun xs => ∀ x ∈ xs, P x := by
  intro fuel text xs rest hxs
  unfold readArray at hxs
  split at hxs
  · cases hxs
  split at hxs
  · obtain ⟨rfl, -⟩ := Prod.mk.inj (Except.ok.inj hxs)
    nofun
  · exact readElements_ensures h _ _ _ _ _ hxs

theorem nextElement_ensures {r : Reader α} (h : r.Ensures P) (first : Bool) :
    (nextElement first r).Ensures P := by
  intro fuel text x rest hx
  unfold nextElement at hx
  repeat' split at hx
  all_goals first | cases hx | exact h _ _ _ _ hx

/-! ## Objects -/

theorem readMembers_ensures {name : Reader κ} {member : κ → σ → Reader σ} {I : σ → Prop}
    (h : ∀ k s, I s → (member k s).Ensures I) (fuel steps : Nat) (s : σ) (text : List Char) (hs : I s)
    (s' : σ) (rest : List Char) (hs' : readMembers name member fuel steps s text = .ok (s', rest)) :
    I s' := by
  induction steps generalizing s text with
  | zero => cases hs'
  | succ steps ih =>
    unfold readMembers at hs'
    split at hs'
    · cases hs'
    split at hs'
    · cases hs'
    obtain ⟨⟨k, t⟩, -, hs'⟩ := bind_eq_ok_iff.mp hs'
    obtain ⟨⟨s₁, t₁⟩, hs₁, hs'⟩ := bind_eq_ok_iff.mp hs'
    have hI := h k s hs _ _ _ _ hs₁
    dsimp only at hs'
    split at hs'
    · cases hs'
    split at hs'
    · obtain ⟨rfl, -⟩ := Prod.mk.inj (Except.ok.inj hs')
      exact hI
    split at hs'
    · exact ih s₁ _ hI hs'
    · cases hs'

/-- What holds at the start and is kept by every member holds in the end. -/
theorem readObject_ensures {name : Reader κ} {member : κ → σ → Reader σ} {I : σ → Prop} {s : σ} (hs : I s)
    (h : ∀ k s, I s → (member k s).Ensures I) : (readObject name member s).Ensures I := by
  intro fuel text s' rest hs'
  unfold readObject at hs'
  split at hs'
  · cases hs'
  split at hs'
  · obtain ⟨rfl, -⟩ := Prod.mk.inj (Except.ok.inj hs')
    exact hs
  · exact readMembers_ensures h _ _ _ _ hs _ _ hs'

theorem readOver_ensures (s : σ) : (readOver s).Ensures (· = s) := by
  intro fuel text s' rest hs'
  obtain ⟨_, -, hs'⟩ := bind_eq_ok_iff.mp hs'
  exact (Prod.mk.inj (Except.ok.inj hs')).1.symm

/-! ## Scalars -/

namespace Literal

theorem absorb_lt {n : Nat} (h : n < UInt64.size) (ds : List Char) : (absorb n ds).1 < UInt64.size := by
  induction ds generalizing n with
  | nil => exact h
  | cons c ds ih =>
    rw [absorb]
    split
    · next hlt => exact ih hlt
    · exact h

theorem isFinite_ofInt {n : Int} (h : n.natAbs < UInt64.size) : (Binary64.ofInt n).isFinite :=
  Binary64.isFinite_ofInt (k := 64) (by decide) (Nat.le_of_lt h)

theorem unitsPerOne_le_units_powerOfTen (n : Nat) : Binary64.unitsPerOne ≤ (powerOfTen n).units :=
  Binary64.unitsPerOne_le_units_ofInt (Nat.pow_pos (by decide))

/-- **A finite number is scaled to a finite number**, or found to be too large. -/
theorem isFinite_scale {x y : Binary64} {exponent : Int} (hx : x.isFinite)
    (h : scale x exponent = some y) : y.isFinite := by
  fun_induction scale x exponent with
  | case1 => cases h
  | case2 x exponent _ _ z hz =>
    rw [← Option.some.inj h]
    exact Binary64.isFinite_mul (Bool.eq_false_iff.mpr hz)
  | case3 =>
    rw [← Option.some.inj h]
    exact Binary64.isFinite_div hx (unitsPerOne_le_units_powerOfTen _)
  | case4 =>
    cases h
    exact hx
  | case5 => cases h
  | case6 x exponent _ _ _ ih =>
    exact ih (Binary64.isFinite_div hx (unitsPerOne_le_units_powerOfTen _)) h

/-- **The value of a literal is finite.** -/
theorem isFinite_of_value? {l : Literal} {n : Number} (h : l.value? = some n) : n.toBinary64.isFinite := by
  have hn := absorb_lt (n := 0) (by decide) l.whole
  unfold value? at h
  generalize absorb 0 l.whole = p at h hn
  obtain ⟨n, left⟩ := p
  dsimp only at h hn
  split at h
  · split at h
    · obtain rfl := Option.some.inj h
      exact isFinite_ofInt (by simpa [Number.toBinary64] using hn)
    split at h
    · obtain rfl := Option.some.inj h
      exact isFinite_ofInt (by simpa [Number.toBinary64] using hn)
    · obtain rfl := Option.some.inj h
      exact Binary64.isFinite_ofRatio true Nat.one_pos (k := 64) (by decide)
        (by rw [Nat.mul_one]; exact Nat.le_of_lt hn)
  · have hm := absorb_lt hn (l.fraction.getD [])
    generalize absorb n (l.fraction.getD []) = q at h hm
    obtain ⟨x, hx, rfl⟩ := Option.map_eq_some_iff.mp h
    have hfinite := isFinite_scale (isFinite_ofInt (by simpa using hm)) hx
    rw [Number.toBinary64]
    split
    · exact Binary64.isFinite_neg hfinite
    · exact hfinite

end Literal

theorem Number.isFinite_of_read {text rest : List Char} {n : Number} (h : read text = .ok (n, rest)) :
    n.toBinary64.isFinite := by
  obtain ⟨⟨l, t⟩, -, h⟩ := bind_eq_ok_iff.mp h
  dsimp only at h
  split at h
  · next m hm =>
    obtain ⟨rfl, -⟩ := Prod.mk.inj (Except.ok.inj h)
    exact Literal.isFinite_of_value? hm
  · cases h

/-- A scalar that is a number is a finite one. -/
def Scalar.Finite (s : Scalar) : Prop := ∀ n, s = .number n → n.toBinary64.isFinite

theorem Scalar.readFrom_ensures (c : Char) : (Scalar.readFrom c).Ensures Scalar.Finite := by
  intro fuel text s rest hs
  unfold readFrom at hs
  split at hs
  · obtain ⟨_, -, hs⟩ := bind_eq_ok_iff.mp hs
    obtain ⟨rfl, -⟩ := Prod.mk.inj (Except.ok.inj hs)
    nofun
  split at hs
  · obtain ⟨⟨n, t⟩, hn, hs⟩ := bind_eq_ok_iff.mp hs
    obtain ⟨rfl, -⟩ := Prod.mk.inj (Except.ok.inj hs)
    rintro _ ⟨⟩
    exact Number.isFinite_of_read hn
  repeat' split at hs
  all_goals first | cases hs | skip
  all_goals
    obtain ⟨_, -, hs⟩ := bind_eq_ok_iff.mp hs
    obtain ⟨rfl, -⟩ := Prod.mk.inj (Except.ok.inj hs)
    nofun

theorem Scalar.read_ensures : Scalar.read.Ensures Scalar.Finite := by
  intro fuel text s rest hs
  unfold read at hs
  split at hs
  · cases hs
  split at hs
  · cases hs
  · exact readFrom_ensures _ _ _ _ _ hs

theorem Scalar.Finite.of_toBinary64? {s : Scalar} (h : s.Finite) {x : Binary64}
    (hx : s.toBinary64? = some x) : x.isFinite := by
  cases s with
  | number n =>
    rw [← Option.some.inj hx]
    exact h n rfl
  | _ => cases hx

theorem readAs_ensures {f : Scalar → Option α} (hf : ∀ s x, s.Finite → f s = some x → P x) :
    (readAs f).Ensures P := Scalar.read_ensures.filterMap hf

theorem readOther_ensures : (readOther : Reader α).Ensures P :=
  readAs_ensures fun _ _ _ h => by cases h

theorem readArrayOf_ensures {r : Reader α} (h : r.Ensures P) :
    (readArrayOf r).Ensures fun xs => ∀ x ∈ xs, P x := by
  intro fuel text xs rest hxs
  unfold readArrayOf at hxs
  split at hxs
  · exact readArray_ensures h _ _ _ _ hxs
  · exact readOther_ensures (P := fun xs => ∀ x ∈ xs, P x) _ _ _ _ hxs

theorem readRecord_ensures {start : σ} {field : String → σ → Reader σ} {finish : σ → Option α}
    {inOrder : Reader α} {I : σ → Prop} (hstart : I start) (hfield : ∀ k s, I s → (field k s).Ensures I)
    (hfinish : ∀ s x, I s → finish s = some x → P x) (horder : inOrder.Ensures P) :
    (readRecord start field finish inOrder).Ensures P := by
  intro fuel text x rest hx
  unfold readRecord at hx
  split at hx
  · exact (readObject_ensures hstart hfield).filterMap hfinish _ _ _ _ hx
  · obtain ⟨⟨y, t⟩, hy, hx⟩ := bind_eq_ok_iff.mp hx
    obtain ⟨t', -, hx⟩ := bind_eq_ok_iff.mp hx
    obtain ⟨rfl, -⟩ := Prod.mk.inj (Except.ok.inj hx)
    exact horder _ _ _ _ hy
  · exact readOther_ensures _ _ _ _ hx

/-! ## Any values -/

theorem Value.depthOfElements_le {vs : List Value} {d : Nat} :
    depthOfElements vs ≤ d ↔ ∀ v ∈ vs, v.depth ≤ d := by
  induction vs with
  | nil => simp [depthOfElements]
  | cons v vs ih => rw [depthOfElements, Nat.max_le, ih, List.forall_mem_cons]

theorem Value.depthOfMembers_le {ms : List (String × Value)} {d : Nat} :
    depthOfMembers ms ≤ d ↔ ∀ m ∈ ms, m.2.depth ≤ d := by
  induction ms with
  | nil => simp [depthOfMembers]
  | cons m ms ih => rw [depthOfMembers, Nat.max_le, ih, List.forall_mem_cons]

theorem Value.readMember_ensures {r : Reader Value} {Q : Value → Prop} (h : r.Ensures Q) (name : String)
    {ms : List (String × Value)} (hms : ∀ m ∈ ms, Q m.2) :
    (readMember r name ms).Ensures fun ms => ∀ m ∈ ms, Q m.2 := by
  intro fuel text ms' rest hms'
  obtain ⟨⟨v, t⟩, hv, hms'⟩ := bind_eq_ok_iff.mp hms'
  obtain ⟨rfl, -⟩ := Prod.mk.inj (Except.ok.inj hms')
  exact List.forall_mem_cons.mpr ⟨h.afterColon _ _ _ _ hv, hms⟩

/-- **A value that is read nests no more arrays and objects than allowed.** -/
theorem Value.read_ensures (depth : Nat) : (Value.read depth).Ensures fun v => v.depth ≤ depth := by
  induction depth with
  | zero =>
    intro fuel text v rest hv
    rw [read.eq_def] at hv
    split at hv
    · cases hv
    split at hv
    · cases hv
    split at hv
    · cases hv
    obtain ⟨⟨s, t⟩, -, hv⟩ := bind_eq_ok_iff.mp hv
    obtain ⟨rfl, -⟩ := Prod.mk.inj (Except.ok.inj hv)
    exact Nat.le_refl 0
  | succ depth ih =>
    intro fuel text v rest hv
    rw [read.eq_def] at hv
    split at hv
    · cases hv
    split at hv
    · obtain ⟨⟨vs, t⟩, hvs, hv⟩ := bind_eq_ok_iff.mp hv
      obtain ⟨rfl, -⟩ := Prod.mk.inj (Except.ok.inj hv)
      exact Nat.succ_le_succ (depthOfElements_le.mpr (readArray_ensures ih _ _ _ _ hvs))
    split at hv
    · obtain ⟨⟨ms, t⟩, hms, hv⟩ := bind_eq_ok_iff.mp hv
      obtain ⟨rfl, -⟩ := Prod.mk.inj (Except.ok.inj hv)
      have hall := readObject_ensures (I := fun ms => ∀ m ∈ ms, m.2.depth ≤ depth) nofun
        (fun k ms hms => readMember_ensures ih k hms) _ _ _ _ hms
      exact Nat.succ_le_succ (depthOfMembers_le.mpr fun m hm => hall m (List.mem_reverse.mp hm))
    obtain ⟨⟨s, t⟩, -, hv⟩ := bind_eq_ok_iff.mp hv
    obtain ⟨rfl, -⟩ := Prod.mk.inj (Except.ok.inj hv)
    exact Nat.zero_le _

end TracedIndex.Json
