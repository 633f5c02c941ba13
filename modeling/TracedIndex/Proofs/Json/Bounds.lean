import TracedIndex.Proofs.Json.Written

/-!
# Numbers out of bounds

A field for a whole number without sign takes those below a bound. All others are written with a minus sign, a fraction
or an exponent, or are too large.

* `Number.OutOf`: numbers that are no whole numbers below a bound;
* **`Number.outOf_iff`**: their literals;
* `Scalar.toNat?_of_outOf`: a number that does not fit a word.
-/

namespace TracedIndex.Json

/-- The number is not a whole number without sign that is less than the bound. -/
def Number.OutOf (bound : Nat) (n : Number) : Prop := ∀ m : Nat, m < bound → n ≠ .whole m

namespace Literal

theorem value?_whole {whole : List Char} (h : natOf whole < UInt64.size) :
    (Literal.mk false whole none none).value? = some (.whole (natOf whole)) := by
  have habsorb : absorb 0 whole = (natOf whole, 0) := absorb_eq 0 h
  simp [value?, habsorb]

theorem absorb_of_left (n : Nat) (ds : List Char) (h : (absorb n ds).2 = 0) :
    (absorb n ds).1 = ds.foldl (fun n c => n * 10 + digit c) n := by
  induction ds generalizing n with
  | nil => rfl
  | cons c ds ih =>
    rw [absorb] at h ⊢
    split at h
    · next hlt =>
      rw [if_pos hlt]
      exact ih _ h
    · exact absurd h (Nat.succ_ne_zero _)

/-- A literal with a whole number without sign as its value has neither a sign nor a fraction nor an exponent. -/
theorem of_value?_whole {l : Literal} {m : Nat} (h : l.value? = some (.whole m)) :
    l.negative = false ∧ l.fraction = none ∧ l.exponent = none ∧ natOf l.whole = m := by
  unfold value? at h
  have habsorb := absorb_of_left 0 l.whole
  generalize absorb 0 l.whole = p at h habsorb
  obtain ⟨n, left⟩ := p
  dsimp only at h habsorb
  split at h
  · next hint =>
    obtain ⟨hfraction, hexponent, rfl⟩ := hint
    split at h
    · next hnegative =>
      have hn : (n : Int) = m := Number.whole.inj (Option.some.inj h)
      refine ⟨by simpa using hnegative, by simpa using hfraction, by simpa using hexponent, ?_⟩
      exact (habsorb rfl).symm.trans (Int.ofNat_inj.mp hn)
    split at h
    · next hpos =>
      have hn : -(n : Int) = m := Number.whole.inj (Option.some.inj h)
      omega
    · cases h
  · obtain ⟨x, -, hx⟩ := Option.map_eq_some_iff.mp h
    cases hx

end Literal

/-- **The literals of such numbers** are those with a minus sign, a fraction or an exponent, and those of whole numbers
that are not less than the bound. -/
theorem Number.outOf_iff {bound : Nat} (hbound : bound ≤ UInt64.size) {l : Literal} {n : Number}
    (h : l.value? = some n) : n.OutOf bound ↔
      l.negative ∨ l.fraction.isSome ∨ l.exponent.isSome ∨ bound ≤ Literal.natOf l.whole := by
  constructor
  · intro hout
    by_contra hnot
    simp only [not_or, Bool.not_eq_true, Option.isSome_eq_false_iff, Option.isNone_iff_eq_none, Nat.not_le] at hnot
    obtain ⟨hnegative, hfraction, hexponent, hlt⟩ := hnot
    obtain ⟨negative, whole, fraction, exponent⟩ := l
    obtain rfl : negative = false := hnegative
    obtain rfl : fraction = none := hfraction
    obtain rfl : exponent = none := hexponent
    rw [Literal.value?_whole (Nat.lt_of_lt_of_le hlt hbound)] at h
    exact hout _ hlt (Option.some.inj h).symm
  · rintro hl m hm rfl
    obtain ⟨hnegative, hfraction, hexponent, rfl⟩ := Literal.of_value?_whole h
    simp only [hnegative, hfraction, hexponent, Bool.false_eq_true, Option.isSome_none, false_or] at hl
    omega

theorem Scalar.toNat?_of_outOf {n : Number} (h : n.OutOf UInt64.size) : toNat? (.number n) = none := by
  cases n with
  | real x => rfl
  | whole i =>
    rw [toNat?, if_neg]
    rintro ⟨hpos, hlt⟩
    refine h i.toNat ?_ ?_
    · omega
    · rw [Int.toNat_of_nonneg hpos]

end TracedIndex.Json
