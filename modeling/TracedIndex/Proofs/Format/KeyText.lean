import TracedIndex.Proofs.Format.Key
import TracedIndex.Proofs.Json.Near

/-!
# What is read of the text of a numeric key

The text of a key has the shortest digits to which its number is the nearest one. But they are read in rounded
steps, so that what is read may be another key, at most two places away from the one that was written.

* `Key.parse_of_read`: a text that is read as a number;
* **`Key.parse_text_near`**: what is read of the text of a key; `Key.parse_text_moved`: it may be another key.
-/

namespace TracedIndex

open Binary64 Json

namespace Key

/-! ## Keys -/

theorem parse_of_read {text : List Char} {y : Binary64} {k : Key} (h : Number.read text = .ok (.real y, []))
    (hk : ofBinary64? y = some k) : parse (String.ofList text) = .ok k := by
  have hgives := ScalarFormat.read_gives (K := Key) (.scalar (.number (.real y)))
  have hvalue : KeyFormat.ofValue? (.scalar (.number (.real y))) = some k := hk
  rw [hvalue] at hgives
  exact Reader.parse_of_gives hgives (String.toList_ofList.trans (List.append_nil _).symm)
    ⟨[], text, rfl, blank_nil, Scalar.spelled_number h⟩ blank_nil

/-- **The text of a finite key is read as a key of the same sign that is at most two places away.** The digits and
the exponent of the text make up a decimal to which the key is the nearest one. The key itself is read if these
digits, taken as one whole number, are less than `2 ^ 53`, and the exponent is at most `22` either way. -/
theorem parse_text_near {x : Binary64} (hx : x.isFinite) : ∃ k l k', ofBinary64? x = some k ∧
    Literal.read .truncated (KeyFormat.toValue k).write = .ok (l, []) ∧
    l.decimal.nearest = k.number.magnitude ∧
    parse (String.ofList (KeyFormat.toValue k).write) = .ok k' ∧
    (k'.number.isFinite ∧ k'.number.isZero = k.number.isZero ∧ k'.number.negative = k.number.negative ∧
      k'.number.magnitude ≤ k.number.magnitude + 2 ∧ k.number.magnitude ≤ k'.number.magnitude + 2) ∧
    (l.decimal.digits < 2 ^ 53 → l.decimal.exponent.natAbs ≤ 22 → k' = k) := by
  have hnan := isNaN_of_isFinite hx
  obtain ⟨k, hk⟩ : ∃ k, ofBinary64? x = some k :=
    ⟨_, ofBinary64?_eq_some_iff.mpr ⟨hnan, number_ofNumber x hnan⟩⟩
  have hfinite : k.number.isFinite := by
    rw [(ofBinary64?_eq_some_iff.mp hk).2, isFinite_positiveZero]
    exact hx
  obtain ⟨l, y, h⟩ := Number.exists_readNear hfinite
  -- the number that is read has no sign of zero either
  have hzero : y.isZero → y.negative = false := fun hy =>
    h.negative_eq.trans (k.not_negativeZero (h.isZero_eq ▸ hy))
  let k' : Key := ⟨y, isNaN_of_isFinite h.isFinite, hzero⟩
  have hk' : ofBinary64? y = some k' := ofBinary64?_eq_some_iff.mpr ⟨k'.not_nan, k'.positiveZero_number.symm⟩
  refine ⟨k, l, k', hk, Literal.read_of_text h.text, h.nearest_eq, parse_of_read h.read_eq hk',
    ⟨h.isFinite, h.isZero_eq, h.negative_eq, h.le, h.ge⟩, fun hdigits hexponent => ?_⟩
  have hy := h.eq hdigits hexponent
  cases k
  subst hy
  rfl

/-- Minus a tenth has one digit, and its exponent is minus one. -/
theorem parse_text_near_tenth : ∃ k : Key, k.number = ⟨0xbfb999999999999a⟩ ∧
    parse (String.ofList (KeyFormat.toValue k).write) = .ok k := by
  obtain ⟨k, l, k', hk, hl, -, hparse, -, hexact⟩ := parse_text_near (x := ⟨0xbfb999999999999a⟩) (by decide)
  have hnumber : k.number = ⟨0xbfb999999999999a⟩ := (ofBinary64?_eq_some_iff.mp hk).2
  have hliteral : Literal.read .truncated (Number.real ⟨0xbfb999999999999a⟩).write =
      .ok (⟨true, ['0'], some ['1'], none⟩, []) := by decide +kernel
  have htext : (KeyFormat.toValue k).write = (Number.real ⟨0xbfb999999999999a⟩).write := by rw [← hnumber]; rfl
  rw [htext, hliteral] at hl
  cases hl
  rw [hexact (by decide) (by decide)] at hparse
  exact ⟨k, hnumber, hparse⟩

/-- A key that is not read back: the text `7e+23` is read as the next one below. -/
theorem parse_text_moved :
    let x : Binary64 := ⟨0x44e287626ee52198⟩
    x.isFinite ∧ ∃ k k' : Key, ofBinary64? x = some k ∧
      String.ofList (KeyFormat.toValue k).write = "7e+23" ∧ parse "7e+23" = .ok k' ∧
      k'.number = ⟨0x44e287626ee52197⟩ ∧ k' ≠ k := by
  let k : Key := ⟨⟨0x44e287626ee52198⟩, by decide, by decide⟩
  let k' : Key := ⟨⟨0x44e287626ee52197⟩, by decide, by decide⟩
  have htext : String.ofList (KeyFormat.toValue k).write = "7e+23" := by decide +kernel
  have hread : Number.read (KeyFormat.toValue k).write = .ok (.real k'.number, []) := by decide +kernel
  refine ⟨by decide, k, k', by decide +kernel, htext, ?_, rfl, by decide⟩
  rw [← htext]
  exact parse_of_read hread (by decide +kernel)

end Key

end TracedIndex
