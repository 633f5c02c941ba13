import TracedIndex.Binary64

/-!
# The total order by bits

The bits of a number, read as a two's complement integer, are in order but for the negative numbers, which
come backwards. Flipping all their bits except the sign turns them round, so that one comparison of integers
compares any two numbers, NaN included.

* `folded`: the bits as an integer in order; `totalCompare`: the comparison by it;
* **`toInt_folded`**, `totalCompare_eq`: this integer is the rank of the number.
-/

namespace TracedIndex.Binary64

/-- The bits as an integer, with all bits but the sign flipped where the sign is set: a shift by 63 places
copies the sign into all of them. -/
def folded (x : Binary64) : Int64 :=
  let s := x.bits.toInt64
  s ^^^ ((s >>> 63).toUInt64 >>> 1).toInt64

/-- Comparison by the bits. -/
def totalCompare (x y : Binary64) : Ordering := compare x.folded y.folded

/-! ## Flipping bits -/

theorem sshiftRight_last (v : BitVec 64) :
    v.sshiftRight 63 = if v.msb then BitVec.allOnes 64 else 0#64 := by
  ext i hi
  rw [BitVec.getElem_sshiftRight, BitVec.msb_eq_getLsbD_last]
  split
  · next h =>
    obtain rfl : i = 0 := by omega
    cases hv : v.getLsbD 63 <;> simp_all
  · cases v.getLsbD 63 <;> simp [-BitVec.reduceAllOnes]

/-- The flipped number is the complement of the number without its sign. -/
theorem xor_of_msb {v : BitVec 64} (h : v.msb) :
    v ^^^ (BitVec.allOnes 64 >>> 1) = ~~~(v &&& (BitVec.allOnes 64 >>> 1)) := by
  ext i hi
  rw [BitVec.getElem_xor, BitVec.getElem_not, BitVec.getElem_and, BitVec.getElem_ushiftRight,
    BitVec.getLsbD_allOnes]
  by_cases hlast : i = 63
  · subst hlast
    rw [show v[63] = true from h]
    rfl
  · rw [decide_eq_true (show 1 + i < 64 by omega), Bool.xor_true, Bool.and_true]

/-! ## The order -/

section

variable (x y : Binary64)

theorem toBitVec_folded :
    x.folded.toBitVec = x.bits.toBitVec ^^^ (x.bits.toBitVec.sshiftRight 63 >>> 1) := by
  simp [folded]

/-- **The bits, folded at the sign, are the rank.** -/
theorem toInt_folded : x.folded.toInt = x.rank := by
  have hlt : x.bits.toNat < 2 ^ 64 := x.bits.toNat_lt
  have hmsb : x.bits.toBitVec.msb = x.negative := BitVec.msb_eq_decide _
  rw [← Int64.toInt_toBitVec, toBitVec_folded, sshiftRight_last, rank, ← hmsb, magnitude]
  cases h : x.bits.toBitVec.msb with
  | false =>
    have hsmall : x.bits.toNat < signBit := by simpa [h, negative] using hmsb
    rw [if_neg Bool.false_ne_true, if_neg Bool.false_ne_true, Nat.mod_eq_of_lt hsmall,
      BitVec.zero_ushiftRight, BitVec.xor_zero, BitVec.toInt_eq_toNat_of_msb h]
    rfl
  | true =>
    have hmask : (x.bits.toBitVec &&& (BitVec.allOnes 64 >>> 1)).toNat = x.bits.toNat % signBit :=
      Nat.and_two_pow_sub_one_eq_mod x.bits.toNat 63
    have hmod : x.bits.toNat % signBit < 2 ^ 63 := Nat.mod_lt _ (by decide)
    rw [if_pos rfl, if_pos rfl, xor_of_msb h, BitVec.toInt_not, hmask, Int.bmod_def]
    omega

theorem totalCompare_eq : x.totalCompare y = compare x.rank y.rank := by
  rw [totalCompare, ← toInt_folded, ← toInt_folded]
  simp only [compare, compareOfLessAndEq, Int64.lt_iff_toInt_lt, Int64.toInt_inj]

end

end TracedIndex.Binary64
