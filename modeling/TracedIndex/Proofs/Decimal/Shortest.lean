import TracedIndex.Decimal.Shortest
import TracedIndex.Proofs.Binary64.Closeness

/-!
# Shortest decimals read back

The decimals of seventeen digits lie so close together that the one nearest to a number reads back as it, and
so do the multiples of `10 ^ -324`, however small the number is. So the search for the shortest decimal ends
with one of no more digits and no less an exponent.

* `Decimal.value`: the value of a decimal in units; `Decimal.nearest_eq`: only the value matters;
* `leadingExponent_spec`: the power of ten of the first digit;
* `nearest_of_fine`: on a fine grid, the nearer neighbour reads back;
* `Identifies`: decimals of few digits that read back; **`identifies_shortest`**: the shortest one is one of
  them.
-/

namespace TracedIndex.Decimal

open Binary64

/-! ## Values -/

/-- The value of a decimal in units. -/
def value (d : Decimal) : ℚ := d.digits * 10 ^ d.exponent * unitsPerOne

theorem ten_zpow_eq (e : Int) : (10 : ℚ) ^ e = 10 ^ e.toNat / 10 ^ (-e).toNat := by
  rw [eq_div_iff (by positivity), ← zpow_natCast, ← zpow_natCast, ← zpow_add₀ (by norm_num)]
  congr 1
  omega

/-- The fraction whose nearest magnitude a decimal reads back as. -/
theorem value_eq_div (d : Decimal) : d.value =
    (d.digits * Nat.pow 10 d.exponent.toNat * unitsPerOne : Nat) / (Nat.pow 10 (-d.exponent).toNat : Nat) := by
  rw [value, ten_zpow_eq]
  simp only [Nat.pow_eq]
  push_cast
  ring

theorem value_of_nonneg {d : Decimal} (h : 0 ≤ d.exponent) :
    d.value = d.digits * 10 ^ d.exponent.natAbs * unitsPerOne := by
  rw [value, ← zpow_natCast, Int.natAbs_of_nonneg h]

theorem value_of_nonpos {d : Decimal} (h : d.exponent ≤ 0) :
    d.value = d.digits / 10 ^ d.exponent.natAbs * unitsPerOne := by
  rw [value, div_eq_mul_inv, ← zpow_natCast, ← zpow_neg, Int.ofNat_natAbs_of_nonpos h, neg_neg]

/-- Only the value matters for what a decimal reads back as. -/
theorem nearest_eq {d : Decimal} {num den : Nat} (hden : 0 < den) (h : d.value = num / den) :
    d.nearest = nearestMagnitude num den := by
  have hd : 0 < Nat.pow 10 (-d.exponent).toNat := Nat.pow_pos (by decide)
  rw [value_eq_div, div_eq_div_iff (Nat.cast_pos.mpr hd).ne' (Nat.cast_pos.mpr hden).ne'] at h
  exact nearestMagnitude_congr hd hden (by exact_mod_cast h)

theorem nearest_congr {c d : Decimal} (h : c.value = d.value) : c.nearest = d.nearest :=
  nearest_eq (Nat.pow_pos (by decide)) (h.trans d.value_eq_div)

theorem nearest_of_digits_eq_zero {d : Decimal} (h : d.digits = 0) : d.nearest = 0 := by
  have hden : 0 < Nat.pow 10 (-d.exponent).toNat := Nat.pow_pos (by decide)
  refine Nat.le_zero.mp (nearestMagnitude_le_of_le hden (m := 0) ?_)
  rw [h, Nat.zero_mul, Nat.zero_mul]
  exact Nat.zero_le _

/-! ## Without trailing zeros -/

theorem stripWithin_spec (fuel : Nat) (d : Decimal) : (stripWithin fuel d).value = d.value ∧
    (stripWithin fuel d).digits ≤ d.digits ∧ d.exponent ≤ (stripWithin fuel d).exponent ∧
    (0 < d.digits → 0 < (stripWithin fuel d).digits) := by
  induction fuel generalizing d with
  | zero => exact ⟨rfl, Nat.le_refl _, Int.le_refl _, id⟩
  | succ fuel ih =>
    rw [stripWithin]
    split
    · next hzero =>
      obtain ⟨hvalue, hdigits, hexponent, hpos⟩ := ih ⟨d.digits / 10, d.exponent + 1⟩
      refine ⟨hvalue.trans ?_, hdigits.trans (Nat.div_le_self _ _), by simp only at hexponent; omega,
        fun h => hpos (by simp only; omega)⟩
      have hten : (d.digits : ℚ) = (d.digits / 10 : Nat) * 10 := by
        have : d.digits = d.digits / 10 * 10 := by omega
        exact_mod_cast this
      rw [value, value, hten, zpow_add_one₀ (by norm_num)]
      ring
    · exact ⟨rfl, Nat.le_refl _, Int.le_refl _, id⟩

/-! ## The first digit -/

theorem lt_pow_length (n : Nat) : n < 10 ^ (Nat.toDigits 10 n).length :=
  (Nat.length_toDigits_le_iff (by decide) Nat.length_toDigits_pos).mp (Nat.le_refl _)

theorem pow_length_le {n : Nat} (h : 0 < n) : 10 ^ ((Nat.toDigits 10 n).length - 1) ≤ n := by
  by_contra hlt
  by_cases hone : (Nat.toDigits 10 n).length - 1 = 0
  · rw [hone] at hlt
    omega
  · have hle := (Nat.length_toDigits_le_iff (by decide) (Nat.pos_of_ne_zero hone)).mpr (Nat.lt_of_not_le hlt)
    omega

theorem unitsPerOne_lt_pow : unitsPerOne < 10 ^ 324 := by decide +kernel

/-- **The power of ten of the first digit**, which is no less than that of the least number. -/
theorem leadingExponent_spec {u : Nat} (hu : 0 < u) : (10 : ℚ) ^ leadingExponent u * unitsPerOne ≤ u ∧
    (u : ℚ) < 10 ^ (leadingExponent u + 1) * unitsPerOne ∧ -324 ≤ leadingExponent u := by
  unfold leadingExponent
  split
  · next h =>
    have hpos : 0 < u / unitsPerOne := Nat.div_pos h unitsPerOne_pos
    have hlow := pow_length_le hpos
    have hhigh := lt_pow_length (u / unitsPerOne)
    have hlength : 0 < (Nat.toDigits 10 (u / unitsPerOne)).length := Nat.length_toDigits_pos
    generalize (Nat.toDigits 10 (u / unitsPerOne)).length = l at hlow hhigh hlength ⊢
    rw [Nat.le_div_iff_mul_le unitsPerOne_pos] at hlow
    rw [Nat.div_lt_iff_lt_mul unitsPerOne_pos] at hhigh
    obtain ⟨l, rfl⟩ := Nat.exists_eq_add_one_of_ne_zero hlength.ne'
    have hl : ((l + 1 : Nat) : Int) - 1 = l := by omega
    rw [hl, ← Nat.cast_succ, zpow_natCast, zpow_natCast]
    exact ⟨by exact_mod_cast hlow, by exact_mod_cast hhigh, by omega⟩
  · next h =>
    have hpos : 0 < (unitsPerOne - 1) / u := Nat.div_pos (by omega) hu
    have hlow := pow_length_le hpos
    have hhigh := lt_pow_length ((unitsPerOne - 1) / u)
    have hlength : 0 < (Nat.toDigits 10 ((unitsPerOne - 1) / u)).length := Nat.length_toDigits_pos
    have hle : (Nat.toDigits 10 ((unitsPerOne - 1) / u)).length ≤ 324 := by
      refine (Nat.length_toDigits_le_iff (by decide) (by decide)).mpr ?_
      have := Nat.div_le_self (unitsPerOne - 1) u
      have := unitsPerOne_lt_pow
      omega
    generalize (Nat.toDigits 10 ((unitsPerOne - 1) / u)).length = l at hlow hhigh hlength hle ⊢
    rw [Nat.le_div_iff_mul_le hu] at hlow
    rw [Nat.div_lt_iff_lt_mul hu] at hhigh
    obtain ⟨l, rfl⟩ := Nat.exists_eq_add_one_of_ne_zero hlength.ne'
    have hl : -((l + 1 : Nat) : Int) + 1 = -(l : Int) := by omega
    rw [hl, zpow_neg, zpow_neg, zpow_natCast, zpow_natCast, inv_mul_le_iff₀ (by positivity),
      lt_inv_mul_iff₀ (by positivity)]
    refine ⟨?_, ?_, by omega⟩
    · have hle : unitsPerOne ≤ 10 ^ (l + 1) * u := by omega
      exact_mod_cast hle
    · have hlt : 10 ^ l * u < unitsPerOne := by
        rw [Nat.add_sub_cancel] at hlow
        have := unitsPerOne_pos
        omega
      exact_mod_cast hlt

/-! ## Neighbours -/

theorem nearerAbove_spec (tie : Tie) (num den : Nat) :
    (nearerAbove tie num den → den ≤ 2 * (num % den)) ∧
      (nearerAbove tie num den = false → 2 * (num % den) ≤ den) := by
  unfold nearerAbove
  split
  · next h => exact ⟨nofun, fun _ => (Nat.compare_eq_lt.mp h).le⟩
  · next h => exact ⟨fun _ => (Nat.compare_eq_gt.mp h).le, nofun⟩
  · next h =>
    have := Nat.compare_eq_eq.mp h
    exact ⟨fun _ => this.ge, fun _ => this.le⟩

/-- The distance between two multiples of a power of ten, in units. -/
def gridStep (e : Int) : ℚ := 10 ^ e * unitsPerOne

theorem gridStep_pos (e : Int) : 0 < gridStep e := mul_pos (zpow_pos (by norm_num) e) cast_unitsPerOne_pos

/-- **The nearer neighbour is at most half a step away**, and no neighbour is more than a step above. -/
theorem neighbours_spec (tie : Tie) (u : Nat) (e : Int) : ∃ near far, neighbours tie u e = [near, far] ∧
    (2 * near.value ≤ 2 * u + gridStep e ∧ 2 * u ≤ 2 * near.value + gridStep e) ∧
    ∀ d ∈ [near, far], d.exponent = e ∧ d.value ≤ u + gridStep e := by
  have hpos := gridStep_pos e
  have hnearer := nearerAbove_spec tie (u * Nat.pow 10 (-e).toNat) (unitsPerOne * Nat.pow 10 e.toNat)
  have hden : 0 < unitsPerOne * Nat.pow 10 e.toNat := Nat.mul_pos unitsPerOne_pos (Nat.pow_pos (by decide))
  have hu : (u : ℚ) =
      (u * Nat.pow 10 (-e).toNat : Nat) / (unitsPerOne * Nat.pow 10 e.toNat : Nat) * gridStep e := by
    have hone := cast_unitsPerOne_pos.ne'
    rw [gridStep, ten_zpow_eq]
    simp only [Nat.pow_eq]
    push_cast
    generalize (unitsPerOne : ℚ) = w at hone ⊢
    field_simp
  have hvalue (n : Nat) : Decimal.value ⟨n, e⟩ = n * gridStep e := by
    rw [value, gridStep]
    ring
  unfold neighbours
  dsimp only
  generalize u * Nat.pow 10 (-e).toNat = num at *
  generalize unitsPerOne * Nat.pow 10 e.toNat = den at *
  generalize gridStep e = g at *
  -- the number counted in steps: a whole part, and a rest below one
  have hdenpos : (0 : ℚ) < den := Nat.cast_pos.mpr hden
  obtain ⟨x, hx⟩ : ∃ x : ℚ, x = (num % den : Nat) / (den : ℚ) := ⟨_, rfl⟩
  have hcount : (u : ℚ) = ((num / den : Nat) + x) * g := by
    have hsplit : (num : ℚ) = den * (num / den : Nat) + (num % den : Nat) := by
      exact_mod_cast (Nat.div_add_mod num den).symm
    rw [hu, hx, hsplit]
    field_simp
  have hx0 : 0 ≤ x := by rw [hx]; positivity
  have hx1 : x < 1 := by
    rw [hx, div_lt_one hdenpos]
    exact_mod_cast Nat.mod_lt num hden
  generalize num / den = q at hcount ⊢
  have hbelow : (⟨q, e⟩ : Decimal).value ≤ u + g := by
    rw [hvalue, hcount]
    nlinarith
  have habove : (⟨q + 1, e⟩ : Decimal).value ≤ u + g := by
    rw [hvalue, hcount]
    push_cast
    nlinarith
  by_cases h : nearerAbove tie num den
  · have hhalf : 1 / 2 ≤ x := by
      rw [hx, le_div_iff₀ hdenpos]
      have : (den : ℚ) ≤ 2 * (num % den : Nat) := by exact_mod_cast hnearer.1 h
      linarith
    refine ⟨_, _, if_pos h, ?_, ?_⟩
    · rw [hvalue, hcount]
      push_cast
      constructor <;> nlinarith
    · exact List.forall_mem_cons.mpr ⟨⟨rfl, habove⟩, List.forall_mem_singleton.mpr ⟨rfl, hbelow⟩⟩
  · have hhalf : x ≤ 1 / 2 := by
      rw [hx, div_le_iff₀ hdenpos]
      have : (2 * (num % den : Nat) : ℚ) ≤ den := by exact_mod_cast hnearer.2 (Bool.eq_false_iff.mpr h)
      linarith
    refine ⟨_, _, if_neg h, ?_, ?_⟩
    · rw [hvalue, hcount]
      constructor <;> nlinarith
    · exact List.forall_mem_cons.mpr ⟨⟨rfl, hbelow⟩, List.forall_mem_singleton.mpr ⟨rfl, habove⟩⟩

/-! ## Fine grids -/

/-- Below each magnitude there is room for a power of two, and above it at least as much. -/
theorem exists_room {m : Nat} (hm : 0 < m) : ∃ e : Nat, (unitsOf m : ℚ) ≤ 2 ^ 53 * 2 ^ e ∧
    (∀ k, m = k + 1 → 2 * halfway k = 2 * unitsOf m - 2 ^ e) ∧ 2 * unitsOf m + 2 ^ e ≤ 2 * halfway m := by
  obtain ⟨k, rfl⟩ := Nat.exists_eq_add_one_of_ne_zero hm.ne'
  obtain ⟨e, r, hk, hr, he, hunits, hnext⟩ := exists_significand k
  have htwo : ((r + 2) * 2 ^ e : ℚ) ≤ unitsOf (k + 1 + 1) := by
    have := le_unitsOf_add_two hr he
    rw [← hk] at this
    exact_mod_cast this
  refine ⟨e, ?_, ?_, ?_⟩
  · rw [hnext]
    exact_mod_cast Nat.mul_le_mul_right (2 ^ e) hr
  · rintro _ ⟨⟩
    rw [halfway, hunits, hnext]
    push_cast
    ring
  · rw [halfway, hnext]
    push_cast
    linarith

/-- **On a grid whose steps are less than the room around a number, a neighbour at most half a step away reads
back.** -/
theorem nearest_of_fine {m : Nat} (hm : 0 < m) (hfinite : m < infiniteMagnitude) {d : Decimal} {g : ℚ}
    (hfine : ∀ e : Nat, (unitsOf m : ℚ) ≤ 2 ^ 53 * 2 ^ e → g < 2 ^ e)
    (habove : 2 * d.value ≤ 2 * unitsOf m + g) (hbelow : 2 * unitsOf m ≤ 2 * d.value + g) : d.nearest = m := by
  obtain ⟨e, hroom, hhalf, hhalf'⟩ := exists_room hm
  have hg := hfine e hroom
  have hden : 0 < Nat.pow 10 (-d.exponent).toNat := Nat.pow_pos (by decide)
  rw [value_eq_div] at habove hbelow
  refine Nat.le_antisymm (nearestMagnitude_le_of_lt_halfway hden (by linarith)) ?_
  obtain ⟨k, rfl⟩ := Nat.exists_eq_add_one_of_ne_zero hm.ne'
  have := hhalf k rfl
  exact lt_nearestMagnitude_of_halfway_lt hden (by linarith) (by omega)

/-! ## The search -/

/-- The decimal has at most seventeen digits, is in the range of the numbers, and reads back as `m`. -/
structure Identifies (d : Decimal) (m : Nat) : Prop where
  nearest_eq : d.nearest = m
  pos : 0 < d.digits
  le_pow : d.digits ≤ 10 ^ 17
  le_exponent : -324 ≤ d.exponent

theorem unitsOf_infiniteMagnitude_lt : unitsOf infiniteMagnitude < 10 ^ 309 * unitsPerOne := by decide +kernel

namespace Identifies

variable {m : Nat} {d : Decimal} (h : d.Identifies m)

include h

theorem congr {c : Decimal} (hvalue : c.value = d.value) (hpos : 0 < c.digits) (hdigits : c.digits ≤ 10 ^ 17)
    (hexponent : -324 ≤ c.exponent) : c.Identifies m :=
  ⟨(nearest_congr hvalue).trans h.nearest_eq, hpos, hdigits, hexponent⟩

theorem nearestTo (hfinite : m < infiniteMagnitude) : NearestTo m d.value := by
  have hden : 0 < Nat.pow 10 (-d.exponent).toNat := Nat.pow_pos (by decide)
  rw [← h.nearest_eq, nearest] at hfinite ⊢
  rw [value_eq_div]
  exact nearestTo_nearestMagnitude hden hfinite

/-- The decimals of finite numbers are less than `10 ^ 309`. -/
theorem exponent_le (hfinite : m < infiniteMagnitude) : d.exponent ≤ 308 := by
  have hle := (h.nearestTo hfinite).le
  rw [value] at hle
  -- no halfway point is above the value of infinity, which is less than `10 ^ 309`
  obtain ⟨n, hn, hinfinity⟩ : ∃ n, n = 309 ∧ unitsOf infiniteMagnitude < 10 ^ n * unitsPerOne :=
    ⟨309, rfl, unitsOf_infiniteMagnitude_lt⟩
  have htop {k : Nat} (hk : k ≤ infiniteMagnitude) : (unitsOf k : ℚ) < 10 ^ n * unitsPerOne := by
    exact_mod_cast Nat.lt_of_le_of_lt (strictMono_unitsOf.monotone hk) hinfinity
  have hhalf : halfway m < 10 ^ n * unitsPerOne := by
    have := htop hfinite.le
    have := htop (Nat.succ_le_of_lt hfinite)
    rw [halfway]
    linarith
  have hpow : (10 : ℚ) ^ d.exponent < 10 ^ (n : Int) := by
    rw [zpow_natCast]
    refine lt_of_mul_lt_mul_right (lt_of_le_of_lt ?_ (hle.trans_lt hhalf)) cast_unitsPerOne_pos.le
    refine mul_le_mul_of_nonneg_right ?_ cast_unitsPerOne_pos.le
    exact le_mul_of_one_le_left (zpow_pos (by norm_num) _).le (Nat.one_le_cast.mpr h.pos)
  have := (zpow_lt_zpow_iff_right₀ (by norm_num)).mp hpow
  omega

end Identifies

/-- The steps of the grid on which the search ends at the latest are fine. -/
theorem gridStep_lt {m : Nat} (hm : 0 < m) {n e : Nat}
    (hn : n = 16 ∨ leadingExponent (unitsOf m) - n = -324) (he : (unitsOf m : ℚ) ≤ 2 ^ 53 * 2 ^ e) :
    gridStep (leadingExponent (unitsOf m) - n) < 2 ^ e := by
  obtain ⟨hlow, -, -⟩ := leadingExponent_spec (Nat.pos_of_ne_zero fun h => hm.ne' (unitsOf_eq_zero_iff.mp h))
  rcases hn with rfl | hn
  · -- a step is less than a unit in the place of the number's last bit
    have hpos : (0 : ℚ) < 2 ^ e := by positivity
    rw [gridStep, zpow_sub₀ (by norm_num), zpow_natCast, div_mul_eq_mul_div, div_lt_iff₀ (by positivity)]
    calc (10 ^ leadingExponent (unitsOf m) * unitsPerOne : ℚ) ≤ 2 ^ 53 * 2 ^ e := hlow.trans he
      _ < 2 ^ e * 10 ^ 16 := by
          rw [mul_comm]
          gcongr
          norm_num
  · have hlt : (unitsPerOne : ℚ) < 10 ^ 324 := by exact_mod_cast unitsPerOne_lt_pow
    calc gridStep (leadingExponent (unitsOf m) - n) = unitsPerOne / 10 ^ 324 := by
          rw [hn, gridStep, zpow_neg, ← div_eq_inv_mul, zpow_ofNat]
      _ < 1 := (div_lt_one (by positivity)).mpr hlt
      _ ≤ 2 ^ e := one_le_pow₀ (by norm_num)

/-- With `n + 1` digits from the first one on, a neighbour has no more of them. -/
theorem digits_le_of_mem_neighbours {tie : Tie} {u n : Nat} (hu : 0 < u) {d : Decimal}
    (hd : d ∈ neighbours tie u (leadingExponent u - n)) :
    d.exponent = leadingExponent u - n ∧ d.digits ≤ 10 ^ (n + 1) := by
  obtain ⟨-, hhigh, -⟩ := leadingExponent_spec hu
  obtain ⟨near, far, hneighbours, -, hall⟩ := neighbours_spec tie u (leadingExponent u - n)
  obtain ⟨hexponent, hvalue⟩ := hall d (hneighbours ▸ hd)
  generalize leadingExponent u = first at hhigh hexponent hvalue ⊢
  have hstep := gridStep_pos (first - n)
  have hfirst : (10 : ℚ) ^ (first + 1) * unitsPerOne = 10 ^ (n + 1) * gridStep (first - n) := by
    have hsum : first + 1 = (n + 1 : Nat) + (first - n) := by omega
    rw [hsum, zpow_add₀ (by norm_num), zpow_natCast, gridStep, mul_assoc]
  have hd : d.value = d.digits * gridStep (first - n) := by rw [value, gridStep, hexponent, mul_assoc]
  have hlt : (d.digits : ℚ) * gridStep (first - n) < (10 ^ (n + 1) + 1) * gridStep (first - n) := by linarith
  have hlt : d.digits < 10 ^ (n + 1) + 1 := by exact_mod_cast lt_of_mul_lt_mul_right hlt hstep.le
  exact ⟨hexponent, Nat.lt_succ_iff.mp hlt⟩

/-- A grid with a neighbour that reads back is not passed by. -/
theorem exists_shortest_eq {tie : Tie} {m n : Nat} (hn : n < 17)
    (h : ∃ d ∈ neighbours tie (unitsOf m) (leadingExponent (unitsOf m) - n), d.nearest = m) :
    ∃ k ≤ n, ∃ d ∈ neighbours tie (unitsOf m) (leadingExponent (unitsOf m) - k), d.nearest = m ∧
      shortest tie m = strip d := by
  obtain ⟨d, hd, hreads⟩ := h
  obtain ⟨e, he⟩ : ∃ e, ((neighbours tie (unitsOf m) (leadingExponent (unitsOf m) - n)).find? fun d =>
      d.nearest == m) = some e :=
    Option.isSome_iff_exists.mp (List.find?_isSome.mpr ⟨d, hd, by simpa using hreads⟩)
  unfold shortest
  dsimp only
  generalize leadingExponent (unitsOf m) = first at he ⊢
  obtain ⟨d, hd⟩ : ∃ d, ((List.range 17).findSome? fun n : Nat =>
      (neighbours tie (unitsOf m) (first - n)).find? fun d => d.nearest == m) = some d := by
    refine Option.isSome_iff_exists.mp (List.findSome?_isSome_iff.mpr ⟨n, List.mem_range.mpr hn, ?_⟩)
    rw [he]
    rfl
  obtain ⟨before, k, after, hrange, hfound, hnone⟩ := List.findSome?_eq_some_iff.mp hd
  have hkn : k ≤ n := by
    have hsorted : (before ++ k :: after).Pairwise (· < ·) := hrange ▸ List.pairwise_lt_range
    have hmem : n ∈ before ++ k :: after := hrange ▸ List.mem_range.mpr hn
    rcases List.mem_append.mp hmem with hmem | hmem
    · exact absurd (he.symm.trans (hnone n hmem)) nofun
    · rcases List.mem_cons.mp hmem with rfl | hmem
      · exact Nat.le_refl _
      · exact ((List.pairwise_cons.mp (List.pairwise_append.mp hsorted).2.1).1 n hmem).le
  refine ⟨k, hkn, d, List.mem_of_find?_eq_some hfound, by simpa using List.find?_some hfound, ?_⟩
  rw [hd, Option.getD_some]

/-- **The shortest decimal of a number reads back.** -/
theorem identifies_shortest (tie : Tie) {m : Nat} (hm : 0 < m) (hfinite : m < infiniteMagnitude) :
    (shortest tie m).Identifies m := by
  have hu : 0 < unitsOf m := Nat.pos_of_ne_zero fun h => hm.ne' (unitsOf_eq_zero_iff.mp h)
  obtain ⟨-, -, hleast⟩ := leadingExponent_spec hu
  -- the grid on which the search ends at the latest
  obtain ⟨n, hn16, hle, hn⟩ : ∃ n : Nat, n ≤ 16 ∧ -324 ≤ leadingExponent (unitsOf m) - n ∧
      (n = 16 ∨ leadingExponent (unitsOf m) - n = -324) := by
    by_cases h : 16 ≤ leadingExponent (unitsOf m) + 324
    · exact ⟨16, Nat.le_refl _, by omega, .inl rfl⟩
    · exact ⟨(leadingExponent (unitsOf m) + 324).toNat, by omega, by omega, .inr (by omega)⟩
  obtain ⟨near, far, hneighbours, ⟨habove, hbelow⟩, -⟩ :=
    neighbours_spec tie (unitsOf m) (leadingExponent (unitsOf m) - n)
  have hnear : near.nearest = m := nearest_of_fine hm hfinite (fun _ => gridStep_lt hm hn) habove hbelow
  obtain ⟨k, hk, d, hmem, hreads, hshortest⟩ :=
    exists_shortest_eq (Nat.lt_succ_of_le hn16) ⟨near, hneighbours ▸ List.mem_cons_self, hnear⟩
  obtain ⟨hexponent, hdigits⟩ := digits_le_of_mem_neighbours hu hmem
  have hpos : 0 < d.digits := Nat.pos_of_ne_zero fun hzero =>
    hm.ne' (hreads.symm.trans (nearest_of_digits_eq_zero hzero))
  have hd : d.Identifies m :=
    ⟨hreads, hpos, hdigits.trans (Nat.pow_le_pow_right (by decide) (by omega)), by omega⟩
  rw [hshortest, strip, if_neg hpos.ne']
  obtain ⟨hvalue, hle, hexponent, hpos⟩ := stripWithin_spec (Nat.toDigits 10 d.digits).length d
  exact hd.congr hvalue (hpos hd.pos) (hle.trans hd.le_pow) (hd.le_exponent.trans hexponent)

end TracedIndex.Decimal
