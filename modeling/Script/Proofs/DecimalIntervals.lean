import Mathlib
import Script.Number.Shortest

/-!
# No decimal stands for two numbers

The digits of a positive number stand for a decimal in the interval around it. The search for them
ends: the finest grid that is tried is finer than half of the interval. And the intervals around two
numbers have no decimal in common: the end that two neighbours share belongs to neither, for one of
them is odd.
-/

namespace Script.Number

open Float.Model (Format)
open Float.Model.UnpackedFloat (unpackExponent unpackMantissa isNaNBits)

/-! ## Parts -/

theorem unpackExponent_iff (x : Float) :
    @unpackExponent Format.binary64 x.toBits.toBitVec = -1#_ ↔
      x.toBits.toNat / hiddenBit % 2048 = 2047 := by
  rw [← BitVec.toNat_inj]
  simp [unpackExponent, hiddenBit, Nat.shiftRight_eq_div_pow]

theorem unpackMantissa_iff (x : Float) :
    @unpackMantissa Format.binary64 x.toBits.toBitVec = 0#_ ↔ x.toBits.toNat % hiddenBit = 0 := by
  rw [← BitVec.toNat_inj]
  simp [unpackMantissa, hiddenBit, Nat.shiftRight_eq_div_pow]

theorem isNaNBits_of_parts {x : Float} (h : parts x = .nan) :
    @isNaNBits Format.binary64 x.toBits.toBitVec = true := by
  unfold parts at h
  simp only [beq_iff_eq] at h
  split at h
  next hexp =>
    split at h
    next => cases h
    next hfrac =>
      exact decide_eq_true ⟨(unpackExponent_iff x).mpr hexp, mt (unpackMantissa_iff x).mp hfrac⟩
  next => split at h <;> cases h

/-- There is one bit pattern that is not a number. -/
theorem toBits_of_nan {x : Float} (h : parts x = .nan) :
    x.toBits.toBitVec = Float.Model.UnpackedFloat.packedNaN Format.binary64 := by
  obtain ⟨hexp, hfrac⟩ := of_decide_eq_true (isNaNBits_of_parts h)
  exact x.toModel.valid.eq_packedNaN hexp hfrac

/-- The parts that are read off: only at the least exponent does a significand have fewer than 53
bits. -/
structure Canonical (m : Nat) (q : Int) : Prop where
  small : m < 2 * hiddenBit
  least : leastExponent ≤ q
  most : q ≤ 971
  normal : leastExponent < q → hiddenBit ≤ m

theorem sign_of_toBits (x : Float) : signBit * (x.toBits.toNat / signBit) =
    if x.toBits.toNat / signBit == 1 then signBit else 0 := by
  have hlt := x.toBits.toNat_lt
  simp only [signBit, beq_iff_eq]
  split <;> omega

theorem toBits_of_infinite {x : Float} {negative : Bool} (h : parts x = .infinite negative) :
    x.toBits.toNat = (if negative then signBit else 0) + 2047 * hiddenBit := by
  have hsign := sign_of_toBits x
  unfold parts at h
  simp only [beq_iff_eq] at h
  split at h
  next hexp =>
    split at h
    next hfrac =>
      cases h
      rw [← hsign]
      simp only [signBit, hiddenBit] at hexp hfrac ⊢
      omega
    next => cases h
  next => split at h <;> cases h

theorem toBits_of_finite {x : Float} {negative : Bool} {m : Nat} {q : Int}
    (h : parts x = .finite negative m q) :
    Canonical m q ∧ x.toBits.toNat = (if negative then signBit else 0) +
      (if m < hiddenBit then 0 else (q + 1075).toNat * hiddenBit) + m % hiddenBit := by
  have hsign := sign_of_toBits x
  unfold parts at h
  simp only [beq_iff_eq] at h
  split at h
  next => split at h <;> cases h
  next hexp =>
    split at h
    next hzero =>
      cases h
      rw [← hsign, if_pos (Nat.mod_lt _ (by decide))]
      refine ⟨⟨?_, ?_, ?_, ?_⟩, ?_⟩ <;> simp only [signBit, hiddenBit, leastExponent] at * <;> omega
    next hzero =>
      cases h
      rw [← hsign, if_neg (by omega)]
      refine ⟨⟨?_, ?_, ?_, ?_⟩, ?_⟩ <;> simp only [signBit, hiddenBit, leastExponent] at * <;> omega

theorem parts_injective : Function.Injective parts := by
  intro x y h
  apply Float.toBits_inj.mp
  cases hx : parts x with
  | nan =>
    apply UInt64.toBitVec_inj.mp
    rw [toBits_of_nan hx, toBits_of_nan (h ▸ hx)]
  | infinite negative =>
    apply UInt64.toNat_inj.mp
    rw [toBits_of_infinite hx, toBits_of_infinite (h ▸ hx)]
  | finite negative m q =>
    apply UInt64.toNat_inj.mp
    rw [(toBits_of_finite hx).2, (toBits_of_finite (h ▸ hx)).2]

/-! ## Intervals -/

theorem pow_toNat {b : ℚ} (hb : b ≠ 0) (z : ℤ) : b ^ z.toNat = b ^ z * b ^ (-z).toNat := by
  rw [← zpow_natCast, ← zpow_natCast, ← zpow_add₀ hb]
  congr 1
  omega

namespace Neighbourhood

variable (n : Neighbourhood) (p : Int)

theorem scales_pos : 0 < (n.scales p).1 ∧ 0 < (n.scales p).2 := by
  simp [scales, Nat.shiftLeft_eq]

/-- Both units are the same multiple of their scales. -/
theorem scales_common : ∃ r : ℚ, 0 < r ∧ 2 ^ n.unit = (n.scales p).1 * r ∧
    10 ^ p = (n.scales p).2 * r := by
  have hs : (0 : ℚ) < (n.scales p).1 := by exact_mod_cast (n.scales_pos p).1
  have hratio : ((n.scales p).2 : ℚ) * 2 ^ n.unit = (n.scales p).1 * 10 ^ p := by
    simp only [scales, Nat.shiftLeft_eq, Nat.pow_eq, Nat.cast_mul, Nat.cast_pow, Nat.cast_ofNat]
    rw [pow_toNat two_ne_zero n.unit, pow_toNat (b := 10) (by decide) p]
    ring
  refine ⟨2 ^ n.unit / (n.scales p).1, by positivity, ?_, ?_⟩
  · field_simp
  · rw [← mul_div_assoc, hratio]
    field_simp

theorem scaled_lt {x a : Nat} :
    x * (n.scales p).1 < a * (n.scales p).2 ↔ (x : ℚ) * 2 ^ n.unit < a * 10 ^ p := by
  obtain ⟨r, hr, htwo, hten⟩ := n.scales_common p
  rw [htwo, hten, ← mul_assoc, ← mul_assoc, mul_lt_mul_iff_left₀ hr]
  exact_mod_cast Iff.rfl

theorem scaled_gt {x a : Nat} :
    a * (n.scales p).2 < x * (n.scales p).1 ↔ (a : ℚ) * 10 ^ p < x * 2 ^ n.unit := by
  obtain ⟨r, hr, htwo, hten⟩ := n.scales_common p
  rw [htwo, hten, ← mul_assoc, ← mul_assoc, mul_lt_mul_iff_left₀ hr]
  exact_mod_cast Iff.rfl

/-- The amount `v` lies in the interval. -/
def Contains (v : ℚ) : Prop :=
  n.low * 2 ^ n.unit ≤ v ∧ v ≤ n.high * 2 ^ n.unit ∧
    (n.closed = false → n.low * 2 ^ n.unit < v ∧ v < n.high * 2 ^ n.unit)

theorem holds_eq {a : Nat} : n.holds p a = true ↔
    n.low * (n.scales p).1 ≤ a * (n.scales p).2 ∧ a * (n.scales p).2 ≤ n.high * (n.scales p).1 ∧
      (n.closed = false → n.low * (n.scales p).1 < a * (n.scales p).2 ∧
        a * (n.scales p).2 < n.high * (n.scales p).1) := by
  unfold holds
  cases n.closed
  · simp
    omega
  · simp

theorem holds_iff {a : Nat} : n.holds p a = true ↔ n.Contains (a * 10 ^ p) := by
  unfold Contains
  rw [holds_eq]
  simp only [← not_lt, scaled_lt, scaled_gt]

variable {n p}

theorem onGrid?_holds {a : Nat} (h : n.onGrid? p = some a) : n.holds p a = true := by
  unfold onGrid? at h
  simp only at h
  split at h
  next hlow hhigh =>
    cases h
    split
    · exact hlow
    · exact hhigh
  next hlow hhigh =>
    cases h
    exact hlow
  next hlow hhigh =>
    cases h
    exact hhigh
  next => cases h

/-- On a grid that is finer than the upper half of the interval, the point above the number lies in
it. -/
theorem onGrid?_fine (hlow : n.low ≤ n.value) (hhigh : n.high = n.value + 2)
    (hfine : (10 : ℚ) ^ p < 2 * 2 ^ n.unit) : n.onGrid? p ≠ none := by
  obtain ⟨hs, ht⟩ := n.scales_pos p
  have hstep : (n.scales p).2 < 2 * (n.scales p).1 := by
    have h := n.scaled_gt p (x := 2) (a := 1)
    simp only [one_mul, Nat.cast_ofNat, Nat.cast_one] at h
    exact h.mpr hfine
  have habove : n.holds p (n.value * (n.scales p).1 / (n.scales p).2 + 1) = true := by
    have hdiv := Nat.div_mul_le_self (n.value * (n.scales p).1) (n.scales p).2
    have hlt := (Nat.div_lt_iff_lt_mul ht).mp (Nat.lt_succ_self (n.value * (n.scales p).1 / _))
    have hle := Nat.mul_le_mul_right (n.scales p).1 hlow
    have hend : n.high * (n.scales p).1 = n.value * (n.scales p).1 + 2 * (n.scales p).1 := by
      rw [hhigh, Nat.add_mul]
    rw [holds_eq, hend]
    generalize n.value * (n.scales p).1 / (n.scales p).2 = below at *
    rw [Nat.succ_eq_add_one] at hlt
    rw [Nat.add_mul, Nat.one_mul] at *
    omega
  unfold onGrid?
  simp only [habove]
  split <;> simp_all

theorem firstGrid_holds {k : Nat} {j : Nat} (hj : j < k) (h : n.onGrid? (p - j) ≠ none) :
    n.holds (n.firstGrid k p).exponent (n.firstGrid k p).digits = true := by
  -- `j` grids on there is one with a point in the interval, and `j` falls with `k`
  induction k generalizing p j with
  | zero => exact absurd hj (Nat.not_lt_zero j)
  | succ k ih =>
    unfold firstGrid
    cases hgrid : n.onGrid? p with
    | some a => exact onGrid?_holds hgrid
    | none =>
      cases j with
      | zero => exact absurd hgrid (by simpa using h)
      | succ j =>
        apply ih (Nat.lt_of_succ_lt_succ hj)
        rwa [show p - 1 - (j : Int) = p - (j + 1 : Nat) by omega]

end Neighbourhood

/-- Three places for ten bits are too few above one, and 13 places for 43 bits too many below. -/
theorem ten_zpow_lt {n : Int} (hleast : -1100 ≤ n) (hmost : n ≤ 1100) :
    (10 : ℚ) ^ (n * 30103 / 100000) < 2 ^ (n + 5) := by
  generalize hk : n * 30103 / 100000 = k
  have hpow : ∀ (b : ℚ) (z : ℤ) (i : ℕ), (b ^ z) ^ i = (b ^ i) ^ z := fun b z i => by
    rw [← zpow_natCast, ← zpow_mul, mul_comm, zpow_mul, zpow_natCast]
  by_cases hpos : 0 ≤ k
  · apply lt_of_pow_lt_pow_left₀ 3 (by positivity)
    calc ((10 : ℚ) ^ k) ^ 3 = (10 ^ 3) ^ k := hpow 10 k 3
      _ ≤ (2 ^ 10) ^ k := zpow_le_zpow_left₀ hpos (by norm_num) (by norm_num)
      _ = 2 ^ (10 * k) := by rw [← zpow_natCast, ← zpow_mul]; rfl
      _ < 2 ^ (3 * (n + 5)) := zpow_lt_zpow_right₀ (by norm_num) (by omega)
      _ = (2 ^ (n + 5)) ^ 3 := by rw [← zpow_natCast, ← zpow_mul, mul_comm]; rfl
  · rw [← inv_lt_inv₀ (by positivity) (by positivity), ← zpow_neg, ← zpow_neg]
    apply lt_of_pow_lt_pow_left₀ 13 (by positivity)
    calc ((2 : ℚ) ^ (-(n + 5))) ^ 13 = 2 ^ (13 * (-(n + 5))) := by
          rw [← zpow_natCast, ← zpow_mul, mul_comm]; rfl
      _ < 2 ^ (43 * -k) := zpow_lt_zpow_right₀ (by norm_num) (by omega)
      _ = (2 ^ 43) ^ (-k) := by rw [← zpow_natCast, ← zpow_mul]; rfl
      _ ≤ (10 ^ 13) ^ (-k) := zpow_le_zpow_left₀ (by omega) (by norm_num) (by norm_num)
      _ = (10 ^ (-k)) ^ 13 := (hpow 10 (-k) 13).symm

/-- The digits of a number stand for a decimal in the interval around it. -/
theorem shortest_contains {m : Nat} {q : Int} (h : Canonical m q) (hm : 0 < m) :
    (Neighbourhood.around m q).Contains ((shortest m q).digits * 10 ^ (shortest m q).exponent) := by
  have hlog : m.log2 < 53 := (Nat.log2_lt (by omega)).mpr h.small
  have hleast : -1074 ≤ q := h.least
  have hmost := h.most
  rw [← Neighbourhood.holds_iff]
  apply Neighbourhood.firstGrid_holds (j := 20) (by decide)
  apply Neighbourhood.onGrid?_fine
  · simp only [Neighbourhood.around]
    omega
  · rfl
  · have hten := ten_zpow_lt (n := m.log2 + q + 1) (by omega) (by omega)
    generalize ((m.log2 : Int) + q + 1) * 30103 / 100000 = k at hten ⊢
    calc (10 : ℚ) ^ (k + 2 - (20 : Nat)) = 10 ^ k * 10 ^ (-18 : Int) := by
          rw [← zpow_add₀ (by norm_num)]
          congr 1
          omega
      _ < 2 ^ ((m.log2 : Int) + q + 1 + 5) * 10 ^ (-18 : Int) :=
          mul_lt_mul_of_pos_right hten (by positivity)
      _ ≤ 2 ^ (59 + (q - 1)) * 10 ^ (-18 : Int) :=
          mul_le_mul_of_nonneg_right (zpow_le_zpow_right₀ (by norm_num) (by omega)) (by positivity)
      _ = 2 ^ (59 : Int) * 10 ^ (-18 : Int) * 2 ^ (q - 1) := by
          rw [zpow_add₀ (by norm_num)]
          ring
      _ ≤ 1 * 2 ^ (q - 1) := mul_le_mul_of_nonneg_right (by norm_num) (by positivity)
      _ = 2 * 2 ^ (q - 2) := by
          rw [one_mul, show q - 1 = 1 + (q - 2) by omega, zpow_add₀ (by norm_num), zpow_one]

/-! ## No decimal lies in two intervals -/

section
variable {m m' : Nat} {q q' : Int} {v : ℚ}

theorem contains_pos (hm : 0 < m) (h : (Neighbourhood.around m q).Contains v) : 0 < v := by
  have hlow : 0 < (Neighbourhood.around m q).low := by
    simp only [Neighbourhood.around]
    split <;> omega
  have hlow' : (0 : ℚ) < (Neighbourhood.around m q).low := by exact_mod_cast hlow
  exact lt_of_lt_of_le (by positivity) h.1

/-- An end that two intervals share lies in neither of them if one of them is open. -/
theorem Neighbourhood.Contains.apart {n n' : Neighbourhood} (h : n.Contains v)
    (h' : n'.Contains v) (hends : (n.high : ℚ) * 2 ^ n.unit ≤ n'.low * 2 ^ n'.unit)
    (hopen : (n.high : ℚ) * 2 ^ n.unit = n'.low * 2 ^ n'.unit →
      n.closed = false ∨ n'.closed = false) : False := by
  have hmeet : (n.high : ℚ) * 2 ^ n.unit = n'.low * 2 ^ n'.unit :=
    le_antisymm hends (h'.1.trans h.2.1)
  cases hopen hmeet with
  | inl hn => exact absurd ((h.2.2 hn).2.trans_le hends) (not_lt.mpr h'.1)
  | inr hn => exact absurd (hends.trans_lt (h'.2.2 hn).1) (not_lt.mpr h.2.1)

/-- Of two neighbours one is odd, and its interval is open. -/
theorem contains_le_of_exponent_eq (h : (Neighbourhood.around m q).Contains v)
    (h' : (Neighbourhood.around m' q).Contains v) : m' ≤ m := by
  by_contra hlt
  have hunit : (0 : ℚ) < 2 ^ (q - 2) := by positivity
  have hends : (Neighbourhood.around m q).high ≤ (Neighbourhood.around m' q).low := by
    simp only [Neighbourhood.around]
    split <;> omega
  apply h.apart h'
  · exact mul_le_mul_of_nonneg_right (by exact_mod_cast hends) hunit.le
  · intro hmeet
    have hmeet' := mul_right_cancel₀ hunit.ne' hmeet
    have hsame : (Neighbourhood.around m q).high = (Neighbourhood.around m' q).low := by
      exact_mod_cast hmeet'
    simp only [Neighbourhood.around, beq_eq_false_iff_ne] at hsame ⊢
    split at hsame <;> omega

/-- The numbers with one exponent lie below those with a larger one; where their intervals meet, the
significand below is the largest one, which is odd. -/
theorem contains_exponent_le (hc : Canonical m q) (hc' : Canonical m' q')
    (h : (Neighbourhood.around m q).Contains v) (h' : (Neighbourhood.around m' q').Contains v) :
    q' ≤ q := by
  by_contra hlt
  have hunit : (0 : ℚ) < 2 ^ (q - 2) := by positivity
  have hnormal := hc'.normal (lt_of_le_of_lt hc.least (not_le.mp hlt))
  -- the end that both intervals may reach, in halves of the larger unit
  obtain ⟨b, hb⟩ : ∃ b : Nat, b = 2 ^ 54 - 1 := ⟨_, rfl⟩
  have hlow : b ≤ (Neighbourhood.around m' q').low := by
    have hleast := hc.least
    simp only [Neighbourhood.around, Bool.and_eq_true, beq_iff_eq, decide_eq_true_eq]
    split <;> simp only [hiddenBit] at * <;> omega
  have hhigh : (Neighbourhood.around m q).high ≤ b * 2 := by
    have hsmall := hc.small
    simp only [Neighbourhood.around, hiddenBit] at *
    omega
  have hdouble : (2 : ℚ) * 2 ^ (q - 2) ≤ 2 ^ (q' - 2) := by
    rw [← zpow_one_add₀ (by norm_num)]
    exact zpow_le_zpow_right₀ (by norm_num) (by omega)
  have hstart : (b * 2 : ℚ) * 2 ^ (q - 2) ≤ (Neighbourhood.around m' q').low * 2 ^ (q' - 2) := by
    rw [mul_assoc]
    exact mul_le_mul (by exact_mod_cast hlow) hdouble (by positivity) (by positivity)
  apply h.apart h'
  · exact (mul_le_mul_of_nonneg_right (by exact_mod_cast hhigh) hunit.le).trans hstart
  · intro hmeet
    left
    have hfull : (b * 2 : ℚ) ≤ (Neighbourhood.around m q).high :=
      le_of_mul_le_mul_right (hstart.trans_eq hmeet.symm) hunit
    have hfull' : b * 2 ≤ (Neighbourhood.around m q).high := by exact_mod_cast hfull
    simp only [Neighbourhood.around, beq_eq_false_iff_ne] at hhigh hfull' ⊢
    omega

theorem contains_unique (hc : Canonical m q) (hc' : Canonical m' q')
    (h : (Neighbourhood.around m q).Contains v) (h' : (Neighbourhood.around m' q').Contains v) :
    m = m' ∧ q = q' := by
  have hq : q = q' :=
    le_antisymm (contains_exponent_le hc' hc h' h) (contains_exponent_le hc hc' h h')
  subst hq
  have hm : m = m' :=
    le_antisymm (contains_le_of_exponent_eq h' h) (contains_le_of_exponent_eq h h')
  exact ⟨hm, rfl⟩

end

end Script.Number
