import Script.Number.Arithmetic
import Script.Proofs.DecimalIntervals

/-!
# Whole numbers among the floating point numbers

A finite number stands for an amount, which its parts give exactly. It is read as a whole number
exactly if that amount is whole. And a whole number of at most 53 bits is turned into the number that
stands for it: the way there goes through a product with one, and nothing is rounded off on the way.
-/

namespace Script.Number

open Float.Model (Format)
open Float.Model.UnpackedFloat (Sign pack packComponents packedInfinity unpack unpackExponent
  unpackMantissa unpackSign)

/-! ## Amounts -/

/-- The amount `± m * 2 ^ q`. -/
def amount (negative : Bool) (m : Nat) (q : Int) : ℚ :=
  if negative then -(m * 2 ^ q) else m * 2 ^ q

/-- The amount that a number stands for. Only a finite one stands for an amount. -/
def amount? (x : Float) : Option ℚ :=
  match parts x with
  | .finite negative m q => some (amount negative m q)
  | _ => none

theorem amount?_finite {x : Float} {negative : Bool} {m : Nat} {q : Int}
    (h : parts x = .finite negative m q) : amount? x = some (amount negative m q) := by
  rw [amount?, h]

/-- An amount is whole if it is a whole number of units, or its unit is a whole number. -/
theorem amount_eq_iff {negative : Bool} {m : Nat} {q n : Int} : amount negative m q = n ↔
    (if negative then -(m * 2 ^ q.toNat : ℤ) else m * 2 ^ q.toNat) = n * 2 ^ (-q).toNat := by
  have hunit : (2 : ℚ) ^ (-q).toNat ≠ 0 := by positivity
  have hscaled : amount negative m q * 2 ^ (-q).toNat =
      if negative then -(m * 2 ^ q.toNat : ℚ) else m * 2 ^ q.toNat := by
    rw [pow_toNat two_ne_zero q, amount]
    cases negative <;> simp <;> ring
  rw [← mul_left_inj' hunit, hscaled]
  cases negative <;> exact_mod_cast Iff.rfl

theorem toInt?_eq_some_iff {x : Float} {n : Int} : toInt? x = some n ↔ amount? x = some (n : ℚ) := by
  unfold toInt? amount?
  cases parts x with
  | nan => simp
  | infinite negative => simp
  | finite negative m q =>
    simp only [Nat.shiftLeft_eq, one_mul, beq_iff_eq, Option.some_inj, amount_eq_iff]
    have hunit : (2 : ℤ) ^ (-q).toNat ≠ 0 := by positivity
    by_cases hm : m % 2 ^ (-q).toNat = 0
    · obtain ⟨d, rfl⟩ := Nat.dvd_of_mod_eq_zero hm
      have hsplit : ((2 ^ (-q).toNat * d : ℕ) * 2 ^ q.toNat : ℤ) =
          (d * 2 ^ q.toNat : ℕ) * 2 ^ (-q).toNat := by
        push_cast
        ring
      rw [if_pos hm, Nat.mul_div_cancel_left d (by positivity), Option.some_inj, hsplit,
        ← neg_mul, ← ite_mul, mul_left_inj' hunit]
    · -- a proper fraction has a negative exponent, so there is nothing to multiply by
      rw [if_neg hm]
      refine iff_of_false (by simp) fun h => hm ?_
      have hq : q.toNat = 0 := by
        by_contra hpos
        have hneg : (-q).toNat = 0 := by omega
        exact hm (by rw [hneg, pow_zero, Nat.mod_one])
      have hdvd : (2 : ℤ) ^ (-q).toNat ∣ m := by
        rw [hq, pow_zero, mul_one] at h
        cases negative with
        | true => exact Int.dvd_neg.mp ⟨n, h.trans (mul_comm _ _)⟩
        | false => exact ⟨n, h.trans (mul_comm _ _)⟩
      exact Nat.mod_eq_zero_of_dvd (by exact_mod_cast hdvd)

/-! ## Packing -/

def signOf (negative : Bool) : Sign := if negative then .negative else .positive

theorem toNat_packComponents (negative : Bool) (e : BitVec 11) (m : BitVec 52) :
    (packComponents Format.binary64 (signOf negative) e m).toNat =
      (if negative then signBit else 0) + e.toNat * hiddenBit + m.toNat := by
  have he := e.isLt
  have hm := m.isLt
  show (((signOf negative).toBitVec ++ e) ++ m).toNat = _
  rw [BitVec.toNat_append, ← Nat.shiftLeft_add_eq_or_of_lt hm, BitVec.toNat_append,
    ← Nat.shiftLeft_add_eq_or_of_lt he]
  simp only [Nat.shiftLeft_eq, signBit, hiddenBit]
  cases negative with
  | true =>
    simp [signOf, Sign.toBitVec]
    omega
  | false => simp [signOf, Sign.toBitVec]

theorem Canonical.least_of_lt {m : Nat} {q : Int} (h : Canonical m q) (hm : m < hiddenBit) :
    q = leastExponent := by
  by_contra hne
  exact absurd (h.normal (lt_of_le_of_ne h.least (Ne.symm hne))) (not_le.mpr hm)

theorem Canonical.log2_le {m : Nat} {q : Int} (h : Canonical m q) (hm : 0 < m) : m.log2 ≤ 52 := by
  have hlt : m.log2 < 53 := (Nat.log2_lt hm.ne').mpr h.small
  omega

theorem Canonical.log2_eq {m : Nat} {q : Int} (h : Canonical m q) (hm : hiddenBit ≤ m) :
    m.log2 = 52 := by
  have hpos : 0 < m := lt_of_lt_of_le (by decide) hm
  have hge : 52 ≤ m.log2 := (Nat.le_log2 hpos.ne').mpr hm
  exact le_antisymm (h.log2_le hpos) hge

theorem parts_of_fields {x : Float} {negative : Bool} {e f : Nat} (he : e < 2047)
    (hf : f < hiddenBit)
    (h : x.toBits.toNat = (if negative then signBit else 0) + e * hiddenBit + f) :
    parts x = if e = 0 then .finite negative f leastExponent
      else .finite negative (hiddenBit + f) (e - 1075) := by
  have hsign : (x.toBits.toNat / signBit == 1) = negative := by
    cases negative <;> simp [signBit, hiddenBit] at * <;> omega
  have hexp : x.toBits.toNat / hiddenBit % 2048 = e := by
    simp only [signBit, hiddenBit] at *
    split at h <;> omega
  have hfrac : x.toBits.toNat % hiddenBit = f := by
    simp only [signBit, hiddenBit] at *
    split at h <;> omega
  simp only [parts, hsign, hexp, hfrac, beq_iff_eq, if_neg he.ne]

theorem pack_finite (s : Sign) (m : Nat) (q : Int) (hm : 0 < m) :
    pack Format.binary64 (.finite s m q hm) =
      if 2 ^ 11 ≤ (q + 1023 + 52).toNat + 1 then packedInfinity Format.binary64 s
      else if m.log2 + 1 = 53 then
        packComponents Format.binary64 s (.ofNat 11 (q + 1023 + 52).toNat) (.ofNat 52 m)
      else packComponents Format.binary64 s 0#11 (.ofNat 52 m) := rfl

theorem parts_pack {negative : Bool} {m : Nat} {q : Int} (h : Canonical m q) (hm : 0 < m) :
    parts (.ofModel (.pack (.finite (signOf negative) m q hm))) = .finite negative m q := by
  have hleast : -1074 ≤ q := h.least
  have hmost := h.most
  have hsmall := h.small
  have hbits : (Float.ofModel (.pack (.finite (signOf negative) m q hm))).toBits.toNat =
      (pack Format.binary64 (.finite (signOf negative) m q hm)).toNat := rfl
  rw [pack_finite, if_neg (by omega)] at hbits
  by_cases hn : hiddenBit ≤ m
  · -- the leading one of the significand is not written
    have hexp : (BitVec.ofNat 11 (q + 1023 + 52).toNat).toNat = (q + 1075).toNat := by
      rw [BitVec.toNat_ofNat]
      omega
    have hfrac : hiddenBit + (BitVec.ofNat 52 m).toNat = m := by
      simp only [BitVec.toNat_ofNat, hiddenBit] at *
      omega
    rw [if_pos (by rw [h.log2_eq hn]), toNat_packComponents, hexp] at hbits
    rw [parts_of_fields (by omega) (BitVec.isLt _) hbits, if_neg (by omega), hfrac]
    congr 1
    omega
  · -- too small for a leading one: the exponent field is zero
    have hlt : m < hiddenBit := Nat.lt_of_not_le hn
    have hlog : m.log2 < 52 := (Nat.log2_lt hm.ne').mpr hlt
    have hfrac : (BitVec.ofNat 52 m).toNat = m := by
      rw [BitVec.toNat_ofNat]
      exact Nat.mod_eq_of_lt hlt
    rw [if_neg (by omega), toNat_packComponents, hfrac] at hbits
    rw [parts_of_fields (e := 0) (by decide) hlt hbits, if_pos rfl, h.least_of_lt hlt]

theorem signOf_toBits (x : Float) :
    Sign.ofBitVec (@unpackSign Format.binary64 x.toBits.toBitVec) =
      signOf (x.toBits.toNat / signBit == 1) := by
  have hlt := x.toBits.toNat_lt
  have hbit : (@unpackSign Format.binary64 x.toBits.toBitVec).toNat = x.toBits.toNat / signBit := by
    simp [unpackSign, signBit, Nat.shiftRight_eq_div_pow]
    omega
  by_cases hneg : x.toBits.toNat / signBit = 1
  · rw [hneg, Sign.ofBitVec, if_neg (mt BitVec.toNat_inj.mpr (by rw [hbit, hneg]; decide))]
    rfl
  · have hpos : x.toBits.toNat / signBit = 0 := by
      simp only [signBit] at *
      omega
    rw [hpos, Sign.ofBitVec, if_pos (BitVec.toNat_inj.mp (by rw [hbit, hpos]; rfl))]
    rfl

/-- The operations see a finite number by its parts. -/
theorem unpack_of_parts {x : Float} {negative : Bool} {m : Nat} {q : Int}
    (h : parts x = .finite negative m q) (hm : 0 < m) :
    x.toModel.unpack = .finite (signOf negative) m q hm := by
  have hexp : (@unpackExponent Format.binary64 x.toBits.toBitVec).toNat =
      x.toBits.toNat / hiddenBit % 2048 := by
    simp [unpackExponent, hiddenBit, Nat.shiftRight_eq_div_pow]
  have hfrac : (@unpackMantissa Format.binary64 x.toBits.toBitVec).toNat =
      x.toBits.toNat % hiddenBit := by
    simp [unpackMantissa, hiddenBit]
  have hbias : (Format.binary64.exponentBias : Int) + (52 : Nat) = 1075 := by decide
  show unpack Format.binary64 x.toBits.toBitVec = _
  unfold unpack
  dsimp only
  rw [hbias, signOf_toBits]
  unfold parts at h
  simp only [beq_iff_eq] at h
  split at h
  next => split at h <;> cases h
  next hne =>
    rw [if_neg (mt (unpackExponent_iff x).mp hne)]
    split at h
    next hzero =>
      have he : @unpackExponent Format.binary64 x.toBits.toBitVec = 0#11 :=
        BitVec.toNat_inj.mp (hexp.trans hzero)
      cases h
      rw [if_pos he, dif_neg (mt (unpackMantissa_iff x).mp hm.ne')]
      simp only [hfrac, he]
      rfl
    next hzero =>
      have he : @unpackExponent Format.binary64 x.toBits.toBitVec ≠ 0#11 := fun he =>
        hzero (by rw [← hexp, he]; rfl)
      have hone : (1#1 ++ @unpackMantissa Format.binary64 x.toBits.toBitVec).toNat =
          hiddenBit + x.toBits.toNat % hiddenBit := by
        rw [BitVec.toNat_append, ← Nat.shiftLeft_add_eq_or_of_lt (BitVec.isLt _), hfrac]
        rfl
      cases h
      rw [if_neg he]
      simp only [hone, hexp]

/-! ## Rounding that drops nothing -/

open Float.Model.UnpackedFloat (ExtendedMantissa roundWithAccuracy shiftToTargetExponent)
open Float.Model (totalExponent)

theorem shiftRight_exact (m k : Nat) :
    (⟨m * 2 ^ k, false, false⟩ : ExtendedMantissa) >>> k = ⟨m, false, false⟩ := by
  show k.repeat ExtendedMantissa.shiftRightOne _ = _
  induction k generalizing m with
  | zero => simp [Nat.repeat]
  | succ k ih =>
    have h := ih (m * 2)
    rw [mul_assoc, ← pow_succ'] at h
    rw [Nat.repeat, h]
    simp [ExtendedMantissa.shiftRightOne]

theorem log2_mul_two_pow {m : Nat} (hm : 0 < m) (k : Nat) : (m * 2 ^ k).log2 = m.log2 + k := by
  induction k with
  | zero => simp
  | succ k ih =>
    have hpos : m * 2 ^ k ≠ 0 := by positivity
    rw [show m * 2 ^ (k + 1) = 2 * (m * 2 ^ k) by ring, Nat.log2_two_mul hpos, ih]
    omega

theorem Canonical.targetExponent {m : Nat} {q : Int} (h : Canonical m q) (hm : 0 < m) (k : Nat) :
    Format.binary64.targetExponent (totalExponent (m * 2 ^ k) (q - k)) = q := by
  have hleast : -1074 ≤ q := h.least
  have hmin : Format.binary64.minExponent = -1074 := by decide
  have hbits : (Format.binary64.mantissaBits : Int) = 53 := by decide
  simp only [Format.targetExponent, totalExponent, log2_mul_two_pow hm, hmin, hbits]
  by_cases hn : hiddenBit ≤ m
  · have hlog := h.log2_eq hn
    omega
  · have hq : q = -1074 := h.least_of_lt (Nat.lt_of_not_le hn)
    have hlog := h.log2_le hm
    omega

theorem shiftToTargetExponent_exact {m : Nat} {q : Int} (h : Canonical m q) (hm : 0 < m) (k : Nat) :
    shiftToTargetExponent Format.binary64 (m * 2 ^ k) (q - k) .exact = (⟨m, false, false⟩, q) := by
  have hk : (q - (q - k)).toNat = k := by omega
  simp only [shiftToTargetExponent, Float.Model.UnpackedFloat.shiftToExponent, h.targetExponent hm,
    hk, ExtendedMantissa.ofMantissaAndAccuracy, shiftRight_exact, sub_add_cancel]

theorem roundWithAccuracy_exact {m : Nat} {q : Int} (h : Canonical m q) (hm : 0 < m) (k : Nat)
    (s : Sign) :
    roundWithAccuracy Format.binary64 s (m * 2 ^ k) (q - k) .exact = .finite s m q hm := by
  -- the second shift is for a significand that became too long, which this one did not
  have hagain := shiftToTargetExponent_exact h hm 0
  simp only [pow_zero, mul_one, Nat.cast_zero, sub_zero] at hagain
  simp only [roundWithAccuracy, shiftToTargetExponent_exact h hm k, ExtendedMantissa.roundedMantissa,
    ExtendedMantissa.accuracy, Float.Model.UnpackedFloat.Accuracy.roundToNearestEven, hagain]
  rw [dif_neg hm.ne']

/-- A whole number is shifted up until it has 53 bits. -/
theorem round_whole {n : Nat} (hn : 0 < n) (hlt : n < 2 ^ 53) (s : Sign) :
    ∃ (m : Nat) (q : Int) (hm : 0 < m), Canonical m q ∧ amount false m q = n ∧
      Float.Model.UnpackedFloat.round Format.binary64 s n 0 = .finite s m q hm := by
  have hlog : n.log2 < 53 := (Nat.log2_lt hn.ne').mpr hlt
  obtain ⟨up, hup⟩ : ∃ up, n.log2 + up = 52 := ⟨52 - n.log2, by omega⟩
  have hm : 0 < n * 2 ^ up := by positivity
  have hlogm : (n * 2 ^ up).log2 = 52 := by rw [log2_mul_two_pow hn, hup]
  obtain ⟨hge, hle⟩ := (Nat.log2_eq_iff hm.ne').mp hlogm
  have hcanonical : Canonical (n * 2 ^ up) (-up) :=
    ⟨hle, by simp only [leastExponent]; omega, by omega, fun _ => hge⟩
  refine ⟨_, _, hm, hcanonical, ?_, ?_⟩
  · simp [amount]
  · have htarget : Format.binary64.targetExponent (totalExponent n 0) = -up := by
      have hmin : Format.binary64.minExponent = -1074 := by decide
      have hbits : (Format.binary64.mantissaBits : Int) = 53 := by decide
      simp only [Format.targetExponent, totalExponent, hmin, hbits]
      omega
    have hround := roundWithAccuracy_exact hcanonical hm 0 s
    simp only [pow_zero, mul_one, Nat.cast_zero, sub_zero] at hround
    simp only [Float.Model.UnpackedFloat.round, htarget, Float.Model.UnpackedFloat.decreaseExponent,
      Nat.shiftLeft_eq, zero_sub, neg_neg, Int.toNat_natCast, hround]

theorem parts_toFloat {n : Nat} (hn : 0 < n) (hlt : n < 2 ^ 53) :
    ∃ m q, 0 < m ∧ parts n.toUInt64.toFloat = .finite false m q ∧ amount false m q = n := by
  obtain ⟨m, q, hm, hc, hamount, hround⟩ := round_whole hn hlt (signOf false)
  have hnat : n.toUInt64.toNat = n := Nat.mod_eq_of_lt (by omega)
  have hpos : compare (n : Int) 0 = .gt := by
    rw [compare_gt_iff_gt]
    exact_mod_cast hn
  have hof : Float.Model.UnpackedFloat.ofUInt64 Format.binary64 n.toUInt64 =
      .finite (signOf false) m q hm := by
    simp only [Float.Model.UnpackedFloat.ofUInt64, Float.Model.UnpackedFloat.ofNat,
      Float.Model.UnpackedFloat.ofInt, Float.Model.UnpackedFloat.normalize, hnat, hpos,
      Int.toNat_natCast]
    exact hround
  refine ⟨m, q, hm, ?_, hamount⟩
  show parts (.ofModel (.pack (Float.Model.UnpackedFloat.ofUInt64 Format.binary64 n.toUInt64))) = _
  rw [hof, parts_pack hc]

/-- The product with one is rounded back to the number. -/
theorem parts_mul_one {x : Float} {m : Nat} {q : Int} (hm : 0 < m)
    (h : parts x = .finite false m q) : parts (x * 1) = .finite false m q := by
  have hone : parts 1 = .finite false hiddenBit (-52) := by decide +kernel
  have hc := (toBits_of_finite h).1
  show parts (.ofModel (.pack (Float.Model.UnpackedFloat.mul Format.binary64 x.toModel.unpack
    (1 : Float).toModel.unpack))) = _
  rw [unpack_of_parts h hm, unpack_of_parts hone (by decide)]
  have hmul : Float.Model.UnpackedFloat.mul Format.binary64 (.finite (signOf false) m q hm)
      (.finite (signOf false) hiddenBit (-52) (by decide)) = .finite (signOf false) m q hm :=
    roundWithAccuracy_exact hc hm 52 (signOf false)
  rw [hmul, parts_pack hc]

theorem parts_neg {x : Float} {negative : Bool} {m : Nat} {q : Int} (hm : 0 < m)
    (h : parts x = .finite negative m q) : parts x.neg = .finite (!negative) m q := by
  have hc := (toBits_of_finite h).1
  show parts (.ofModel (.pack x.toModel.unpack.neg)) = _
  rw [unpack_of_parts h hm]
  have hsign : -signOf negative = signOf (!negative) := by cases negative <;> rfl
  show parts (.ofModel (.pack (.finite (-signOf negative) m q hm))) = _
  rw [hsign, parts_pack hc]

theorem parts_ofNat {n : Nat} (hn : 0 < n) (hlt : n < 2 ^ 53) :
    ∃ m q, 0 < m ∧ parts (.ofNat n) = .finite false m q ∧ amount false m q = n := by
  obtain ⟨m, q, hm, hparts, hamount⟩ := parts_toFloat hn hlt
  refine ⟨m, q, hm, ?_, hamount⟩
  have hof : Float.ofNat n = n.toUInt64.toFloat * 1 := by
    show Float.ofScientific n false 0 = _
    rw [Float.ofScientific, dif_pos ⟨hlt, by decide⟩]
    rfl
  rw [hof, parts_mul_one hm hparts]

/-- A whole number of at most 53 bits becomes the number that stands for it. -/
theorem amount?_ofInt {n : Int} (h : n.natAbs < 2 ^ 53) : amount? (.ofInt n) = some (n : ℚ) := by
  cases n with
  | ofNat n =>
    rcases Nat.eq_zero_or_pos n with rfl | hn
    · have hzero : parts (.ofInt (.ofNat 0)) = .finite false 0 leastExponent := by decide +kernel
      rw [amount?_finite hzero]
      simp [amount]
    · obtain ⟨m, q, -, hparts, hamount⟩ := parts_ofNat hn h
      rw [amount?_finite (x := .ofInt (.ofNat n)) hparts, hamount]
      rfl
  | negSucc n =>
    obtain ⟨m, q, hm, hparts, hamount⟩ := parts_ofNat n.succ_pos h
    have hneg : amount true m q = -amount false m q := rfl
    rw [amount?_finite (x := .ofInt (.negSucc n)) (parts_neg hm hparts), Bool.not_false, hneg,
      hamount, Int.cast_negSucc]

end Script.Number
