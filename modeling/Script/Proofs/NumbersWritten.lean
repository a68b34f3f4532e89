import Script.Number.Read
import Script.Proofs.DecimalIntervals

/-!
# Numbers are told apart by their texts

The text of a number stands for a decimal that stands for no other number, so two numbers with the
same text are the same. What is read from digits is always a number.
-/

namespace Script.Number

open Float.Model (Format UnpackedFloat)
open Float.Model.UnpackedFloat (isNaNBits unpackExponent_packComponents)

/-! ## Numerals -/

/-- A row of digits. -/
def Digits (cs : List Char) : Prop := ∀ c ∈ cs, c.isDigit = true

/-- The text of digits, with a point among them or without one, stands for a number. -/
inductive Numeral : List Char → ℚ → Prop
  | whole {ds : List Char} (hne : ds ≠ []) (hds : Digits ds) : Numeral ds (digitsValue ds)
  | point {ds es : List Char} (hne : ds ≠ []) (hds : Digits ds) (hes : Digits es) :
    Numeral (ds ++ '.' :: es) (digitsValue (ds ++ es) * 10 ^ (-es.length : ℤ))

theorem Digits.not_point {cs : List Char} (h : Digits cs) : '.' ∉ cs := fun hmem =>
  absurd (h _ hmem) (by decide)

theorem Digits.append {cs ds : List Char} (h : Digits cs) (h' : Digits ds) : Digits (cs ++ ds) :=
  fun c hc => (List.mem_append.mp hc).elim (h c) (h' c)

theorem digits_zeros (n : Nat) : Digits (List.replicate n '0') := fun c hc => by
  rw [List.eq_of_mem_replicate hc]
  rfl

theorem Digits.takeWhile {ds es : List Char} (h : Digits ds) :
    (ds ++ '.' :: es).takeWhile Char.isDigit = ds := by
  rw [List.takeWhile_append_of_pos h]
  simp [show Char.isDigit '.' = false by decide]

theorem Numeral.unique {cs : List Char} {v w : ℚ} (h : Numeral cs v) (h' : Numeral cs w) :
    v = w := by
  cases h with
  | whole _ hds =>
    cases h' with
    | whole => rfl
    | point => exact absurd (by simp) hds.not_point
  | @point ds es _ hds =>
    generalize hcs : ds ++ '.' :: es = cs at h'
    cases h' with
    | whole _ hds' => exact absurd (by simp [← hcs]) hds'.not_point
    | point _ hds' =>
      have hwhole := congrArg (List.takeWhile Char.isDigit) hcs
      rw [hds.takeWhile, hds'.takeWhile] at hwhole
      subst hwhole
      rw [(List.cons.inj (List.append_cancel_left hcs)).2]

theorem digitsValue_append (ds es : List Char) :
    digitsValue (ds ++ es) = Nat.ofDigitChars 10 es (digitsValue ds) :=
  Nat.ofDigitChars_append 0

theorem digitsValue_zeros (n : Nat) (ds : List Char) :
    digitsValue (List.replicate n '0' ++ ds) = digitsValue ds := by
  have hzeros : digitsValue (List.replicate n '0') = 0 := Nat.ofDigitChars_replicate_zero
  rw [digitsValue_append, hzeros]
  rfl

/-- Written out, a decimal stands for itself. -/
theorem positional_numeral (d : Decimal) :
    Numeral d.positional.toList (d.digits * 10 ^ d.exponent) := by
  have hne : Nat.toDigits 10 d.digits ≠ [] := Nat.toDigits_ne_nil
  have hds : Digits (Nat.toDigits 10 d.digits) := fun c hc =>
    Nat.isDigit_of_mem_toDigits (by decide) (by decide) hc
  have hvalue : digitsValue (Nat.toDigits 10 d.digits) = d.digits := Nat.ofDigitChars_ten_toDigits
  unfold Decimal.positional
  generalize Nat.toDigits 10 d.digits = ds at *
  simp only [String.toList_ofList]
  split
  next hexp =>
    obtain ⟨k, hk⟩ := Int.eq_ofNat_of_zero_le hexp
    rw [hk, Int.toNat_natCast]
    have h : Numeral (ds ++ List.replicate k '0') _ :=
      .whole (by simp [hne]) (hds.append (digits_zeros _))
    rw [digitsValue_append, hvalue, Nat.ofDigitChars_replicate_zero] at h
    convert h using 1
    simp [mul_comm]
  next hexp =>
    obtain ⟨k, hk⟩ : ∃ k : Nat, d.exponent = -k := ⟨(-d.exponent).toNat, by omega⟩
    rw [hk, Int.neg_neg, Int.toNat_natCast]
    split
    next hlt =>
      have h : Numeral (ds.take (ds.length - k) ++ '.' :: ds.drop (ds.length - k)) _ :=
        .point (by simp [hne]; omega) (fun c hc => hds c (List.mem_of_mem_take hc))
          (fun c hc => hds c (List.mem_of_mem_drop hc))
      rw [List.take_append_drop, hvalue, List.length_drop] at h
      rwa [show ds.length - (ds.length - k) = k by omega] at h
    next hle =>
      have h : Numeral (List.replicate 1 '0' ++
          '.' :: (List.replicate (k - ds.length) '0' ++ ds)) _ :=
        .point (by simp) (digits_zeros 1) ((digits_zeros (k - ds.length)).append hds)
      rw [← List.append_assoc, List.replicate_append_replicate, digitsValue_zeros, hvalue,
        List.length_append, List.length_replicate] at h
      rwa [show k - ds.length + ds.length = k by omega] at h

theorem Numeral.head {cs : List Char} {v : ℚ} (h : Numeral cs v) :
    ∃ c rest, cs = c :: rest ∧ c.isDigit = true := by
  cases h with
  | whole hne hds =>
    obtain ⟨c, rest, rfl⟩ := List.exists_cons_of_ne_nil hne
    exact ⟨c, rest, rfl, hds c (.head rest)⟩
  | point hne hds =>
    obtain ⟨c, rest, rfl⟩ := List.exists_cons_of_ne_nil hne
    exact ⟨c, _, rfl, hds c (.head rest)⟩

/-! ## Texts -/

/-- The sign in front of a number. -/
def sign (negative : Bool) : List Char := if negative then ['-'] else []

/-- How the parts of a number are written: whether with a sign, and what stands behind it. -/
inductive Written : Parts → Bool → List Char → Prop
  | nan : Written .nan false ['N', 'a', 'N']
  | infinite (negative : Bool) : Written (.infinite negative) negative ['i', 'n', 'f']
  | finite (negative : Bool) {m : Nat} {q : Int} {cs : List Char} {v : ℚ} (hc : Canonical m q)
    (h : Numeral cs v) (hv : if m = 0 then v = 0 else (Neighbourhood.around m q).Contains v) :
    Written (.finite negative m q) negative cs

theorem text_written (x : Float) :
    ∃ negative cs, (text x).toList = sign negative ++ cs ∧ Written (parts x) negative cs := by
  have hsign : ∀ (negative : Bool) (s : String),
      (if negative then "-" ++ s else s).toList = sign negative ++ s.toList := by
    intro negative s
    cases negative <;> simp [sign]
  unfold text
  cases h : parts x with
  | nan => exact ⟨false, _, rfl, .nan⟩
  | infinite negative => exact ⟨negative, _, hsign negative "inf", .infinite negative⟩
  | finite negative m q =>
    have hc := (toBits_of_finite h).1
    simp only [hsign, beq_iff_eq]
    by_cases hm : m = 0
    · rw [if_pos hm]
      have hzero : Numeral ['0'] 0 := .whole (by simp) (digits_zeros 1)
      exact ⟨negative, _, rfl, .finite negative hc hzero (if_pos hm ▸ rfl)⟩
    · rw [if_neg hm]
      refine ⟨negative, _, rfl, .finite negative hc (positional_numeral _) ?_⟩
      rw [if_neg hm]
      exact shortest_contains hc (Nat.pos_of_ne_zero hm)

/-- A word or a digit stands first. -/
theorem Written.head {p : Parts} {negative : Bool} {cs : List Char} (h : Written p negative cs) :
    ∃ c rest, cs = c :: rest ∧ c ≠ '-' := by
  cases h with
  | nan => exact ⟨_, _, rfl, by decide⟩
  | infinite => exact ⟨_, _, rfl, by decide⟩
  | finite _ _ h =>
    obtain ⟨c, rest, rfl, hc⟩ := h.head
    refine ⟨c, rest, rfl, ?_⟩
    rintro rfl
    cases hc

theorem Canonical.of_zero {q : Int} (h : Canonical 0 q) : q = leastExponent := by
  have hleast := h.least
  have hnormal := h.normal
  simp only [hiddenBit] at hnormal
  omega

theorem Written.unique {p p' : Parts} {negative : Bool} {cs : List Char}
    (h : Written p negative cs) (h' : Written p' negative cs) : p = p' := by
  cases h with
  | nan =>
    cases h' with
    | nan => rfl
    | finite _ _ hn =>
      obtain ⟨_, _, ⟨rfl, rfl⟩, hc⟩ := hn.head
      cases hc
  | infinite =>
    cases h' with
    | infinite => rfl
    | finite _ _ hn =>
      obtain ⟨_, _, ⟨rfl, rfl⟩, hc⟩ := hn.head
      cases hc
  | @finite _ m q _ v hc hn hv =>
    cases h' with
    | nan | infinite =>
      obtain ⟨_, _, ⟨rfl, rfl⟩, hc⟩ := hn.head
      cases hc
    | @finite _ m' q' _ v' hc' hn' hv' =>
      cases hn.unique hn'
      by_cases hm : m = 0
      · by_cases hm' : m' = 0
        · subst hm hm'
          rw [hc.of_zero, hc'.of_zero]
        · rw [if_pos hm] at hv
          rw [if_neg hm'] at hv'
          exact absurd hv (contains_pos (Nat.pos_of_ne_zero hm') hv').ne'
      · by_cases hm' : m' = 0
        · rw [if_neg hm] at hv
          rw [if_pos hm'] at hv'
          exact absurd hv' (contains_pos (Nat.pos_of_ne_zero hm) hv).ne'
        · rw [if_neg hm] at hv
          rw [if_neg hm'] at hv'
          obtain ⟨rfl, rfl⟩ := contains_unique hc hc' hv hv'
          rfl

theorem sign_append {negative negative' : Bool} {c c' : Char} {cs cs' : List Char} (hc : c ≠ '-')
    (hc' : c' ≠ '-') (h : sign negative ++ c :: cs = sign negative' ++ c' :: cs') :
    negative = negative' ∧ c :: cs = c' :: cs' := by
  cases negative <;> cases negative' <;> simp_all [sign, eq_comm]

/-- Numbers are told apart by their texts. -/
theorem text_injective : Function.Injective text := by
  intro x y hxy
  obtain ⟨negative, cs, hx, hwritten⟩ := text_written x
  obtain ⟨negative', cs', hy, hwritten'⟩ := text_written y
  obtain ⟨c, rest, rfl, hc⟩ := hwritten.head
  obtain ⟨c', rest', rfl, hc'⟩ := hwritten'.head
  rw [hxy, hy] at hx
  obtain ⟨rfl, hsame⟩ := sign_append hc' hc hx
  rw [hsame] at hwritten'
  exact parts_injective (hwritten.unique hwritten')

/-! ## What is read is a number -/

/-- Only what is not a number is packed as such. -/
theorem isNaNBits_pack {f : UnpackedFloat} (hf : f ≠ .notANumber) :
    isNaNBits (UnpackedFloat.pack Format.binary64 f) = false := by
  unfold isNaNBits
  rw [decide_eq_false_iff_not]
  fun_cases UnpackedFloat.pack with
  | case1 => exact absurd rfl hf
  | case2 => simp [UnpackedFloat.packedInfinity]
  | case3 => simp [UnpackedFloat.packedZero]
  | case4 => simp [UnpackedFloat.packedInfinity]
  | case5 s m e hm bits biased hlt =>
    have hexp : BitVec.ofNat 11 biased ≠ -1#11 := by
      rw [ne_eq, ← BitVec.toNat_inj]
      simp at hlt ⊢
      omega
    rw [unpackExponent_packComponents]
    exact fun h => hexp h.1
  | case6 => simp

theorem roundWithAccuracy_ne_nan (spec : Format) (s : UnpackedFloat.Sign) (m : Nat) (e : Int)
    (a : UnpackedFloat.Accuracy) : UnpackedFloat.roundWithAccuracy spec s m e a ≠ .notANumber := by
  unfold UnpackedFloat.roundWithAccuracy
  dsimp only
  split <;> intro h <;> cases h

theorem ofNat_ne_nan (spec : Format) (n : Nat) : UnpackedFloat.ofNat spec n ≠ .notANumber := by
  unfold UnpackedFloat.ofNat UnpackedFloat.ofInt UnpackedFloat.normalize
  split
  · exact roundWithAccuracy_ne_nan _ _ _ _ _
  · exact UnpackedFloat.noConfusion
  · exact roundWithAccuracy_ne_nan _ _ _ _ _

theorem ofScientific_ne_nan (spec : Format) (m : Nat) (e : Int) :
    UnpackedFloat.ofScientific spec m e ≠ .notANumber := by
  unfold UnpackedFloat.ofScientific
  split
  · exact UnpackedFloat.noConfusion
  · split
    · exact UnpackedFloat.noConfusion
    · split
      · exact UnpackedFloat.noConfusion
      · split
        · exact roundWithAccuracy_ne_nan _ _ _ _ _
        · exact roundWithAccuracy_ne_nan _ _ _ _ _

theorem number_of_pack {f : UnpackedFloat} (hf : f ≠ .notANumber) :
    parts (.ofModel (.pack f)) ≠ .nan := by
  intro h
  have hbits : (Float.ofModel (.pack f)).toBits.toBitVec =
      UnpackedFloat.pack Format.binary64 f := rfl
  have hnan := isNaNBits_of_parts h
  rw [hbits, isNaNBits_pack hf] at hnan
  cases hnan

/-- A number that is neither infinite nor zero. -/
def isMeasured : UnpackedFloat → Bool
  | .finite .. => true
  | _ => false

theorem scaled_ne_nan {f g : UnpackedFloat} (hf : f ≠ .notANumber) (hg : isMeasured g = true) :
    UnpackedFloat.mul Format.binary64 f g ≠ .notANumber ∧
      UnpackedFloat.div Format.binary64 f g ≠ .notANumber := by
  cases g <;> cases hg
  cases f with
  | notANumber => exact absurd rfl hf
  | infinity | zero => exact ⟨UnpackedFloat.noConfusion, UnpackedFloat.noConfusion⟩
  | finite => exact ⟨roundWithAccuracy_ne_nan _ _ _ _ _, roundWithAccuracy_ne_nan _ _ _ _ _⟩

theorem powersOfTen_measured :
    ∀ c ∈ Float.exactlyRepresentablePowersOfTen.toList, isMeasured c.toModel.unpack = true := by
  decide +kernel

theorem toFloat_ne_nan (n : UInt64) : n.toFloat.toModel.unpack ≠ .notANumber := by
  intro h
  have hbits := (UnpackedFloat.unpack_eq_notANumber_iff_of_valid n.toFloat.toModel.valid).mp h
  have hnan : isNaNBits (UnpackedFloat.pack Format.binary64 (.ofNat _ n.toNat)) = true :=
    hbits ▸ UnpackedFloat.isNaNBits_packedNaN
  rw [isNaNBits_pack (ofNat_ne_nan _ _)] at hnan
  cases hnan

theorem ofScientific_number (m : Nat) (negative : Bool) (e : Nat) :
    parts (Float.ofScientific m negative e) ≠ .nan := by
  unfold Float.ofScientific
  split
  next h =>
    have hten := powersOfTen_measured _ (Array.mem_toList_iff.mpr (Array.getElem_mem (i := e) (by
      simp [Float.exactlyRepresentablePowersOfTen]; omega)))
    cases negative with
    | true => exact number_of_pack (scaled_ne_nan (toFloat_ne_nan _) hten).2
    | false => exact number_of_pack (scaled_ne_nan (toFloat_ne_nan _) hten).1
  next => exact number_of_pack (ofScientific_ne_nan _ _ _)

/-- Whatever the digits and the exponent, a number is read. -/
theorem ofDecimal_number (m : Nat) (e : Int) : parts (ofDecimal m e) ≠ .nan := by
  unfold ofDecimal
  by_cases hzero : (m == 0) = true
  · rw [if_pos hzero]
    decide +kernel
  · rw [if_neg hzero]
    by_cases hlarge : 1024 ≤ m.log2 + (if e < 0 then 4 else 3) * e
    · rw [if_pos hlarge]
      decide +kernel
    · rw [if_neg hlarge]
      by_cases hsmall : m.log2 + 3 * e ≤ -1080
      · rw [if_pos hsmall]
        decide +kernel
      · rw [if_neg hsmall]
        exact ofScientific_number _ _ _

end Script.Number
