import Script.Proofs.ForLoops
import Script.Proofs.WholeNumbers

/-!
# Bit operations on numbers

The operands of a bit operation are whole numbers, and what counts of each is a word of 32 bits. A
number of at most 64 bits counts as the word that is congruent to it. One that is larger does not wrap
around: it counts as the nearest number of 64 bits does, which is the word of ones above and the word
of zeros below.
-/

namespace Script

/-! ## Operators between two expressions -/

/-- The evaluation of an expression comes to this end, in this world. -/
def World.Evaluates (w : World) (e : Expr) (ending : Ending Value) (w' : World) : Prop :=
  ∃ n, w.evaluate (State.run n) e = some (ending, w')

namespace State

variable {s : State} {k : List Frame} {v u : Value} {w w₁ w₂ : World} {e left right : Expr}

/-- A run that ends with a value hands it to the frames below. -/
theorem Ends.onto (h : s.Ends (.value v, w)) (k : List Frame) :
    ∃ n, step^[n] (s.onto k) = ⟨.value v, k, w⟩ := by
  obtain ⟨m, hm⟩ := ends_iff.mp h
  clear h
  -- the run may be over before `m` steps, and then it stays where it is
  induction m generalizing s with
  | zero =>
    obtain ⟨ho, hw⟩ := ended?_iff.mp hm
    refine ⟨0, ?_⟩
    obtain ⟨c, j, w'⟩ := s
    cases c <;> cases j <;> cases ho
    cases hw
    rfl
  | succ m ih =>
    cases ho : s.outcome? with
    | none =>
      obtain ⟨n, hn⟩ := ih hm
      exact ⟨n + 1, by rw [Function.iterate_succ_apply, step_onto ho, hn]⟩
    | some o =>
      rw [Function.iterate_succ_apply, step_ended ho] at hm
      exact ih hm

theorem ends_of_iterate {r : Outcome × World} {n : Nat} (h : (step^[n] s).Ends r) : s.Ends r := by
  obtain ⟨m, hm⟩ := ends_iff.mp h
  rw [← Function.iterate_add_apply] at hm
  exact ends_iff.mpr ⟨m + n, hm⟩

/-- The operands are evaluated from left to right, and the operator is applied to their values. -/
theorem Ends.binary (op : Token) (hleft : Ends ⟨.eval left, [], w⟩ (.value v, w₁))
    (hright : Ends ⟨.eval right, [], w₁⟩ (.value u, w₂)) :
    Ends ⟨.eval (.binary left op right), [], w⟩
      (match Operator.apply op.kind v u with
        | .ok z => (.value z, w₂)
        | .error f => (.error ⟨op, f⟩, w₂)) := by
  obtain ⟨m, hm⟩ := hleft.onto [.left op right]
  obtain ⟨n, hn⟩ := hright.onto [.right v op]
  rw [ends_step rfl]
  apply ends_of_iterate (n := m)
  show Ends (step^[m] (State.onto [.left op right] ⟨.eval left, [], w⟩)) _
  rw [hm, ends_step rfl]
  apply ends_of_iterate (n := n)
  show Ends (step^[n] (State.onto [.right v op] ⟨.eval right, [], w₁⟩)) _
  rw [hn, ends_step rfl]
  show Ends (ofResult [] w₂ ((Operator.apply op.kind v u).mapError fun f => ⟨op, f⟩)) _
  cases Operator.apply op.kind v u with
  | ok z => exact ⟨1, rfl⟩
  | error f => exact ⟨1, rfl⟩

end State

namespace World

variable {w w' : World} {e : Expr}

/-- A number is not what a statement leaves behind. -/
theorem evaluates_number {x : Float} : w.Evaluates e (.done (.number x)) w' ↔
    State.Ends ⟨.eval e, [], w⟩ (.value (.number x), w') := by
  refine exists_congr fun n => ⟨fun h => ?_, fun h => ?_⟩
  · obtain ⟨⟨o, w''⟩, hr, h⟩ := Option.bind_eq_some_iff.mp h
    rw [hr]
    cases o <;> cases h
    rfl
  · rw [evaluate, h]
    rfl

theorem evaluates_constant (x : Float) :
    w.Evaluates (.constant (.number x)) (.done (.number x)) w := ⟨2, rfl⟩

theorem evaluates_of_error {err : RuntimeError}
    (h : State.Ends ⟨.eval e, [], w⟩ (.error err, w')) : w.Evaluates e (.failed err) w' := by
  obtain ⟨n, hn⟩ := h
  refine ⟨n, ?_⟩
  rw [evaluate, hn]
  rfl

end World

namespace Number

/-- The word of 32 bits that a whole number counts as. -/
inductive CountsAs (m : Int) (a : Int32) : Prop
  | congruent (hleast : -2 ^ 63 ≤ m) (hmost : m < 2 ^ 63) (h : a.toInt ≡ m [ZMOD 2 ^ 32])
  | ones (hm : 2 ^ 63 ≤ m) (h : a = -1)
  | zeros (hm : m < -2 ^ 63) (h : a = 0)

theorem word_countsAs (m : Int) : CountsAs m (word m) := by
  have hmin : Int64.minValue.toInt = -2 ^ 63 := by decide
  have hmax : Int64.maxValue.toInt = 2 ^ 63 - 1 := by decide
  unfold word clamp
  rw [hmin, hmax]
  by_cases hleast : m < -2 ^ 63
  · rw [if_pos hleast]
    exact .zeros hleast (by decide)
  · rw [if_neg hleast]
    by_cases hmost : 2 ^ 63 - 1 < m
    · rw [if_pos hmost]
      exact .ones (by omega) (by decide)
    · rw [if_neg hmost]
      refine .congruent (by omega) (by omega) ?_
      rw [Int32.toInt_ofInt]
      exact Int.bmod_emod

theorem bitwise?_whole {f : Int32 → Int32 → Int32} {x y : Float} {m n : Int}
    (hx : amount? x = some (m : ℚ)) (hy : amount? y = some (n : ℚ)) :
    ∃ z, bitwise? f x y = some z ∧ amount? z = some ((f (word m) (word n)).toInt : ℚ) := by
  refine ⟨_, ?_, amount?_ofInt (n := (f (word m) (word n)).toInt) ?_⟩
  · rw [bitwise?, toInt?_eq_some_iff.mpr hx, toInt?_eq_some_iff.mpr hy]
  · have hlt := (f (word m) (word n)).toInt_lt
    have hge := (f (word m) (word n)).le_toInt
    omega

theorem bitwise?_not_whole {f : Int32 → Int32 → Int32} {x y : Float}
    (h : ¬ ∃ m n : Int, amount? x = some (m : ℚ) ∧ amount? y = some (n : ℚ)) :
    bitwise? f x y = none := by
  unfold bitwise?
  split
  next m n hx hy =>
    exact absurd ⟨m, n, toInt?_eq_some_iff.mp hx, toInt?_eq_some_iff.mp hy⟩ h
  next => rfl

end Number

def Operator.onWords? : Kind → Option (Int32 → Int32 → Int32)
  | .and => some (· &&& ·)
  | .or => some (· ||| ·)
  | .xor => some (· ^^^ ·)
  | _ => none

theorem Operator.apply_onWords {op : Kind} {f : Int32 → Int32 → Int32} (h : onWords? op = some f)
    (x y : Float) : apply op (.number x) (.number y) =
      match Number.bitwise? f x y with
      | some z => .ok (.number z)
      | none => .error .operandsNotWhole := by
  unfold onWords? at h
  split at h <;> cases h <;> rfl

open Number

/-- A bit operator between expressions whose values are numbers. If both numbers are whole, however
large, each counts as a word, and the value is the number for what the operation makes of the two
words. Otherwise the error says that they are not whole. -/
theorem World.bit_operators_on_words {op : Token} {f : Int32 → Int32 → Int32} {left right : Expr}
    {x y : Float} {w w₁ w₂ : World} (hop : Operator.onWords? op.kind = some f)
    (hleft : w.Evaluates left (.done (.number x)) w₁)
    (hright : w₁.Evaluates right (.done (.number y)) w₂) :
    (∀ m n : Int, amount? x = some (m : ℚ) → amount? y = some (n : ℚ) →
      ∃ a b z, CountsAs m a ∧ CountsAs n b ∧ amount? z = some ((f a b).toInt : ℚ) ∧
        w.Evaluates (.binary left op right) (.done (.number z)) w₂) ∧
    ((¬ ∃ m n : Int, amount? x = some (m : ℚ) ∧ amount? y = some (n : ℚ)) →
      ∃ e : RuntimeError, e.token = op ∧ e.fault.message = "Operands must be integer numbers." ∧
        w.Evaluates (.binary left op right) (.failed e) w₂) := by
  have hends := (evaluates_number.mp hleft).binary op (evaluates_number.mp hright)
  rw [Operator.apply_onWords hop] at hends
  constructor
  · intro m n hx hy
    obtain ⟨z, hz, hamount⟩ := bitwise?_whole (f := f) hx hy
    rw [hz] at hends
    exact ⟨word m, word n, z, word_countsAs m, word_countsAs n, hamount,
      evaluates_number.mpr hends⟩
  · intro hnot
    rw [bitwise?_not_whole hnot] at hends
    exact ⟨⟨op, .operandsNotWhole⟩, rfl, rfl, evaluates_of_error hends⟩

/-- In `4294967297 ^ 18446744073709551616` the left operand wraps around to one, and the right one
counts as the word of ones. In `0.5 ^ 4294967297` an operand is not whole. -/
theorem World.bit_operators_on_words_xor :
    let x : Float := .ofBits 0x41F0000000100000
    let y : Float := .ofBits 0x43F0000000000000
    let half : Float := .ofBits 0x3FE0000000000000
    let op : Token := ⟨.xor, "^", none, .start⟩
    amount? x = some ((4294967297 : Int) : ℚ) ∧
    amount? y = some ((18446744073709551616 : Int) : ℚ) ∧
    (∃ a b z, CountsAs 4294967297 a ∧ CountsAs 18446744073709551616 b ∧
      amount? z = some ((a ^^^ b).toInt : ℚ) ∧
      World.Evaluates {} (.binary (.constant (.number x)) op (.constant (.number y)))
        (.done (.number z)) {}) ∧
    ∃ e : RuntimeError, e.token = op ∧ e.fault.message = "Operands must be integer numbers." ∧
      World.Evaluates {} (.binary (.constant (.number half)) op (.constant (.number x)))
        (.failed e) {} := by
  intro x y half op
  have hop : Operator.onWords? op.kind = some (· ^^^ ·) := rfl
  have hx : amount? x = some ((4294967297 : Int) : ℚ) := toInt?_eq_some_iff.mp (by decide +kernel)
  have hy : amount? y = some ((18446744073709551616 : Int) : ℚ) :=
    toInt?_eq_some_iff.mp (by decide +kernel)
  have hhalf : toInt? half = none := by decide +kernel
  have hleft := evaluates_constant (w := {}) x
  have hwhole := bit_operators_on_words hop hleft (evaluates_constant y)
  have hbroken := bit_operators_on_words hop (evaluates_constant half) hleft
  refine ⟨hx, hy, hwhole.1 _ _ hx hy, hbroken.2 ?_⟩
  rintro ⟨m, -, hm, -⟩
  rw [toInt?_eq_some_iff.mpr hm] at hhalf
  cases hhalf

/-- It is not the case that operands of every size wrap around: `9223372036854775808 & 1` is one,
though the word congruent to the left operand is zero. -/
theorem World.bit_operators_not_wrapping :
    ¬ ∀ (op : Token) (f : Int32 → Int32 → Int32) (left right : Expr) (x y : Float)
      (w w₁ w₂ : World) (m n : Int) (a b : Int32), Operator.onWords? op.kind = some f →
      w.Evaluates left (.done (.number x)) w₁ → w₁.Evaluates right (.done (.number y)) w₂ →
      amount? x = some (m : ℚ) → amount? y = some (n : ℚ) →
      a.toInt ≡ m [ZMOD 2 ^ 32] → b.toInt ≡ n [ZMOD 2 ^ 32] →
      ∃ z, amount? z = some ((f a b).toInt : ℚ) ∧
        w.Evaluates (.binary left op right) (.done (.number z)) w₂ := by
  intro hwraps
  have hx : amount? (.ofBits 0x43E0000000000000) = some ((2 ^ 63 : Int) : ℚ) :=
    toInt?_eq_some_iff.mp (by decide +kernel)
  have hy : amount? (.ofBits 0x3FF0000000000000) = some ((1 : Int) : ℚ) :=
    toInt?_eq_some_iff.mp (by decide +kernel)
  have hleft := evaluates_constant (w := {}) (.ofBits 0x43E0000000000000)
  have hright := evaluates_constant (w := {}) (.ofBits 0x3FF0000000000000)
  obtain ⟨z, hzero, hz⟩ := hwraps ⟨.and, "&", none, .start⟩ (· &&& ·) _ _ _ _ _ _ _ _ _ 0 1 rfl
    hleft hright hx hy (by decide) (by decide)
  obtain ⟨z', hz', hone⟩ := bitwise?_whole (f := (· &&& ·)) hx hy
  have hends := (evaluates_number.mp hleft).binary ⟨.and, "&", none, .start⟩
    (evaluates_number.mp hright)
  rw [Operator.apply_onWords rfl, hz'] at hends
  obtain ⟨m, hm⟩ := State.ends_iff.mp (evaluates_number.mp hz)
  obtain ⟨m', hm'⟩ := State.ends_iff.mp hends
  cases State.ended?_unique hm hm'
  rw [hzero] at hone
  exact absurd hone (by decide +kernel)

end Script
