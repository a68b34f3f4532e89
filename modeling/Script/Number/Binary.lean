/-! # Floating point numbers in parts

A number is not a number at all, infinite, or `± m * 2 ^ q` with natural `m`. The parts are exact,
so what is computed from them is computed in whole numbers. -/

namespace Script.Number

/-- The parts of a floating point number. -/
inductive Parts where
  | nan
  | infinite (negative : Bool)
  | finite (negative : Bool) (m : Nat) (q : Int)
deriving DecidableEq, Repr

/-- The exponent of the smallest positive number. -/
def leastExponent : Int := -1074

/-- The significand of a power of two, and one more than the largest fraction. -/
def hiddenBit : Nat := 0x10000000000000

/-- The bit that marks a negative number. -/
def signBit : Nat := 0x8000000000000000

/-- The parts of `x`, read off its 64 bits: a sign, an exponent in 11 bits, and a fraction in 52. -/
def parts (x : Float) : Parts :=
  let bits := x.toBits.toNat
  let negative := bits / signBit == 1
  let exponent : Nat := bits / hiddenBit % 2048
  let fraction := bits % hiddenBit
  if exponent == 2047 then
    if fraction == 0 then .infinite negative else .nan
  else if exponent == 0 then .finite negative fraction leastExponent
  else .finite negative (hiddenBit + fraction) ((exponent : Int) - 1075)

/-- The number `± m * 2 ^ q`, for `m` of at most 53 bits and `q` at least the least exponent. The
significand is shifted up until it has 53 bits or the exponent is the least one. -/
def ofParts (negative : Bool) (m : Nat) (q : Int) : Float :=
  let up := Nat.min (52 - m.log2) (q - leastExponent).toNat
  let m := m <<< up
  let exponent := if m < hiddenBit then 0 else (q - up + 1075).toNat
  let sign := if negative then signBit else 0
  Float.ofBits (UInt64.ofNat (sign + exponent * hiddenBit + m % hiddenBit))

/-- The whole number that `x` denotes, if it denotes one. -/
def toInt? (x : Float) : Option Int :=
  match parts x with
  | .finite negative m q =>
    let unit := 1 <<< (-q).toNat
    if m % unit == 0 then
      let n := (m / unit) <<< q.toNat
      some (if negative then -(n : Int) else n)
    else none
  | _ => none

end Script.Number
