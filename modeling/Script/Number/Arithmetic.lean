import Script.Number.Binary

/-! # Remainders and bit operations

The two kinds of arithmetic on numbers that are computed in whole numbers. -/

namespace Script.Number

/-- The remainder of the division of `x` by `y` rounded toward zero. It is exact and has the sign
of `x`; there is none for an infinite `x` or a zero `y`. -/
def remainder (x y : Float) : Float :=
  let none := Float.ofBits 0x7FF8000000000000
  match parts x, parts y with
  | .finite negative m q, .finite _ n r =>
    if n == 0 then none
    else
      let unit := if q ≤ r then q else r
      ofParts negative ((m <<< (q - unit).toNat) % (n <<< (r - unit).toNat)) unit
  | .finite _ _ _, .infinite _ => x
  | _, _ => none

/-- The whole number nearest to `n` among those of 64 bits. -/
def clamp (n : Int) : Int :=
  if n < Int64.minValue.toInt then Int64.minValue.toInt
  else if Int64.maxValue.toInt < n then Int64.maxValue.toInt
  else n

/-- The word of 32 bits for a whole number: the number is first brought into the range of 64 bits,
then its low 32 bits are taken. -/
def word (n : Int) : Int32 := Int32.ofInt (clamp n)

/-- A bit operation on two numbers as words of 32 bits, if both are whole. -/
def bitwise? (op : Int32 → Int32 → Int32) (x y : Float) : Option Float :=
  match toInt? x, toInt? y with
  | some m, some n => some (Float.ofInt (op (word m) (word n)).toInt)
  | _, _ => none

end Script.Number
