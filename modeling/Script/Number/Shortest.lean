import Script.Number.Binary

/-! # The fewest decimal digits

A positive number `m * 2 ^ q` is written with the fewest decimal digits that are read back as the
same number. A decimal is read back as that number if it lies between the midpoints to its two
neighbours; the midpoints themselves count exactly when `m` is even. On every decimal grid only the
two grid points next to the number can be the nearest ones, so these two are tested, from coarse
grids to fine ones. -/

namespace Script.Number

/-- A decimal `digits * 10 ^ exponent`. -/
structure Decimal where
  digits : Nat
  exponent : Int
deriving DecidableEq, Repr

/-- A number and the two ends of the interval that is read back as it, all three as multiples of
`2 ^ unit`. -/
structure Neighbourhood where
  low : Nat
  value : Nat
  high : Nat
  unit : Int
  closed : Bool
deriving DecidableEq, Repr

/-- The interval around `m * 2 ^ q`. Below a power of two the next number is only half as far away,
unless the exponent is already the least one. -/
def Neighbourhood.around (m : Nat) (q : Int) : Neighbourhood where
  low := 4 * m - (if m == hiddenBit && leastExponent < q then 1 else 2)
  value := 4 * m
  high := 4 * m + 2
  unit := q - 2
  closed := m % 2 == 0

namespace Neighbourhood

/-- How many units of `2 ^ unit` and of `10 ^ p` make up the same amount: `x * 2 ^ unit` compares
with `a * 10 ^ p` as `x * (scales n p).1` with `a * (scales n p).2`. -/
def scales (n : Neighbourhood) (p : Int) : Nat × Nat :=
  (Nat.pow 10 (-p).toNat <<< n.unit.toNat, Nat.pow 10 p.toNat <<< (-n.unit).toNat)

/-- Whether `a * 10 ^ p` lies in the interval. -/
def holds (n : Neighbourhood) (p : Int) (a : Nat) : Bool :=
  let (s, t) := n.scales p
  if n.closed then n.low * s ≤ a * t && a * t ≤ n.high * s
  else n.low * s < a * t && a * t < n.high * s

/-- The point of the grid `10 ^ p` that lies in the interval, if one does: of two the nearer one,
and of two equally near ones the larger. -/
def onGrid? (n : Neighbourhood) (p : Int) : Option Nat :=
  let (s, t) := n.scales p
  let below := n.value * s / t
  match n.holds p below, n.holds p (below + 1) with
  | true, true => some (if 2 * (n.value * s % t) < t then below else below + 1)
  | true, false => some below
  | false, true => some (below + 1)
  | false, false => none

/-- The first grid with a point in the interval, from `10 ^ p` on downwards. -/
def firstGrid (n : Neighbourhood) : Nat → Int → Decimal
  | 0, p => ⟨n.value * (n.scales p).1 / (n.scales p).2, p⟩
  | k + 1, p =>
    match n.onGrid? p with
    | some a => ⟨a, p⟩
    | none => n.firstGrid k (p - 1)

end Neighbourhood

/-- The decimal with the fewest digits that is read back as `m * 2 ^ q`, and of those the nearest.
The search starts at a power of ten above the number; seventeen digits always suffice. -/
def shortest (m : Nat) (q : Int) : Decimal :=
  let top := (m.log2 + q + 1) * 30103 / 100000 + 2
  (Neighbourhood.around m q).firstGrid 21 top

/-- A decimal written out in full, without an exponent. -/
def Decimal.positional (d : Decimal) : String :=
  let digits := Nat.toDigits 10 d.digits
  let text :=
    if 0 ≤ d.exponent then digits ++ List.replicate d.exponent.toNat '0'
    else
      let places := (-d.exponent).toNat
      if places < digits.length then
        digits.take (digits.length - places) ++ '.' :: digits.drop (digits.length - places)
      else '0' :: '.' :: List.replicate (places - digits.length) '0' ++ digits
  String.ofList text

/-- The text of a number: the fewest digits that are read back as it, written out in full. Zero
keeps its sign, and what is not a number has none. -/
def text (x : Float) : String :=
  let signed (negative : Bool) (s : String) : String := if negative then "-" ++ s else s
  match parts x with
  | .nan => "NaN"
  | .infinite negative => signed negative "inf"
  | .finite negative m q =>
    signed negative (if m == 0 then "0" else (shortest m q).positional)

end Script.Number
