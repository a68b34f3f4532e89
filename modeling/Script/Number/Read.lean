import Script.Number.Binary

/-! # Numerals

How the text of a number is read. A numeral has digits with at most one point among them and may
end in an exponent; at least one digit stands outside the exponent. -/

namespace Script.Number

/-- The natural number that a row of decimal digits denotes. -/
def digitsValue (digits : List Char) : Nat :=
  digits.foldl (fun n c => 10 * n + (c.toNat - '0'.toNat)) 0

/-- The number nearest to `m * 10 ^ e`. Where the outcome is plainly infinite or zero it is decided by
size, before any power of ten is computed: ten lies between `2 ^ 3` and `2 ^ 4`, so `m * 10 ^ e` is at
least two to the power `m.log2 + 3 * e` if `e` is not negative and `m.log2 + 4 * e` if it is, and for a
negative `e` it is less than two to the power `m.log2 + 1 + 3 * e`. -/
def ofDecimal (m : Nat) (e : Int) : Float :=
  if m == 0 then 0
  else if 1024 ≤ m.log2 + (if e < 0 then 4 else 3) * e then Float.ofBits 0x7FF0000000000000
  else if m.log2 + 3 * e ≤ -1080 then 0
  else Float.ofScientific m (e < 0) e.natAbs

/-- The size of the exponent that a row of decimal digits denotes. Once it has reached `2 ^ 16`, the
digits that follow no longer count. -/
def exponentSize (digits : List Char) : Nat :=
  digits.foldl (fun n c => if n < 65536 then 10 * n + (c.toNat - '0'.toNat) else n) 0

/-- The exponent written at the end of a numeral; none is written as nothing at all. -/
def exponent? : List Char → Option Int
  | [] => some 0
  | mark :: rest =>
    if mark == 'e' || mark == 'E' then
      let (sign, digits) : Int × List Char :=
        match rest with
        | '-' :: digits => (-1, digits)
        | '+' :: digits => (1, digits)
        | digits => (1, digits)
      if !digits.isEmpty && digits.all Char.isDigit then some (sign * exponentSize digits) else none
    else none

/-- The number that a numeral without a sign denotes. -/
def numeral? (cs : List Char) : Option Float :=
  let whole := cs.takeWhile Char.isDigit
  let (places, rest) : List Char × List Char :=
    match cs.dropWhile Char.isDigit with
    | '.' :: rest => (rest.takeWhile Char.isDigit, rest.dropWhile Char.isDigit)
    | rest => ([], rest)
  if whole.isEmpty && places.isEmpty then none
  else (exponent? rest).map fun e => ofDecimal (digitsValue (whole ++ places)) (e - places.length)

/-- The number that a text without a sign denotes: a numeral or, in any case of letters, a word for
infinity or for what is not a number. -/
def unsigned? (cs : List Char) : Option Float :=
  let word := String.ofList (cs.map Char.toLower)
  if word == "inf" || word == "infinity" then some (Float.ofBits 0x7FF0000000000000)
  else if word == "nan" then some (Float.ofBits 0x7FF8000000000000)
  else numeral? cs

/-- The number that a text denotes, with an optional sign in front. -/
def read? : List Char → Option Float
  | '-' :: rest => (unsigned? rest).map fun x => -x
  | '+' :: rest => unsigned? rest
  | cs => unsigned? cs

end Script.Number
