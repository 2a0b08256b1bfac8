import Asm6510.Number.Integer

/-!
# Double precision numbers

* `Binary64`: the numbers with 53 significant bits, by their parts.
* `ofDecimal`: the nearest number to a decimal, a tie going to the even neighbour.
* `wholePart`: the number without its fraction.
* `text`: the fewest digits that read back, positional from `1e-4` to below `1e16`.
-/

namespace Asm6510.Number

/-- A double precision number; a finite one is `mantissa * 2 ^ exponent` with its sign. -/
inductive Binary64
  | finite (negative : Bool) (mantissa : Nat) (exponent : Int)
  | infinite (negative : Bool)
  | undefined
deriving DecidableEq, Repr

namespace Binary64

/-- The quotient rounded to the nearest natural number, a tie to the even one. -/
def roundDiv (num den : Nat) : Nat :=
  let q := num / den
  let r := num % den
  if 2 * r < den then q
  else if den < 2 * r then q + 1
  else if q % 2 = 0 then q else q + 1

/-- `num / den * 2 ^ shift` as a fraction of natural numbers. -/
def scaled (num den : Nat) (shift : Int) : Nat × Nat :=
  if 0 ≤ shift then (num * Nat.pow 2 shift.toNat, den) else (num, den * Nat.pow 2 (-shift).toNat)

/-- The greatest `k` with `2 ^ k ≤ num / den`, for a positive quotient. -/
def floorLog2 (num den : Nat) : Int :=
  let k : Int := (num.log2 : Int) - den.log2
  let (n, d) := scaled num den (-k)
  if n < d then k - 1 else k

/-- The nearest number to the quotient `num / den`. -/
def ofQuotient (negative : Bool) (num den : Nat) : Binary64 :=
  if num = 0 then
    .finite negative 0 (-1074)
  else
    let exponent := max (floorLog2 num den - 52) (-1074)
    let (n, d) := scaled num den (-exponent)
    let mantissa := roundDiv n d
    let (mantissa, exponent) :=
      if mantissa = Nat.pow 2 53 then (Nat.pow 2 52, exponent + 1) else (mantissa, exponent)
    if 971 < exponent then .infinite negative else .finite negative mantissa exponent

/-- The number of decimal digits of a natural number; zero has one. -/
def digitCount (n : Nat) : Nat :=
  (Nat.toDigits 10 n).length

/-- The nearest number to `digits * 10 ^ exponent`. Decimals beyond the range of exponents are
settled by their size alone. -/
def ofDecimal (negative : Bool) (digits : Nat) (exponent : Int) : Binary64 :=
  let size : Int := digitCount digits + exponent
  if digits = 0 ∨ size < -330 then .finite negative 0 (-1074)
  else if 310 < size then .infinite negative
  else if 0 ≤ exponent then ofQuotient negative (digits * Nat.pow 10 exponent.toNat) 1
  else ofQuotient negative digits (Nat.pow 10 (-exponent).toNat)

/-- The magnitude of a finite number as a fraction. -/
def quotient (mantissa : Nat) (exponent : Int) : Nat × Nat :=
  scaled mantissa 1 exponent

/-- The magnitude without its fraction, where the number is finite. -/
def wholePart? : Binary64 → Option Nat
  | .finite _ mantissa exponent =>
    let (n, d) := quotient mantissa exponent
    some (n / d)
  | _ => none

/-- The greatest `e` with `10 ^ e ≤ num / den`, found next to its estimate from the binary
logarithm. -/
def floorLog10 (num den : Nat) : Int :=
  let estimate := Int.fdiv (floorLog2 num den * 30103) 100000
  let reaches (e : Int) : Bool :=
    if 0 ≤ e then den * Nat.pow 10 e.toNat ≤ num else den ≤ num * Nat.pow 10 (-e).toNat
  if reaches (estimate + 1) then estimate + 1
  else if reaches estimate then estimate
  else estimate - 1

/-- A decimal of `count` digits that reads back as the given number, as its digits and the power of
ten of the last one; of the two neighbours the nearer one, and of equally near ones the even
one. -/
def decimalOf? (mantissa : Nat) (exponent : Int) (count : Nat) : Option (Nat × Int) :=
  let (num, den) := quotient mantissa exponent
  let power := floorLog10 num den - ((count : Int) - 1)
  let (n, d) :=
    if 0 ≤ power then (num, den * Nat.pow 10 power.toNat)
    else (num * Nat.pow 10 (-power).toNat, den)
  let below := n / d
  let readsBack (digits : Nat) : Bool :=
    ofDecimal false digits power == .finite false mantissa exponent
  let nearest := roundDiv n d
  let other := if nearest = below then below + 1 else below
  ([nearest, other].find? readsBack).map (·, power)

/-- The digits of the shortest decimal that reads back, and the power of ten of the first one. -/
def shortest (mantissa : Nat) (exponent : Int) : List Char × Int :=
  match (List.range 17).findSome? fun i => decimalOf? mantissa exponent (i + 1) with
  | some (digits, power) =>
    let cs := Nat.toDigits 10 digits
    let kept := (cs.reverse.dropWhile (· == '0')).reverse
    (if kept.isEmpty then ['0'] else kept, power + ((cs.length : Int) - 1))
  | none => (['0'], 0)

/-- Digits with a point after the first `whole` of them; a missing part is written as zeros. -/
def positional (digits : List Char) (first : Int) : List Char :=
  if first < 0 then
    '0' :: '.' :: (List.replicate (-first - 1).toNat '0' ++ digits)
  else
    let whole := first.toNat + 1
    let padded := digits ++ List.replicate (whole - digits.length) '0'
    let fraction := padded.drop whole
    padded.take whole ++ '.' :: (if fraction.isEmpty then ['0'] else fraction)

/-- One digit, the rest after a point, and the power of ten with its sign and two places. -/
def scientific (digits : List Char) (first : Int) : List Char :=
  let power := (Text.decimal first.natAbs).toList
  let power := if power.length < 2 then '0' :: power else power
  let tail := digits.drop 1
  digits.take 1 ++ (if tail.isEmpty then [] else '.' :: tail) ++
    'e' :: (if first < 0 then '-' else '+') :: power

/-- The fewest digits that read back. -/
def text : Binary64 → String
  | .undefined => "nan"
  | .infinite negative => if negative then "-inf" else "inf"
  | .finite negative mantissa exponent =>
    let body :=
      if mantissa = 0 then
        ['0', '.', '0']
      else
        let (digits, first) := shortest mantissa exponent
        if -4 ≤ first ∧ first < 16 then positional digits first else scientific digits first
    String.ofList (if negative then '-' :: body else body)

end Binary64

end Asm6510.Number
