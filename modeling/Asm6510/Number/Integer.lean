import Asm6510.Text.Trim

/-!
# Integers in digits

* `ofDigits`: the positional value of a run of digits.
* `readInteger?`: an integer as a person writes it, with blanks around it, a sign, and single
  underscores between digits.
-/

namespace Asm6510.Number

/-- The positional value of digits, the first one highest. -/
def ofDigits (base : Nat) (digits : List Nat) : Nat :=
  digits.foldl (fun value d => value * base + d) 0

/-- Digits of a decimal number beyond which it is not read. -/
def decimalLimit : Nat := 4300

/-- A decimal digit of any script as the ASCII digit of the same value. -/
def plainDigit (c : Char) : Char :=
  match Text.decimalDigit? c with
  | some d => Char.ofNat ('0'.toNat + d)
  | none => c

/-- The value of an ASCII digit or letter, if it is below the base. -/
def digit? (base : Nat) (c : Char) : Option Nat :=
  (Text.hexDigit? c).filter (· < base)

/-- The digits of a run in which single underscores may stand between two digits. The flag tells
whether a digit came right before. -/
def spacedDigits? (base : Nat) (afterDigit : Bool) : List Char → Option (List Nat)
  | [] => if afterDigit then some [] else none
  | c :: rest =>
    if c = '_' then
      if afterDigit then spacedDigits? base false rest else none
    else
      match digit? base c with
      | some d => (spacedDigits? base true rest).map (d :: ·)
      | none => none

/-- Blanks around a number: all white space but the separators U+001C to U+001F. -/
def isNumberBlank (c : Char) : Bool :=
  Text.isBlank c && !(0x1c ≤ c.toNat && c.toNat ≤ 0x1f)

/-- Splits off a sign. -/
def splitSign : List Char → Bool × List Char
  | '+' :: rest => (false, rest)
  | '-' :: rest => (true, rest)
  | cs => (false, cs)

/-- Drops `0x` before a hexadecimal number, and one underscore after it. -/
def dropHexMark (base : Nat) (cs : List Char) : List Char :=
  match base, cs with
  | 16, '0' :: 'x' :: '_' :: rest => rest
  | 16, '0' :: 'X' :: '_' :: rest => rest
  | 16, '0' :: 'x' :: rest => rest
  | 16, '0' :: 'X' :: rest => rest
  | _, cs => cs

/-- Reads an integer in base ten or sixteen. A decimal number of too many digits is refused. -/
def readInteger? (base : Nat) (s : String) : Option Int :=
  let cs := s.toList.dropWhile isNumberBlank
  let cs := (cs.reverse.dropWhile isNumberBlank).reverse
  let (negative, cs) := splitSign (cs.map plainDigit)
  match spacedDigits? base false (dropHexMark base cs) with
  | none => none
  | some digits =>
    if base = 10 ∧ decimalLimit < digits.length then
      none
    else
      let value : Int := ofDigits base digits
      some (if negative then -value else value)

end Asm6510.Number
