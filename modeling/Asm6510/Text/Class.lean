import Asm6510.Text.PrintableTable

/-!
# Character classes

* `InClass`: membership in a class given by its boundaries.
* `isBlank`: the white space that trimming removes.
* `decimalDigit?`: the value of a decimal digit of any script.
* `isPrintable`: characters that a quoted text shows as they are.
* `isLetter`, `isNameStart`, `isNamePart`: the ASCII classes that source words are made of.
-/

namespace Asm6510.Text

/-- A code point is in a class when an odd number of the class's boundaries are at or below it. -/
def inClass (bounds : List Nat) (c : Nat) : Bool :=
  (bounds.takeWhile (· ≤ c)).length % 2 == 1

/-- White space: the blanks of the Unicode standard and the four separators U+001C to U+001F. -/
def isBlank (c : Char) : Bool :=
  let n := c.toNat
  (9 ≤ n && n ≤ 13) || (0x1c ≤ n && n ≤ 0x20) || n == 0x85 || n == 0xa0 || n == 0x1680 ||
    (0x2000 ≤ n && n ≤ 0x200a) || n == 0x2028 || n == 0x2029 || n == 0x202f || n == 0x205f ||
    n == 0x3000

/-- The digit zero of every script outside ASCII that has decimal digits; the digits up to nine
follow it. -/
def digitZeros : List Nat := [
    0x660, 0x6f0, 0x7c0, 0x966, 0x9e6, 0xa66, 0xae6, 0xb66, 0xbe6, 0xc66, 0xce6, 0xd66, 0xde6,
    0xe50, 0xed0, 0xf20, 0x1040, 0x1090, 0x17e0, 0x1810, 0x1946, 0x19d0, 0x1a80, 0x1a90, 0x1b50,
    0x1bb0, 0x1c40, 0x1c50, 0xa620, 0xa8d0, 0xa900, 0xa9d0, 0xa9f0, 0xaa50, 0xabf0, 0xff10,
    0x104a0, 0x10d30, 0x11066, 0x110f0, 0x11136, 0x111d0, 0x112f0, 0x11450, 0x114d0, 0x11650,
    0x116c0, 0x11730, 0x118e0, 0x11950, 0x11c50, 0x11d50, 0x11da0, 0x16a60, 0x16ac0, 0x16b50,
    0x1d7ce, 0x1d7d8, 0x1d7e2, 0x1d7ec, 0x1d7f6, 0x1e140, 0x1e2f0, 0x1e950, 0x1fbf0]

/-- The value of a decimal digit of any script. -/
def decimalDigit? (c : Char) : Option Nat :=
  if c.isDigit then
    some (c.toNat - '0'.toNat)
  else
    (digitZeros.find? fun z => z ≤ c.toNat && c.toNat < z + 10).map (c.toNat - ·)

/-- Characters with a visible form, the space among them. -/
def isPrintable (c : Char) : Bool :=
  if c.toNat < 0x80 then 0x20 ≤ c.toNat && c.toNat < 0x7f
  else inClass printableBounds c.toNat

/-- ASCII letters. -/
def isLetter (c : Char) : Bool :=
  c.isAlpha

/-- Characters that a name starts with: ASCII letters and the underscore. -/
def isNameStart (c : Char) : Bool :=
  c.isAlpha || c == '_'

/-- Characters that a name goes on with: ASCII letters, digits and the underscore. -/
def isNamePart (c : Char) : Bool :=
  c.isAlpha || c.isDigit || c == '_'

/-- The value of a digit up to `f` in either case. -/
def hexDigit? (c : Char) : Option Nat :=
  if c.isDigit then some (c.toNat - '0'.toNat)
  else if 'a' ≤ c ∧ c ≤ 'f' then some (c.toNat - 'a'.toNat + 10)
  else if 'A' ≤ c ∧ c ≤ 'F' then some (c.toNat - 'A'.toNat + 10)
  else none

end Asm6510.Text
