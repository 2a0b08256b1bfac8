/-!
# Lengths in UTF-16 code units

A character outside the basic plane takes two units, every other one.
-/

namespace Asm6510.Text

/-- Units of one character. -/
def charUnits (c : Char) : Nat :=
  if c.toNat < 0x10000 then 1 else 2

/-- Units of a sequence of characters. -/
def units (cs : List Char) : Nat :=
  cs.foldr (fun c n => charUnits c + n) 0

/-- Length of a text in UTF-16 code units. -/
def utf16Length (s : String) : Nat :=
  units s.toList

end Asm6510.Text
