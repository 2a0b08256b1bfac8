import Asm6510.Text.Trim

/-!
# Quoted texts

`quoted` writes a text between quotes so that it can be read back. Single quotes are used unless
the text has a single quote and no double quote; what has no visible form is escaped by number.
-/

namespace Asm6510.Text

/-- One character of a text between the quotes `quote`. -/
def escaped (quote c : Char) : String :=
  if c = quote ∨ c = '\\' then String.ofList ['\\', c]
  else if c = '\t' then "\\t"
  else if c = '\n' then "\\n"
  else if c = '\r' then "\\r"
  else if isPrintable c then String.singleton c
  else if c.toNat ≤ 0xff then "\\x" ++ hex 2 c.toNat
  else if c.toNat ≤ 0xffff then "\\u" ++ hex 4 c.toNat
  else "\\U" ++ hex 8 c.toNat

/-- The text between quotes, with escapes. -/
def quoted (s : String) : String :=
  let cs := s.toList
  let quote := if cs.contains '\'' && !cs.contains '"' then '"' else '\''
  String.singleton quote ++ join "" (cs.map (escaped quote)) ++ String.singleton quote

end Asm6510.Text
