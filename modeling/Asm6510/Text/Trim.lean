import Asm6510.Text.Class

/-!
# Trimming, splitting and joining

Small operations on texts that are given by their characters.
-/

namespace Asm6510.Text

/-- Drops the characters at the start that satisfy `p`. -/
def trimLeft (p : Char → Bool) (s : String) : String :=
  String.ofList (s.toList.dropWhile p)

/-- Drops the characters at the end that satisfy `p`. -/
def trimRight (p : Char → Bool) (s : String) : String :=
  String.ofList (s.toList.reverse.dropWhile p).reverse

/-- Drops white space at both ends. -/
def trim (s : String) : String :=
  trimRight isBlank (trimLeft isBlank s)

/-- Whether the text starts with the given characters. -/
def startsWith (s start : String) : Bool :=
  start.toList.isPrefixOf s.toList

/-- Splits at every character equal to `sep`; there is one part more than separators. -/
def splitChar (sep : Char) : List Char → List (List Char)
  | [] => [[]]
  | c :: rest =>
    if c = sep then
      [] :: splitChar sep rest
    else
      match splitChar sep rest with
      | [] => [[c]]
      | part :: parts => (c :: part) :: parts

/-- The lines of a text: the parts between line feeds. -/
def lines (s : String) : List String :=
  (splitChar '\n' s.toList).map String.ofList

/-- The texts in order with `sep` between them. -/
def join (sep : String) (parts : List String) : String :=
  String.intercalate sep parts

/-- `n` in decimal. -/
def decimal (n : Int) : String :=
  match n with
  | .ofNat k => String.ofList (Nat.toDigits 10 k)
  | .negSucc k => String.ofList ('-' :: Nat.toDigits 10 (k + 1))

/-- `n` in hexadecimal with lower-case digits, at least `width` of them. -/
def hex (width n : Nat) : String :=
  let digits := Nat.toDigits 16 n
  String.ofList (List.replicate (width - digits.length) '0' ++ digits)

/-- Blanks after the text up to `width` characters. -/
def padRight (width : Nat) (s : String) : String :=
  s ++ String.ofList (List.replicate (width - s.length) ' ')

/-- Blanks before the text up to `width` characters. -/
def padLeft (width : Nat) (s : String) : String :=
  String.ofList (List.replicate (width - s.length) ' ') ++ s

end Asm6510.Text
