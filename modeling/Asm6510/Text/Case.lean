import Asm6510.Text.CaseTable
import Asm6510.Text.CasedTable
import Asm6510.Text.Class

/-!
# Upper and lower case

* `upper`: full upper case; a character may become several.
* `lower`: full lower case; a capital sigma becomes the final form at the end of a word.
-/

namespace Asm6510.Text

/-- The upper-case form of a character. -/
def upperChar (c : Char) : List Char :=
  if c.toNat < 0x80 then
    [c.toUpper]
  else
    match upperLong.lookup c.toNat with
    | some image => image.map Char.ofNat
    | none =>
      match upperRuns.findSome? (·.imageOf? c.toNat) with
      | some image => [Char.ofNat image]
      | none => [c]

/-- The lower-case form of a character on its own. -/
def lowerChar (c : Char) : List Char :=
  if c.toNat < 0x80 then
    [c.toLower]
  else if c.toNat == 0x130 then
    ['i', Char.ofNat 0x307]
  else
    match lowerRuns.findSome? (·.imageOf? c.toNat) with
    | some image => [Char.ofNat image]
    | none => [c]

/-- Whether the first character that is not case-ignorable is cased. -/
def meetsCased (cs : List Char) : Bool :=
  match cs.find? fun c => !inClass ignorableBounds c.toNat with
  | some c => inClass casedBounds c.toNat
  | none => false

/-- Lower case of the second list after the characters of the first, which stand nearest first.
A capital sigma is final when a cased character comes before it and none after it. -/
def lowerAfter (before : List Char) : List Char → List Char
  | [] => []
  | c :: rest =>
    let image :=
      if c.toNat == 0x3a3 then
        if meetsCased before && !meetsCased rest then [Char.ofNat 0x3c2] else [Char.ofNat 0x3c3]
      else
        lowerChar c
    image ++ lowerAfter (c :: before) rest

/-- Full upper case. -/
def upper (s : String) : String :=
  String.ofList (s.toList.flatMap upperChar)

/-- Full lower case. -/
def lower (s : String) : String :=
  String.ofList (lowerAfter [] s.toList)

end Asm6510.Text
