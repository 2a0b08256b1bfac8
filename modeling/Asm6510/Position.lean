import Asm6510.Text.Trim

/-!
# Places in a text

* `Place`: line and column of a token, counted from one.
* `Position`, `Range`: line and character as editors count them, from zero.
* `Location`: a place in a named file, for messages.
-/

namespace Asm6510

/-- A place in a source text; lines and columns count from one. -/
structure Place where
  line : Nat
  column : Nat
deriving DecidableEq, Repr

namespace Place

/-- The first place of a text. -/
def start : Place := ⟨1, 1⟩

/-- The place behind a character. -/
def next (p : Place) (c : Char) : Place :=
  if c = '\n' then ⟨p.line + 1, 1⟩ else ⟨p.line, p.column + 1⟩

/-- The place behind some characters. -/
def after (p : Place) (cs : List Char) : Place :=
  cs.foldl next p

@[simp] theorem after_nil (p : Place) : p.after [] = p := rfl

@[simp] theorem after_cons (p : Place) (c : Char) (cs : List Char) :
    p.after (c :: cs) = (p.next c).after cs := rfl

theorem after_append (p : Place) (xs ys : List Char) :
    p.after (xs ++ ys) = (p.after xs).after ys :=
  List.foldl_append

/-- Source order. -/
def before (p q : Place) : Bool :=
  p.line < q.line || (p.line == q.line && p.column < q.column)

end Place

/-- A position as editors count it; lines and characters count from zero. -/
structure Position where
  line : Int
  character : Int
deriving DecidableEq, Repr

/-- A place as editors count it. -/
def Place.toPosition (p : Place) : Position :=
  ⟨(p.line : Int) - 1, (p.column : Int) - 1⟩

/-- Text order of positions. -/
def Position.before (p q : Position) : Bool :=
  p.line < q.line || (p.line == q.line && p.character < q.character)

/-- A stretch of text. -/
structure Range where
  start : Position
  stop : Position
deriving DecidableEq, Repr

namespace Range

/-- The empty range at the start of a text. -/
def zero : Range := ⟨⟨0, 0⟩, ⟨0, 0⟩⟩

/-- `length` characters of one line. -/
def span (start : Position) (length : Int) : Range :=
  ⟨start, ⟨start.line, start.character + length⟩⟩

/-- Whether a line is among the lines of the range. -/
def containsLine (r : Range) (line : Int) : Bool :=
  r.start.line ≤ line && line ≤ r.stop.line

end Range

/-- A place in a named file. -/
structure Location where
  file : String
  line : Int
  column : Int
deriving DecidableEq, Repr

/-- File, line and column with colons between them. -/
def Location.text (l : Location) : String :=
  l.file ++ ":" ++ Text.decimal l.line ++ ":" ++ Text.decimal l.column

/-- The location of a place in a file. -/
def Place.location (p : Place) (file : String) : Location :=
  ⟨file, p.line, p.column⟩

/-- The location of a position in a file. -/
def Position.location (p : Position) (file : String) : Location :=
  ⟨file, p.line + 1, p.character + 1⟩

end Asm6510
