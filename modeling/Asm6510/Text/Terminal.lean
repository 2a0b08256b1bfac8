import Asm6510.Text.Class

/-!
# Terminal sequences

A terminal takes an escape with a bracket, parameters and a letter as a command, such as one that
changes the colour. `plain` gives a text without these sequences, for output that goes to no
terminal. The text is read once from left to right: what is left may again look like a sequence.
-/

namespace Asm6510.Text

/-- The character that starts a sequence. -/
def escapeMark : Char := '\x1b'

/-- The characters between the bracket and the letter of a sequence. -/
def isParameter (c : Char) : Bool :=
  c == ';' || c == '?' || c.isDigit

/-- What stands behind a sequence, given the characters behind its escape. -/
def afterSequence? : List Char → Option (List Char)
  | '[' :: cs =>
    match cs.dropWhile isParameter with
    | c :: rest => if c.isAlpha then some rest else none
    | [] => none
  | _ => none

theorem length_afterSequence?_lt {cs rest : List Char} (h : afterSequence? cs = some rest) :
    rest.length < cs.length := by
  unfold afterSequence? at h
  split at h
  · rename_i cs
    have hle := (List.dropWhile_suffix isParameter (l := cs)).length_le
    split at h
    · rename_i c behind hd
      rw [hd] at hle
      split at h
      · cases h
        simp only [List.length_cons] at hle ⊢
        omega
      · cases h
    · cases h
  · cases h

/-- The characters without sequences, behind those that are already done in reverse. -/
def plainChars (done : List Char) : List Char → List Char
  | [] => done.reverse
  | c :: cs =>
    if c = escapeMark then
      match _h : afterSequence? cs with
      | some rest => plainChars done rest
      | none => plainChars (c :: done) cs
    else
      plainChars (c :: done) cs
termination_by cs => cs.length
decreasing_by
  · have := length_afterSequence?_lt _h
    simp only [List.length_cons]
    omega
  · simp only [List.length_cons]
    omega
  · simp only [List.length_cons]
    omega

/-- The text without terminal sequences. -/
def plain (s : String) : String :=
  String.ofList (plainChars [] s.toList)

end Asm6510.Text
