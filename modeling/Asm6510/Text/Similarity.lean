/-!
# Similar texts

Two texts are as alike as the share of their characters that stand in common runs: the longest
common run, then the longest ones before it and behind it, and so on. `closeTexts` gives the texts of
a list that are alike enough to a word to be meant by it.
-/

namespace Asm6510.Text

/-- The length of the common start of two lists. -/
def commonStart : List Char → List Char → Nat
  | x :: xs, y :: ys => if x = y then commonStart xs ys + 1 else 0
  | _, _ => 0

/-- A common run: where it starts in both lists, and its length. -/
structure CommonRun where
  first : Nat
  second : Nat
  length : Nat
deriving DecidableEq, Repr

/-- The longest common run; of several, the one that starts first in the first list, then in the
second. -/
def longestRun (xs ys : List Char) : CommonRun :=
  let starts := (List.range xs.length).flatMap fun i => (List.range ys.length).map fun j => (i, j)
  starts.foldl
    (fun best (i, j) =>
      let n := commonStart (xs.drop i) (ys.drop j)
      if best.length < n then ⟨i, j, n⟩ else best)
    ⟨0, 0, 0⟩

/-- The number of characters in common runs, to a depth that `fuel` allows. -/
def commonCountWithin : (fuel : Nat) → List Char → List Char → Nat
  | 0, _, _ => 0
  | fuel + 1, xs, ys =>
    let run := longestRun xs ys
    if run.length = 0 then 0
    else
      commonCountWithin fuel (xs.take run.first) (ys.take run.second) + run.length +
        commonCountWithin fuel (xs.drop (run.first + run.length))
          (ys.drop (run.second + run.length))

/-- The number of characters in common runs. -/
def commonCount (xs ys : List Char) : Nat :=
  commonCountWithin (xs.length + 1) xs ys

/-- A text with the share of its characters and those of a word that are in common runs, as the
numbers of both. -/
structure Candidate where
  text : String
  common : Nat
  total : Nat
deriving DecidableEq, Repr

/-- The candidate of a text for a word. -/
def Candidate.of (word text : String) : Candidate :=
  ⟨text, commonCount text.toList word.toList, text.length + word.length⟩

/-- Whether at least six tenths of the characters are in common runs. -/
def Candidate.isClose (c : Candidate) : Bool :=
  3 * c.total ≤ 10 * c.common

/-- The order of candidates: the more alike first, and of equally alike ones the later text. -/
def Candidate.atLeast (a b : Candidate) : Bool :=
  b.common * a.total < a.common * b.total ||
    (b.common * a.total == a.common * b.total && b.text ≤ a.text)

/-- At most three texts that may be meant by a word, in the order of texts. -/
def closeTexts (word : String) (texts : List String) : List String :=
  let close := (texts.map (Candidate.of word)).filter Candidate.isClose
  (((close.mergeSort Candidate.atLeast).take 3).map Candidate.text).mergeSort (· ≤ ·)

end Asm6510.Text
