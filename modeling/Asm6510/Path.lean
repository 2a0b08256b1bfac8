import Asm6510.Text.Trim

/-!
# File paths

A path is kept in its plain form: no empty parts and no `.` parts, `..` kept, and two slashes at the
start told apart from one or from more.
-/

namespace Asm6510

/-- A path: how many slashes it starts with, at most two, and its parts. -/
structure Path where
  root : Nat
  parts : List String
deriving DecidableEq, Repr

namespace Path

/-- The plain form of a written path. -/
def ofText (s : String) : Path :=
  let cs := s.toList
  let slashes := (cs.takeWhile (· == '/')).length
  { root := if slashes = 0 then 0 else if slashes = 2 then 2 else 1
    parts := ((Text.splitChar '/' cs).map String.ofList).filter fun p => p != "" && p != "." }

/-- The written form; the empty path is `.`. -/
def text (p : Path) : String :=
  if p.root = 0 ∧ p.parts = [] then "."
  else String.ofList (List.replicate p.root '/') ++ Text.join "/" p.parts

/-- The path of a file in a directory. -/
def child (p : Path) (name : String) : Path :=
  { p with parts := p.parts ++ [name] }

end Path

end Asm6510
