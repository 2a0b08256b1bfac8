import Asm6510.Position

/-!
# Comments within a line

`inComment` tells whether a column of a line lies in a comment. It reads the line on its own,
character by character, with an automaton of five states.
-/

namespace Asm6510

/-- What a character of a line is part of. Parentheses are counted, because a semicolon starts a
comment only outside of them. -/
inductive LineState
  | code (depth : Nat)
  | quoted (depth : Nat)
  | block (depth : Nat)
  /-- A comment that reaches to the end of the line. -/
  | comment
  /-- The second character of a mark, with what follows it. -/
  | mark (next : LineState)
deriving DecidableEq, Repr

namespace LineState

/-- The state after a character, given the character behind it. -/
def step (c : Char) (following : Option Char) : LineState → LineState
  | code depth =>
    if c == '"' then quoted depth
    else if c == '/' && following == some '/' then comment
    else if c == '/' && following == some '*' then mark (block depth)
    else if c == ';' && depth == 0 then comment
    else if c == '(' then code (depth + 1)
    else if c == ')' then code (depth - 1)
    else code depth
  | quoted depth =>
    if c == '\\' then mark (quoted depth)
    else if c == '"' then code depth
    else quoted depth
  | block depth =>
    if c == '*' && following == some '/' then mark (code depth) else block depth
  | comment => comment
  | mark next => next

/-- The state after the first `count` characters. -/
def after (s : LineState) : (count : Nat) → List Char → LineState
  | 0, _ => s
  | _, [] => s
  | count + 1, c :: rest => (s.step c rest.head?).after count rest

/-- Whether a state is within a comment. -/
def inside : LineState → Bool
  | block _ => true
  | comment => true
  | mark next => next.inside
  | _ => false

end LineState

/-- Whether a column of a line, counted from zero, lies in a comment. -/
def inComment (line : String) (column : Int) : Bool :=
  ((LineState.code 0).after column.toNat line.toList).inside

end Asm6510
