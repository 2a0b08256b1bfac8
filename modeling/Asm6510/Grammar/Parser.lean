import Asm6510.Diagnostic
import Asm6510.Reference.Basic
import Asm6510.Tree.Statement

/-!
# Parsers

* `Rules`: what a parse depends on beside its tokens.
* `State`: the current token, the tokens ahead, and what was found so far.
* `Parser`: a step that never goes back in the tokens, so that loops end.
* `whileNext`, `skipNested`, `skipLine`: the loops that the grammar is made of.

Main statements: `Parser.left_le`, no step goes back; `State.left_advance_lt`, moving on from a
token that is not the last one leaves fewer tokens.
-/

namespace Asm6510.Grammar

/-- The bound of the nesting, and the reference that operands are checked against. -/
structure Rules where
  limit : Nat
  ref : Option Reference

/-- The state of a parse. -/
structure State where
  current : Token
  /-- The tokens behind the current one; the last token of a text is its end. -/
  ahead : List Token
  diagnostics : List Diagnostic
  /-- Whether the nesting bound was reported. -/
  depthReported : Bool
  /-- Whether the rest of a construct is skipped without messages. -/
  unwinding : Bool
  /-- Whether a number beyond the range of numbers was met. -/
  unbounded : Bool

namespace State

/-- The number of tokens ahead. -/
def left (s : State) : Nat :=
  s.ahead.length

/-- The token behind the current one; the last token is followed by itself. -/
def peek (s : State) : Token :=
  match s.ahead with
  | [] => s.current
  | t :: _ => t

/-- The token behind the next one. -/
def peekSecond (s : State) : Token :=
  match s.ahead with
  | [] => s.current
  | [t] => t
  | _ :: t :: _ => t

/-- Moves to the next token; the last one stays. -/
def advance (s : State) : State :=
  match s.ahead with
  | [] => s
  | t :: rest => { s with current := t, ahead := rest }

/-- Adds a diagnostic. -/
def add (s : State) (d : Diagnostic) : State :=
  { s with diagnostics := s.diagnostics ++ [d] }

theorem left_advance_le (s : State) : s.advance.left ≤ s.left := by
  unfold advance left
  split <;> simp_all

theorem left_advance_lt {s : State} {t : Token} {rest : List Token} (h : s.ahead = t :: rest) :
    s.advance.left < s.left := by
  simp [advance, left, h]

end State

/-- A step of a parse; it never goes back. -/
structure Parser (α : Type) where
  run : State → α × State
  left_le : ∀ s, (run s).2.left ≤ s.left

namespace Parser

variable {α β : Type}

/-- Does nothing. -/
protected def pure (a : α) : Parser α :=
  ⟨fun s => (a, s), fun _ => Nat.le_refl _⟩

/-- One step after another. -/
protected def bind (p : Parser α) (f : α → Parser β) : Parser β :=
  ⟨fun s => (f (p.run s).1).run (p.run s).2,
    fun s => Nat.le_trans ((f (p.run s).1).left_le _) (p.left_le s)⟩

instance : Monad Parser where
  pure := Parser.pure
  bind := Parser.bind

@[simp] theorem run_pure (a : α) (s : State) : (pure a : Parser α).run s = (a, s) := rfl

@[simp] theorem run_bind (p : Parser α) (f : α → Parser β) (s : State) :
    (p >>= f).run s = (f (p.run s).1).run (p.run s).2 := rfl

end Parser

/-- The whole state. -/
def state : Parser State :=
  ⟨fun s => (s, s), fun _ => Nat.le_refl _⟩

/-- The current token. -/
def current : Parser Token :=
  ⟨fun s => (s.current, s), fun _ => Nat.le_refl _⟩

/-- The next token. -/
def peek : Parser Token :=
  ⟨fun s => (s.peek, s), fun _ => Nat.le_refl _⟩

/-- Moves on and gives the token reached. -/
def advance : Parser Token :=
  ⟨fun s => (s.advance.current, s.advance), fun s => s.left_advance_le⟩

/-- Whether the next token is of a kind. -/
def nextIs (kind : TokenKind) : Parser Bool :=
  ⟨fun s => (s.peek.kind == kind, s), fun _ => Nat.le_refl _⟩

/-- Whether the current token is of a kind. -/
def currentIs (kind : TokenKind) : Parser Bool :=
  ⟨fun s => (s.current.kind == kind, s), fun _ => Nat.le_refl _⟩

/-- Adds a diagnostic whatever the state is. -/
def addDiagnostic (d : Diagnostic) : Parser Unit :=
  ⟨fun s => ((), s.add d), fun _ => Nat.le_refl _⟩

/-- Reports an error at a token, unless a construct is being skipped. -/
def reportAt (token : Token) (message : String) : Parser Unit :=
  ⟨fun s => ((), if s.unwinding then s else s.add (.atPlace .error message token.place .grammar)),
    fun s => by dsimp only; split <;> exact Nat.le_refl _⟩

/-- Reports an error at the current token. -/
def reportHere (message : String) : Parser Unit := do
  reportAt (← current) message

/-- Reports an error at the next token. -/
def reportNext (message : String) : Parser Unit := do
  reportAt (← peek) message

/-- Reports the nesting bound at a place, once. -/
def reportDepth (rules : Rules) (place : Place) : Parser Unit :=
  ⟨fun s =>
    ((), if s.depthReported then s
      else
        { s.add (.atPlace .error
            ("Maximum nesting depth of " ++ Text.decimal rules.limit ++ " exceeded") place .grammar)
          with depthReported := true }),
    fun s => by dsimp only; split <;> exact Nat.le_refl _⟩

/-- Starts or ends skipping without messages. -/
def setUnwinding (b : Bool) : Parser Unit :=
  ⟨fun s => ((), { s with unwinding := b }), fun _ => Nat.le_refl _⟩

/-- Notes that a number is beyond the range of numbers. -/
def noteUnbounded : Parser Unit :=
  ⟨fun s => ((), { s with unbounded := true }), fun _ => Nat.le_refl _⟩

/-- Tokens that start a statement, and the end of the text. -/
def startsStatement (t : Token) : Bool :=
  t.kind == .endOfText || t.kind == .label || t.kind == .programCounter || t.kind.isMnemonic ||
    Text.startsWith t.literal "."

/-- Tokens that end the statement before them. -/
def endsStatement (t : Token) : Bool :=
  startsStatement t || t.kind == .rightBrace

/-- Whether the next token goes on with the statement on the line of the current one. -/
def hasValueOnLine : Parser Bool :=
  ⟨fun s => (s.peek.place.line == s.current.place.line && !endsStatement s.peek, s),
    fun _ => Nat.le_refl _⟩

/-! ### Loops -/

variable {α : Type}

/-- While the next token is `separator`: moves onto it and carries out `body`, which gives items or
stops the loop. The flag tells whether `body` stopped it. -/
def whileNextRun (separator : TokenKind) (body : Parser (Option (List α))) (s : State) :
    { r : (List α × Bool) × State // r.2.left ≤ s.left } :=
  match h : s.ahead with
  | [] => ⟨(([], false), s), Nat.le_refl _⟩
  | t :: _ =>
    if t.kind = separator then
      let r := body.run s.advance
      have hr : r.2.left < s.left :=
        Nat.lt_of_le_of_lt (body.left_le s.advance) (State.left_advance_lt h)
      match r.1 with
      | none => ⟨(([], true), r.2), Nat.le_of_lt hr⟩
      | some items =>
        let rest := whileNextRun separator body r.2
        ⟨((items ++ rest.1.1.1, rest.1.1.2), rest.1.2), Nat.le_trans rest.2 (Nat.le_of_lt hr)⟩
    else
      ⟨(([], false), s), Nat.le_refl _⟩
termination_by s.left

/-- While the next token is `separator`: moves onto it and carries out `body`, which gives items or
stops the loop. The flag tells whether `body` stopped it. -/
def whileNext (separator : TokenKind) (body : Parser (Option (List α))) : Parser (List α × Bool) :=
  ⟨fun s => (whileNextRun separator body s).1, fun s => (whileNextRun separator body s).2⟩

/-- Moves on behind `depth` open marks to the mark that closes the first one, or to the last token
before the end of the text. Gives the number of marks that stay open. -/
def skipNestedRun (opening closing : TokenKind) (depth : Nat) (s : State) :
    { r : Nat × State // r.2.left ≤ s.left } :=
  if depth = 0 then
    ⟨(0, s), Nat.le_refl _⟩
  else
    match h : s.ahead with
    | [] => ⟨(depth, s), Nat.le_refl _⟩
    | t :: _ =>
      if t.kind = .endOfText then
        ⟨(depth, s), Nat.le_refl _⟩
      else
        have hs := State.left_advance_lt h
        let depth :=
          if t.kind = opening then depth + 1 else if t.kind = closing then depth - 1 else depth
        let rest := skipNestedRun opening closing depth s.advance
        ⟨rest.1, Nat.le_trans rest.2 (Nat.le_of_lt hs)⟩
termination_by s.left

/-- Moves from an opening mark to the mark that closes it, or to the last token before the end of
the text. Gives the number of marks that stay open. -/
def skipNested (opening closing : TokenKind) : Parser Nat :=
  ⟨fun s => (skipNestedRun opening closing 1 s).1, fun s => (skipNestedRun opening closing 1 s).2⟩

/-- Moves on to the last token of a line. -/
def skipLineRun (line : Nat) (s : State) : { r : State // r.left ≤ s.left } :=
  match h : s.ahead with
  | [] => ⟨s, Nat.le_refl _⟩
  | t :: _ =>
    if t.place.line = line ∧ t.kind ≠ .endOfText then
      have hs := State.left_advance_lt h
      let rest := skipLineRun line s.advance
      ⟨rest.1, Nat.le_trans rest.2 (Nat.le_of_lt hs)⟩
    else
      ⟨s, Nat.le_refl _⟩
termination_by s.left

/-- Moves on to the last token of a line. -/
def skipLine (line : Nat) : Parser Unit :=
  ⟨fun s => ((), (skipLineRun line s).1), fun s => (skipLineRun line s).2⟩

/-- Carries out `item` and moves on, again and again, until the current token is of a kind that
`stop` tells, `item` asks to end, or the tokens end. -/
def untilRun (stop : TokenKind → Bool) (item : Parser (List α × Bool)) (s : State) :
    { r : List α × State // r.2.left ≤ s.left } :=
  if stop s.current.kind then
    ⟨([], s), Nat.le_refl _⟩
  else
    let r := item.run s
    have hr : r.2.left ≤ s.left := item.left_le s
    if r.1.2 then
      ⟨(r.1.1, r.2), hr⟩
    else
      match h : r.2.ahead with
      | [] => ⟨(r.1.1, r.2), hr⟩
      | _ :: _ =>
        have hs : r.2.advance.left < s.left := Nat.lt_of_lt_of_le (State.left_advance_lt h) hr
        let rest := untilRun stop item r.2.advance
        ⟨(r.1.1 ++ rest.1.1, rest.1.2), Nat.le_trans rest.2 (Nat.le_of_lt hs)⟩
termination_by s.left

/-- Carries out `item` and moves on, again and again, until the current token is of a kind that
`stop` tells, `item` asks to end, or the tokens end. -/
def untilKind (stop : TokenKind → Bool) (item : Parser (List α × Bool)) : Parser (List α) :=
  ⟨fun s => (untilRun stop item s).1, fun s => (untilRun stop item s).2⟩

end Asm6510.Grammar
