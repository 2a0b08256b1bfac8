import Asm6510.Token.Lexeme

/-!
# The lexer

* `Lexer`: the characters ahead, the place, the open parentheses and the nesting.
* `Lexer.next?`: the next token. There is none only where looking again would never end: a mnemonic
  waits for its operand and the place for it was refused.
* `Lexer.run`: all tokens up to the end of the text.
* `tokenize`: the tokens of a text.

Main statement: `Lexer.next?_progress`, a token that is not the end of the text takes at least one
character.
-/

namespace Asm6510

/-- The state of reading. -/
structure Lexer where
  rest : List Char
  place : Place
  parens : Nat
  nesting : Nesting
deriving DecidableEq, Repr

namespace Lexer

/-- The state at the start of a text. -/
def ofText (limit : Int) (text : String) : Lexer :=
  ⟨text.toList, Place.start, 0, Nesting.ofLimit limit⟩

/-- Enters a context; tells whether the push was accepted. -/
def push (l : Lexer) (mode : Mode) (directive : String) : Bool × Lexer :=
  (!l.nesting.isFull, { l with nesting := l.nesting.push l.place mode directive })

/-- Leaves a context. -/
def pop (l : Lexer) : Lexer :=
  { l with nesting := l.nesting.pop }

/-- Skips the blanks of the current mode. -/
def skipBlanks (l : Lexer) : Lexer :=
  let p := Lexing.isSkipped l.nesting.top.mode
  { l with rest := l.rest.dropWhile p, place := l.place.after (l.rest.takeWhile p) }

/-- The token at the end of the text. -/
def endToken (l : Lexer) : Token :=
  ⟨.endOfText, "", l.place, l.nesting.top, Note.none⟩

/-- Open parentheses after a token. -/
def parensAfter (parens : Nat) : TokenKind → Nat
  | .leftParen => parens + 1
  | .rightParen => parens - 1
  | _ => parens

/-- Reads a lexeme at `c :: cs`. -/
def emit (l : Lexer) (c : Char) (cs : List Char) (x : Lexeme) : Token × Lexer :=
  let spelled := c :: cs.take x.more
  let rest := cs.drop x.more
  let stop := l.place.after spelled
  let nesting := (l.nesting.apply l.place x.opening).apply stop x.closing
  let spelling := String.ofList spelled
  let token : Token :=
    match x.code with
    | none => ⟨x.kind, spelling, l.place, nesting.top, x.note⟩
    | some code =>
      ⟨x.kind, Text.decimal code, l.place, nesting.top, { x.note with text := spelling }⟩
  (token,
    { rest := rest.drop x.gap
      place := stop.after (rest.take x.gap)
      parens := parensAfter l.parens x.kind
      nesting := nesting.apply stop x.following })

/-- The nesting once an operand begins. -/
def operandNesting (l : Lexer) : Nesting :=
  l.nesting.pop.push l.place .operand ""

theorem length_skipBlanks_le (l : Lexer) : l.skipBlanks.rest.length ≤ l.rest.length :=
  (List.dropWhile_suffix _).length_le

/-- The next token. -/
def next? (ref : Option Reference) (l : Lexer) : Option (Token × Lexer) :=
  let s := l.skipBlanks
  match _h : s.rest with
  | [] => some (s.endToken, s)
  | c :: cs =>
    match Lexing.actionAt ref s.nesting.top.mode s.parens c cs with
    | .emit x => some (s.emit c cs x)
    | .newline =>
      next? ref { s with rest := cs, place := s.place.next c, nesting := s.nesting.pop }
    | .leave =>
      if _hp : s.nesting.pop.pending < s.nesting.pending then
        next? ref { s with nesting := s.nesting.pop }
      else
        none
    | .operand =>
      if _hp : s.operandNesting.pending < s.nesting.pending then
        next? ref { s with nesting := s.operandNesting }
      else
        none
termination_by (l.rest.length, l.nesting.pending)
decreasing_by
  · have hs := l.length_skipBlanks_le
    rw [_h] at hs
    exact Prod.Lex.left _ _ (Nat.lt_of_lt_of_le (Nat.lt_succ_self _) hs)
  · rcases Nat.lt_or_eq_of_le l.length_skipBlanks_le with hs | hs
    · exact Prod.Lex.left _ _ hs
    · exact Prod.Lex.right' _ (Nat.le_of_eq hs) _hp
  · rcases Nat.lt_or_eq_of_le l.length_skipBlanks_le with hs | hs
    · exact Prod.Lex.left _ _ hs
    · exact Prod.Lex.right' _ (Nat.le_of_eq hs) _hp

/-- A lexeme takes at least one character. -/
theorem length_emit_lt (l : Lexer) (c : Char) (cs : List Char) (x : Lexeme) :
    (l.emit c cs x).2.rest.length < (c :: cs).length := by
  simp only [emit, List.length_drop, List.length_cons]
  omega

/-- A token that is not the end of the text takes at least one character. -/
theorem next?_progress {ref : Option Reference} {l l' : Lexer} {t : Token}
    (h : l.next? ref = some (t, l')) (ht : t.kind ≠ .endOfText) :
    l'.rest.length < l.rest.length := by
  fun_induction next? ref l with
  | case1 l s hr =>
    obtain ⟨rfl, rfl⟩ := Prod.mk.inj (Option.some.inj h)
    exact absurd rfl ht
  | case2 l s c cs hr x hx =>
    have := length_emit_lt s c cs x
    rw [Option.some.inj h, ← hr] at this
    exact Nat.lt_of_lt_of_le this l.length_skipBlanks_le
  | case3 l s c cs hr hx ih =>
    have hs := l.length_skipBlanks_le
    have : cs.length < s.rest.length := by simp [hr]
    exact Nat.lt_of_lt_of_le (Nat.lt_trans (ih h) this) hs
  | case4 l s c cs hr hx hp ih => exact Nat.lt_of_lt_of_le (ih h) l.length_skipBlanks_le
  | case5 => simp at h
  | case6 l s c cs hr hx hp ih => exact Nat.lt_of_lt_of_le (ih h) l.length_skipBlanks_le
  | case7 => simp at h

/-- All tokens up to the end of the text, and the state there. -/
def run (ref : Option Reference) (l : Lexer) : List Token × Lexer :=
  match _h : l.next? ref with
  | none => ([], l)
  | some (t, l') =>
    if _ht : t.kind = .endOfText then
      ([t], l')
    else
      let (ts, last) := run ref l'
      (t :: ts, last)
termination_by l.rest.length
decreasing_by exact next?_progress _h _ht

end Lexer

/-- The tokens of a text, and the state at its end. -/
def tokenize (ref : Option Reference) (limit : Int) (text : String) : List Token × Lexer :=
  (Lexer.ofText limit text).run ref

end Asm6510
