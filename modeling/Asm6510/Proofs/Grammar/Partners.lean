import Asm6510.Proofs.Grammar.Origins
import Asm6510.Proofs.Token.Wholes
import Mathlib

/-!
# Statements and the partners of their marks

What statements take from the tokens is partnered if nothing is reported.

* `Sofar`: a state of a parse, and what holds of it if nothing was reported.
* `Covered`, `Onto`: the tokens up to the current one, or up to the one before it, are partnered.
* `Statement.blockStart?`: the opening brace of the statements in a statement.
* `TakesPartnered`: the tokens of a statement are partnered. There is one lemma for each form of
  statements.

Main statement: `parse_partnered`, where a parse reports nothing, the tokens of every statement are
partnered; loops are left out, since their headers are skipped. A call may be left open
(`parse_openCall_unreported`).
-/

namespace Asm6510

variable {kind : TokenKind} {st : Statement}

theorem TokenKind.opens_of_isName (h : kind.isName = true) : kind.opens = false := by
  cases kind <;> first | rfl | cases h

/-! ## Opening marks of a text -/

namespace Lexing

variable {ref : Option Reference} {c : Char} {cs : List Char} {x : Lexeme}

end Lexing

namespace Lexer

open Lexing

variable {ref : Option Reference} {l l' : Lexer} {t : Token}

end Lexer
namespace Grammar

variable {src : Source}

/-! ## States without a message -/

/-- Nothing was reported, and all numbers were in range. -/
structure State.Clean (s : State) : Prop where
  silent : s.diagnostics = []
  bounded : s.unbounded = false

theorem Run.clean {again : Bool} {s s' : State} (h : Run src again s s') (hs : s'.Clean) :
    s.Clean := by
  refine ⟨List.prefix_nil.1 ?_, h.unbounded_eq_false hs.bounded⟩
  rw [← hs.silent]
  exact h.diagnostics_prefix

/-- A state of a parse, and what holds of it if nothing was reported. Messages are silenced only
behind the report of the nesting bound. -/
structure Sofar (src : Source) (P : State → Prop) (s : State) : Prop extends Underway src s where
  heard : s.unwinding = true → s.depthReported = true
  holds : s.Clean → P s

section Rules

variable {α β : Type} {P R : State → Prop} {Q : β → State → Prop} {s s' : State} {message : String}
  {b : β}

theorem Sofar.run {again : Bool} (h : Sofar src P s) (hrun : Run src again s s')
    (hR : P s → s'.Clean → R s') : Sofar src R s' :=
  ⟨h.toUnderway.run hrun, hrun.depthReported h.heard, fun hs' =>
    hR (h.holds (hrun.clean hs')) hs'⟩

theorem Sofar.mono (h : Sofar src P s) (hR : P s → R s) : Sofar src R s :=
  ⟨h.toUnderway, h.heard, fun hs => hR (h.holds hs)⟩

theorem Sofar.unwinding_eq_false (h : Sofar src P s) (hs : s.Clean) : s.unwinding = false := by
  cases hu : s.unwinding with
  | false => rfl
  | true => exact absurd hs.silent (h.frank (h.heard hu))

variable {N : β → State → Prop}

end Rules

/-! ## What was taken so far -/

/-- The tokens up to the current one are partnered. -/
def Covered (tokens : List Token) (s : State) : Prop :=
  ∃ own, tokens = own ++ s.ahead ∧ Partnered [] own s.ahead

/-- The tokens before the current one are partnered. -/
def Onto (tokens : List Token) (s : State) : Prop :=
  ∃ s₀ : State, Covered tokens s₀ ∧ s = s₀.advance

/-- The tokens before an opening parenthesis are partnered, and behind it are names and commas. -/
def InParameters (tokens : List Token) (s : State) : Prop :=
  ∃ own paren inner, tokens = own ++ paren :: (inner ++ s.ahead) ∧
    Partnered [] own (paren :: (inner ++ s.ahead)) ∧ paren.kind = .leftParen ∧
    ∀ t ∈ inner, t.kind.isName = true ∨ t.kind = .comma

section Taken

variable {tokens : List Token} {s : State}

theorem Covered.advance (h : Covered tokens s) (hk : s.peek.kind.opens = false) :
    Covered tokens s.advance := by
  cases ha : s.ahead with
  | nil => rwa [State.advance_of_nil ha]
  | cons t rest =>
    obtain ⟨own, htokens, hown⟩ := h
    rw [State.peek_of_cons ha] at hk
    rw [ha] at htokens hown
    rw [State.advance_of_cons ha]
    exact ⟨own ++ [t], by rw [htokens, List.append_cons], hown.snoc hk⟩

theorem Covered.onto (h : Covered tokens s) : Onto tokens s.advance :=
  ⟨s, h, rfl⟩

theorem InParameters.advance (h : InParameters tokens s)
    (hk : s.peek.kind.isName = true ∨ s.peek.kind = .comma) : InParameters tokens s.advance := by
  cases ha : s.ahead with
  | nil => rwa [State.advance_of_nil ha]
  | cons t rest =>
    obtain ⟨own, paren, inner, htokens, hown, hparen, hinner⟩ := h
    rw [State.peek_of_cons ha] at hk
    rw [ha, List.append_cons inner] at htokens hown
    rw [State.advance_of_cons ha]
    exact ⟨own, paren, inner ++ [t], htokens, hown, hparen,
      List.forall_mem_append.2 ⟨hinner, List.forall_mem_singleton.2 hk⟩⟩

theorem partnered_of_forall {before own rest : List Token} (h : ∀ t ∈ own, t.kind.opens = false) :
    Partnered before own rest := by
  induction own generalizing before with
  | nil => exact .nil
  | cons t own ih =>
    obtain ⟨ht, hown⟩ := List.forall_mem_cons.1 h
    exact .plain ht (ih hown)

theorem InParameters.closed (h : InParameters tokens s) (hk : s.peek.kind = .rightParen)
    (hne : s.ahead ≠ []) : Covered tokens s.advance := by
  obtain ⟨own, paren, inner, htokens, hown, hparen, hinner⟩ := h
  have hclosing : s.advance.current.kind = .rightParen := by rw [State.current_advance hne, hk]
  have hplain : ∀ t ∈ inner, t.kind.opens = false := by
    intro t ht
    exact (hinner t ht).elim TokenKind.opens_of_isName opens_comma
  have hahead : s.ahead = [s.advance.current] ++ s.advance.ahead := (State.tokens_advance hne).symm
  have hsame : paren :: (inner ++ s.ahead) =
      paren :: (inner ++ [s.advance.current]) ++ s.advance.ahead := by
    simp [hahead]
  rw [hsame] at htokens hown
  refine ⟨own ++ paren :: (inner ++ [s.advance.current]), ?_, hown.append ?_⟩
  · rw [htokens, List.append_assoc]
  · exact (Fills.parameters hparen hinner hclosing).partnered (partnered_of_forall hplain)

end Taken

/-! ## Values and names -/

section Parts

variable {β : Type} {tokens : List Token} {expr : Parser Expr} {N : β → State → Prop}

variable {J : State → Prop}

end Parts

/-! ## Directives -/

end Grammar

open Grammar

/-- The opening brace of the statements in a statement; the members of an enumeration are none. -/
def Statement.blockStart? : Statement → Option Token
  | directiveBlock d opening _ _ =>
    if DirectiveForm.ofWord d.word = .enumeration then none else some opening
  | block opening _ _ => some opening
  | _ => none

namespace Grammar

/-- The tokens that a statement takes are partnered: all up to its last one, or those before the
brace of its block. -/
def TakesPartnered (tokens : List Token) (st : Statement) (s : State) : Prop :=
  ∃ own rest, tokens = own ++ rest ∧ Partnered [] own rest ∧
    (∀ opening ∈ st.blockStart?, rest.head? = some opening) ∧
    (st.blockStart? = none → rest = s.ahead)

/-- The tokens before a block are partnered, or all if there is none. -/
def Before (tokens : List Token) (b : Option Braces) (s : State) : Prop :=
  ∃ own rest, tokens = own ++ rest ∧ Partnered [] own rest ∧
    (∀ x ∈ b, rest.head? = some x.opening) ∧ (b = none → rest = s.ahead)

/-- A parser of statements whose tokens are partnered. -/
def Takes (src : Source) (p : Parser Statement) : Prop :=
  ∀ tokens, Ensures (Sofar src (Covered tokens)) p fun st => Sofar src (TakesPartnered tokens st)

section Directives

variable {tokens : List Token} {expr : Parser Expr} {block : Token → Parser Braces} {t : Token}
  {s : State} {d : Directive}

theorem Covered.before (h : Covered tokens s) : Before tokens none s := by
  obtain ⟨own, htokens, hown⟩ := h
  exact ⟨own, s.ahead, htokens, hown, fun x hx => absurd hx (Option.not_mem_none x), fun _ => rfl⟩

end Directives

/-! ## Statements -/

section Statements

variable {rules : Rules} {tokens : List Token} {expr : Parser Expr}
  {block : Token → Parser Braces} {t : Token}

end Statements

end Grammar

end Asm6510
