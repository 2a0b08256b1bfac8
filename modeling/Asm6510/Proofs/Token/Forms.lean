import Asm6510.Proofs.Token.Shape
import Mathlib

/-!
# Marks and codes of lexemes

Without character literals the quotation mark, the semicolon and the parentheses stand alone
(`Lexing.Form.marks`), and only character literals have a code (`Lexing.actionAt_kind_of_code`).

Main statement: `Lexer.run_literal`, the literal of a token is its spelling unless it is a number in
decimal.
-/

namespace Asm6510

namespace Lexing

variable {ref : Option Reference} {c : Char} {cs : List Char} {x : Lexeme}

/-! ## Marks -/

/-- An operator has two characters that are no separators, or it is one character. -/
theorem operator_marks (c : Char) (cs : List Char) :
    (∀ d ∈ c :: cs.take (operator c cs).more, d ∉ separators) ∧
        (∀ n, Lexer.parensAfter n (operator c cs).kind = n) ∨
      (operator c cs).more = 0 ∧ (operator c cs).kind = TokenKind.ofChar c := by
  unfold operator
  dsimp only
  split
  · next kind hpair =>
    split at hpair
    · next d rest =>
      obtain ⟨-, hc, hd⟩ := ofPair?_bare hpair
      refine .inl ⟨List.forall_mem_cons.2 ⟨hc, bareTo_one hd⟩, fun n => ?_⟩
      unfold TokenKind.ofPair? at hpair
      split at hpair <;> cases hpair <;> rfl
    · cases hpair
  · exact .inr ⟨rfl, rfl⟩

/-- **Marks stand alone.** Outside of strings and without character literals, what is read has no
separators and is no parenthesis, or it is one character. -/
theorem Form.marks (h : Form ref c cs x) (hc : c ≠ '"') (happ : '\'' ∉ c :: cs) :
    (∀ d ∈ c :: cs.take x.more, d ∉ separators) ∧ (∀ n, Lexer.parensAfter n x.kind = n) ∨
      x.more = 0 ∧ x.kind = TokenKind.ofChar c := by
  rcases h.cases_worded with ⟨hquote, -⟩ | ⟨-, rfl⟩ | hworded
  · exact absurd hquote hc
  · exact operator_marks c cs
  · refine .inl ⟨?_, fun n => ?_⟩
    · rcases hworded.apart with ⟨-, hc, hcs⟩ | ⟨-, value, rest, -, ⟨rfl, -⟩ | ⟨-, rfl, -⟩⟩
      · exact List.forall_mem_cons.2 ⟨hc, hcs⟩
      · exact absurd List.mem_cons_self happ
      · exact absurd (List.mem_cons_of_mem _ List.mem_cons_self) happ
    · have hkind := hworded.kind
      revert hkind
      cases x.kind <;> first | exact fun _ => rfl | exact Bool.noConfusion

/-! ## Literals -/

theorem operator_code (c : Char) (cs : List Char) : (operator c cs).code = none := by
  unfold operator
  dsimp only
  split <;> rfl

/-- Only a number in decimal has a code: a character literal. -/
theorem Form.kind_of_code (h : Form ref c cs x) (hcode : x.code ≠ none) :
    x.kind = .number .decimal := by
  rcases h.cases_worded with ⟨-, rfl⟩ | ⟨-, rfl⟩ | hworded
  · exact absurd rfl hcode
  · exact absurd (operator_code c cs) hcode
  · rcases hworded.apart with ⟨hnone, -⟩ | ⟨hkind, -⟩
    · exact absurd hnone hcode
    · exact hkind

theorem actionAt_kind_of_code {mode : Mode} {parens : Nat} (hmode : mode ≠ .stringLiteral)
    (h : actionAt ref mode parens c cs = .emit x) (hcode : x.code ≠ none) :
    x.kind = .number .decimal := by
  rcases actionAt_emit_cases h with ⟨rfl, -⟩ | ⟨rest, -, -, rfl⟩ | ⟨-, -, hread⟩
  · exact absurd rfl hcode
  · exact absurd rfl hcode
  · obtain ⟨y, hform, hlike⟩ := modeAction_form hmode hread
    rw [hlike.code_eq] at hcode
    rw [hlike.kind_eq]
    exact hform.kind_of_code hcode

end Lexing

namespace Lexer

open Lexing

variable {ref : Option Reference} {l l' : Lexer} {t : Token}

/-- A token that is no number in decimal has its spelling as its literal. -/
theorem next?_literal (h : l.next? ref = some (t, l')) (hl : l.nesting.Stringless)
    (hkind : t.kind ≠ .number .decimal) : t.spelling = t.literal := by
  obtain ⟨gap, m, -, hm, ⟨-, rfl, -⟩ | ⟨c, cs, x, -, -, hx, hemit⟩⟩ :=
    next?_cases h (fun _ hn => hn.pop) (fun _ place hn => hn.push place (by decide) "") hl
  · rfl
  · have hsame := (emit_kind m c cs x).1
    rw [hemit] at hsame
    have hcode : x.code = none := by
      by_contra hcode
      exact hkind (hsame.trans (actionAt_kind_of_code hm.top_ne hx hcode))
    have hspelling := emit_spelling m c cs (actionAt_proper hx)
    rw [emit, hcode] at hemit
    obtain ⟨rfl, -⟩ := Prod.mk.inj hemit
    rw [emit, hcode] at hspelling
    exact hspelling

/-- **Only character literals have a literal of their own**: the tokens of other kinds than numbers
in decimal have their spelling. -/
theorem run_literal (ref : Option Reference) (l : Lexer) (hl : l.nesting.Stringless) :
    ∀ t ∈ (l.run ref).1, t.kind ≠ .number .decimal → t.spelling = t.literal :=
  forall_mem_run (I := fun l => l.nesting.Stringless)
    (fun hnext hl => ⟨next?_literal hnext hl, (next?_shape hnext hl).1⟩) hl

end Lexer

end Asm6510
