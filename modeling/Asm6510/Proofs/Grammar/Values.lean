import Asm6510.Proofs.Grammar.Precedence
import Asm6510.Proofs.Grammar.Stretches

/-!
# Values take no structure without a message

One lemma for each parser of values. The parsers of parts are assumed to account for the token that
they start at where a parser is given them.

Main statement: `settles_expression`, an expression takes a structural token only with a message at
that token, or behind the bound of the nesting.
-/

namespace Asm6510.Grammar

variable {src : Source} {names tokens : List Token} {sub : Parser Expr} {kind : TokenKind}

/-- Operators between operands are not structural, and a value stands behind them. -/
theorem operator_of_lowest_lt_level (h : lowest < level kind) :
    kind.isStructural = false ∧ expectsValue kind = true := by
  refine ⟨?_, by simp [expectsValue, h]⟩
  cases hk : kind.isStructural with
  | false => rfl
  | true =>
    cases kind with
    | label | mnemonic | programCounter | directive | leftBrace | rightBrace =>
      exact absurd h (Nat.lt_irrefl lowest)
    | _ => cases hk

theorem prefix_of_isPrefixOperator (h : isPrefixOperator kind = true) :
    kind.isStructural = false ∧ expectsValue kind = true := by
  refine ⟨?_, by simp [expectsValue, h]⟩
  cases kind with
  | hash | minus | plus | less | greater | dot | atSign => rfl
  | _ => cases h

theorem isStructural_of_isIndexRegister {t : Token} (h : isIndexRegister t = true) :
    t.kind.isStructural = false := by
  rw [kind_of_isIndexRegister h]
  rfl

theorem keeps_integerLiteral (radix : Radix) (t : Token) :
    Keeps src (integerLiteral radix t) := by
  unfold integerLiteral
  split
  · exact keeps_pure _
  · exact (keeps_reportHere _).bind fun _ => keeps_pure _
  · exact Keeps.bind (keeps_of_grows State.grows_noteUnbounded) fun _ => keeps_pure _

variable (he : EndsOnce src.tokens)
include he

/-! ## Parts of expressions -/

/-- Behind a comma that is the current token, a value or the closing mark of a list. -/
theorem ensures_argument (hsub : Settles src sub) :
    Ensures (fun s => s.current.kind = .comma ∧ At src names tokens s)
      (do
        let t ← advance
        if t.kind = .rightParen then return none
        else
          let e ← sub
          return some e.toList)
      fun _ => At src names tokens := by
  refine Ensures.advance (M := fun t s => s.current = t ∧ Due src names tokens s) ?_ fun t => ?_
  · exact fun s hs => ⟨rfl, hs.2.due he (.inr (by rw [hs.1]; rfl))⟩
  · split
    · rename_i hk
      refine Ensures.pure fun s hs => hs.2.at ?_
      rw [hs.1, hk]
      rfl
    · refine Ensures.pre ?_ fun s hs => hs.2
      exact hsub.bind (fun _ => keeps_pure _) names tokens

theorem ensures_arguments (hsub : Settles src sub) :
    Ensures (fun s => s.current.kind = .leftParen ∧ At src names tokens s) (arguments sub)
      fun _ => At src names tokens := by
  refine Ensures.ifNext ?_ ?_
  · exact Ensures.advance_pure fun s hs => hs.2.2.onto he (by rw [hs.1]; rfl)
  · refine Ensures.advance (M := fun _ => Due src names tokens) ?_ fun _ => ?_
    · exact fun s hs => hs.2.due he (.inr (by rw [hs.1]; rfl))
    · refine (hsub names tokens).bind fun first => ?_
      refine (keeps_whileNext he rfl (fun _ _ => ensures_argument he hsub) names tokens).bind
        fun r => ?_
      dsimp only
      split
      · exact Ensures.pure fun s hs => hs
      · refine Ensures.ifNext ?_ ?_
        · exact Ensures.advance_pure fun s hs => hs.2.onto he (by rw [hs.1]; rfl)
        · exact Ensures.pure fun s hs => hs

theorem keeps_closing (hk : kind.isStructural = false) (message : String) (e : Expr) :
    Keeps src (do
      if ← nextIs kind then
        let _ ← advance
        return e
      else
        reportHere message
        return Expr.missing) := by
  intro names tokens
  refine Ensures.ifNext ?_ ?_
  · exact Ensures.advance_pure fun s hs => hs.2.onto he (by rw [hs.1]; exact hk)
  · exact (keeps_reportHere message).bind (fun _ => keeps_pure _) names tokens

/-- An expression behind an opening mark that is the current token. -/
theorem ensures_inner {β : Type} (hsub : Settles src sub) (hkind : expectsValue kind = true)
    {f : Expr → Parser β} (hf : ∀ e, Keeps src (f e)) :
    Ensures (fun s => s.current.kind = kind ∧ At src names tokens s)
      (do let _ ← advance; let e ← sub; f e) fun _ => At src names tokens := by
  refine Ensures.advance (M := fun _ => Due src names tokens) ?_ fun _ => ?_
  · exact fun s hs => hs.2.due he (.inr (by rw [hs.1]; exact hkind))
  · exact hsub.bind hf names tokens

theorem ensures_grouped (hsub : Settles src sub) (opening : Token) :
    Ensures (fun s => s.current.kind = .leftParen ∧ At src names tokens s) (grouped sub opening)
      fun _ => At src names tokens := by
  refine ensures_inner he hsub rfl fun inner names tokens => ?_
  refine Ensures.ifNext ?_ (keeps_closing he rfl _ _ names tokens)
  refine Ensures.advance (M := fun _ s => s.current.kind = .comma ∧ At src names tokens s) ?_
    fun comma => ?_
  · exact fun s hs => ⟨by rw [s.current_advance_eq, hs.1], hs.2.onto he (by rw [hs.1]; rfl)⟩
  · refine Ensures.peek fun next => ?_
    split
    · rename_i hregister
      refine Ensures.advance (M := fun _ => At src names tokens) (fun s hs => ?_) fun register => ?_
      · exact hs.2.2.onto he (by rw [hs.1]; exact isStructural_of_isIndexRegister hregister)
      · exact keeps_closing he rfl _ _ names tokens
    · -- the error is at the token behind the comma, or at the comma before the end of the text
      dsimp only
      split
      · refine Ensures.bind (M := fun _ => At src names tokens) (Ensures.pure fun s hs => hs.2.2)
          fun got => ?_
        exact (keeps_reportHere _).bind (fun _ => keeps_pure _) names tokens
      · refine Ensures.advance (M := fun _ => Due src names tokens) (fun s hs => ?_) fun got => ?_
        · exact hs.2.2.due he (.inr (by rw [hs.2.1]; rfl))
        · exact (settles_reportHere he _).bind (fun _ => keeps_pure _) names tokens

theorem ensures_bracketed (hsub : Settles src sub) (opening : Token) :
    Ensures (fun s => s.current.kind = .leftBracket ∧ At src names tokens s)
      (bracketed sub opening) fun _ => At src names tokens :=
  ensures_inner he hsub rfl fun _ => keeps_closing he rfl _ _

theorem keeps_builtinCall (hsub : Settles src sub) (name : Token) :
    Keeps src (builtinCall sub name) := by
  intro names tokens
  refine Ensures.ifNext ?_ ?_
  · refine Ensures.advance (M := fun _ s => s.current.kind = .leftParen ∧ At src names tokens s) ?_
      fun _ => ?_
    · exact fun s hs => ⟨by rw [s.current_advance_eq, hs.1], hs.2.onto he (by rw [hs.1]; rfl)⟩
    · exact (ensures_arguments he hsub).bind fun args => Ensures.pure fun s hs => hs
  · exact (keeps_reportHere _).bind (fun _ => keeps_pure _) names tokens

/-! ## Expressions -/

theorem settles_operand {sub : Nat → Parser Expr}
    (hsub : ∀ n, lowest ≤ n → Settles src (sub n)) : Settles src (operand sub) := by
  intro names tokens
  have hlowest := hsub lowest (Nat.le_refl _)
  refine Ensures.current fun t => ?_
  -- what can start an expression is not structural
  have hat : ∀ {s : State}, s.current = t ∧ Due src names tokens s → t.kind.isStructural = false →
      At src names tokens s := fun hs hk => hs.2.at (hs.1 ▸ hk)
  split
  · rename_i hk
    exact Ensures.pure fun s hs => hat hs (by rw [hk]; rfl)
  · rename_i hk
    exact Ensures.pure fun s hs => hat hs (by rw [hk]; rfl)
  · rename_i hk
    exact (keeps_integerLiteral _ t names tokens).pre fun s hs => hat hs (by rw [hk]; rfl)
  · rename_i hk
    exact Ensures.pure fun s hs => hat hs (by rw [hk]; rfl)
  · rename_i hk
    exact Ensures.pure fun s hs => hat hs (by rw [hk]; rfl)
  · rename_i hk
    exact (ensures_grouped he hlowest t).pre fun s hs =>
      ⟨by rw [hs.1, hk], hat hs (by rw [hk]; rfl)⟩
  · rename_i hk
    exact (ensures_bracketed he hlowest t).pre fun s hs =>
      ⟨by rw [hs.1, hk], hat hs (by rw [hk]; rfl)⟩
  · rename_i hk
    exact (keeps_builtinCall he hlowest t names tokens).pre fun s hs => hat hs (by rw [hk]; rfl)
  · exact ((settles_reportHere he _).bind (fun _ => keeps_pure _) names tokens).pre fun s hs => hs.2
  · split
    · rename_i hprefix
      obtain ⟨hplain, hexpects⟩ := prefix_of_isPrefixOperator hprefix
      refine Ensures.pre ?_ fun s (hs : s.current = t ∧ Due src names tokens s) =>
        (⟨by rw [hs.1], hat hs hplain⟩ : s.current.kind = t.kind ∧ At src names tokens s)
      exact ensures_inner he (hsub prefixLevel (by decide)) hexpects fun _ => keeps_pure _
    · exact ((settles_reportHere he _).bind (fun _ => keeps_pure _) names tokens).pre
        fun s hs => hs.2

theorem ensures_operatorTail {sub : Nat → Parser Expr}
    (hsub : ∀ n, lowest ≤ n → Settles src (sub n)) (left : Expr) :
    Ensures (fun s => lowest < level s.current.kind ∧ At src names tokens s)
      (operatorTail sub left) fun _ => At src names tokens := by
  refine Ensures.current fun op => ?_
  split
  · rename_i hk
    refine Ensures.bind ((ensures_arguments he (hsub lowest (Nat.le_refl _))).pre ?_) fun args =>
      Ensures.pure fun s hs => hs
    exact fun s hs => ⟨by rw [hs.1, hk], hs.2.2⟩
  · refine Ensures.advance (M := fun _ => Due src names tokens) ?_ fun _ => ?_
    · exact fun s hs => hs.2.2.due he (.inr (operator_of_lowest_lt_level hs.2.1).2)
    · exact (hsub _ (lowest_le_level op.kind)).bind (fun _ => keeps_pure _) names tokens

theorem keeps_operators {sub : Nat → Parser Expr}
    (hsub : ∀ n, lowest ≤ n → Settles src (sub n)) {least : Nat} (hleast : lowest ≤ least)
    (left : Expr) : Keeps src (operators sub least left) := by
  intro names tokens
  refine (ensures_operators (I := fun _ => At src names tokens) (fun e => ?_) left).post
    fun _ _ h => h.1
  refine (ensures_operatorTail he hsub e).pre ?_
  rintro _ ⟨s, hs, -, -, hlevel, rfl⟩
  have hlevel := Nat.lt_of_le_of_lt hleast hlevel
  exact ⟨s.current_advance_eq ▸ hlevel, hs.onto he (operator_of_lowest_lt_level hlevel).1⟩

/-- An expression accounts for the token that it starts at, and takes structural tokens only
amiss. -/
theorem settles_expression (rules : Rules) (room : Nat) {least : Nat} (hleast : lowest ≤ least) :
    Settles src (expression rules room least) := by
  induction room generalizing least with
  | zero => exact settles_depthExceeded he rules
  | succ room ih =>
    refine (settles_operand he fun n => ih).bind fun left => ?_
    exact keeps_operators he (fun n => ih) hleast left

end Asm6510.Grammar
