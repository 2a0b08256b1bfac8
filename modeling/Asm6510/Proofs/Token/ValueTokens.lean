import Asm6510.Proofs.Grammar.Stretches
import Asm6510.Proofs.Token.Refusals
import Asm6510.Proofs.Token.Wholes

/-!
# The tokens behind a directive

Behind a directive, up to the next token that gives the text its structure, all tokens are read as
parts of a value, even where the line of the directive has ended or a push was refused: no operand
of an instruction is open there.

* `Nesting.Calm`: the contexts on the way down to one in which statements
  start are those of directives and their parentheses.
* `Lexer.next?_calm`, `Lexer.next?_directive`: what one reading does from a calm nesting, and what a
  directive does from any.
* `Lexer.run_starred`: marks that set the program counter are spelled with an asterisk first.
* `ValuesFrom`: what is read from a calm nesting on, for a list of tokens.

Main statement: `tokenize_values`.
-/

namespace Asm6510

namespace Nesting

variable {n : Nesting} {place : Place}

/-- Only directives and parentheses are above the first frame in which statements start. -/
def calmFrames : List Frame → Bool
  | [] => true
  | f :: below =>
    if f.mode = .directive ∨ f.mode = .expression then calmFrames below
    else f.mode.startsStatements

/-- No operand and no string is open above the statements. -/
def Calm (n : Nesting) : Prop :=
  calmFrames n.frames = true

theorem Calm.top (h : n.Calm) :
    n.top.mode.startsStatements = true ∨ n.top.mode = .directive ∨ n.top.mode = .expression := by
  unfold Calm at h
  unfold Nesting.top
  cases hframes : n.frames with
  | nil => exact .inl rfl
  | cons f below =>
    rw [hframes, calmFrames] at h
    split at h
    · next hmode => exact .inr hmode
    · exact .inl h

theorem calm_of_top (h : n.top.mode.startsStatements = true) : n.Calm := by
  unfold Calm
  unfold Nesting.top at h
  cases hframes : n.frames with
  | nil => rfl
  | cons f below =>
    have hstarts : f.mode.startsStatements = true := by
      rw [hframes] at h
      exact h
    have hmode : ¬(f.mode = .directive ∨ f.mode = .expression) := by
      rintro (hmode | hmode)
      · exact absurd (hmode ▸ hstarts) (by decide)
      · exact absurd (hmode ▸ hstarts) (by decide)
    rw [calmFrames, if_neg hmode]
    exact hstarts

theorem Calm.push (h : n.Calm) (place : Place) {mode : Mode}
    (hmode : mode = .directive ∨ mode = .expression) (directive : String) :
    (n.push place mode directive).Calm := by
  unfold Nesting.push
  split
  · exact h
  · unfold Calm
    rw [calmFrames, if_pos hmode]
    exact h

theorem Calm.pop (h : n.Calm) (hmode : n.top.mode = .directive ∨ n.top.mode = .expression) :
    n.pop.Calm := by
  unfold Nesting.pop
  split
  · unfold Calm at h ⊢
    unfold Nesting.top at hmode
    cases hframes : n.frames with
    | nil =>
      rw [hframes] at hmode
      exact absurd hmode (by decide)
    | cons f below =>
      have hframe : f.mode = .directive ∨ f.mode = .expression := by
        rw [hframes] at hmode
        exact hmode
      rw [hframes, calmFrames, if_pos hframe] at h
      exact h
  · exact h

theorem Calm.endLine (h : n.Calm) : n.endLine.Calm := by
  unfold Nesting.endLine
  split
  · next hends =>
    refine h.pop ?_
    rcases h.top with hmode | hmode
    · revert hends hmode
      cases n.top.mode <;> simp [Mode.startsStatements, Mode.endsAtLine]
    · exact hmode
  · exact h

end Nesting

/-- Kinds of the marks that set the program counter. -/
def TokenKind.isCounter : TokenKind → Bool
  | asterisk => true
  | programCounter => true
  | _ => false

/-! ## Lexemes -/

namespace Lexing

variable {ref : Option Reference} {c : Char} {cs : List Char} {x : Lexeme}

/-- A mark that sets the program counter starts with an asterisk. -/
def Starred (c : Char) (x : Lexeme) : Prop :=
  x.kind.isCounter = true → c = '*' ∧ x.code = none

/-- The lexeme leaves the stack as it is, but for a string that it enters and leaves. -/
def Steady (x : Lexeme) : Prop :=
  x.edits = [] ∨
    x.opening = [.push .stringLiteral ""] ∧ x.closing = [.pop] ∧ x.following = []

theorem steady_operator (h : (operator c cs).kind.isBrace = false) : Steady (operator c cs) := by
  unfold operator at h ⊢
  dsimp only at h ⊢
  split
  · exact .inl rfl
  · next hpair =>
    rw [hpair] at h
    dsimp only [Lexeme.plain] at h
    split
    · next hkind =>
      rw [hkind] at h
      cases h
    · next hkind =>
      rw [hkind] at h
      cases h
    · exact .inl rfl

/-- The parts of values, braces apart. -/
theorem steady_value (h : (value ref c cs).kind.isBrace = false) : Steady (value ref c cs) := by
  revert h
  refine value_cases (P := fun x => x.kind.isBrace = false → Steady x) ref c cs
    (fun x hx _ => .inl ?_) (fun _ _ => .inr ⟨rfl, rfl, rfl⟩) (fun x hx _ => .inl ?_)
    fun _ => steady_operator
  · rw [(numberKind hx).plain_eq]
    rfl
  · obtain ⟨kind, more, note, rfl, -⟩ := wordAt?_eq_some hx
    rfl

theorem Part.isHead (h : Part ref c cs x) : x.kind.isHead = false := by
  cases h with
  | string | register => rfl
  | operator =>
    refine operator_kind_cases (P := fun k => k.isHead = false) ?_ (fun d kind h => ?_) cs
    · unfold TokenKind.ofChar
      split <;> rfl
    · unfold TokenKind.ofPair? at h
      split at h <;> cases h <;> rfl
  | number h =>
    rcases (numberKind h).kind with hnumber | hillegal
    · revert hnumber
      cases x.kind <;> first | exact fun _ => rfl | exact Bool.noConfusion
    · rw [hillegal]
      rfl
  | word h =>
    rcases word_kind h with hname | hotherwise
    · revert hname
      cases x.kind <;> first | exact fun _ => rfl | exact Bool.noConfusion
    · rw [hotherwise]
      rfl

/-- Only where statements start, what starts a statement is read. -/
theorem isHead_modeAction {mode : Mode} (hmode : mode.startsStatements = false)
    (h : modeAction ref mode c cs = .emit x) : x.kind.isHead = false := by
  by_cases hstring : mode = .stringLiteral
  · subst hstring
    cases h
    rfl
  · obtain ⟨y, hpart, hlike⟩ := modeAction_part hstring hmode h
    rw [hlike.kind_eq]
    exact hpart.isHead

theorem starred_operator (c : Char) (cs : List Char) : Starred c (operator c cs) := by
  refine fun hcounter => ⟨?_, operator_code c cs⟩
  revert hcounter
  refine operator_kind_cases (P := fun k => k.isCounter = true → c = '*') ?_ (fun d kind h => ?_) cs
  · unfold TokenKind.ofChar
    split <;> first | exact fun _ => rfl | exact Bool.noConfusion
  · unfold TokenKind.ofPair? at h
    split at h <;> cases h <;> exact Bool.noConfusion

theorem Head.isHead (h : Head c cs x) : x.kind.isHead = true := by
  cases h <;> rfl

theorem Form.starred (h : Form ref c cs x) : Starred c x := by
  cases h with
  | head h =>
    intro hcounter
    cases h with
    | programCounter hc hnext => exact ⟨hc, rfl⟩
    | _ => cases hcounter
  | part h =>
    rcases (Form.part h).cases_worded with ⟨-, rfl⟩ | ⟨-, rfl⟩ | hworded
    · exact fun h => Bool.noConfusion h
    · exact starred_operator c cs
    · -- the only mark among the words starts a statement
      have hnone : ∀ kind : TokenKind, kind.isWorded = true → kind.isHead = false →
          kind.isCounter = false := by
        intro kind
        cases kind <;> first | exact fun _ _ => rfl | exact fun h => Bool.noConfusion h
      intro hcounter
      rw [hnone x.kind hworded.kind h.isHead] at hcounter
      cases hcounter

theorem actionAt_starred {mode : Mode} {parens : Nat}
    (h : actionAt ref mode parens c cs = .emit x) : Starred c x := by
  rcases actionAt_emit_cases h with ⟨rfl, -⟩ | ⟨rest, -, -, rfl⟩ | ⟨-, -, hread⟩
  · exact fun h => Bool.noConfusion h
  · exact fun h => Bool.noConfusion h
  · by_cases hstring : mode = .stringLiteral
    · subst hstring
      cases hread
      exact fun h => Bool.noConfusion h
    · obtain ⟨y, hform, hlike⟩ := modeAction_form hstring hread
      rw [Starred, hlike.kind_eq, hlike.code_eq]
      exact hform.starred

/-- Directives are read where statements start. -/
theorem actionAt_directive {mode : Mode} {parens : Nat}
    (h : actionAt ref mode parens c cs = .emit x) (hkind : x.kind.isDirective = true) :
    mode.startsStatements = true ∧
      ∃ cls name more, x = directive (.directive cls) name more := by
  have hhead : x.kind.isHead = true := by
    revert hkind
    cases x.kind <;> first | exact fun _ => rfl | exact Bool.noConfusion
  rcases actionAt_emit_cases h with ⟨rfl, -⟩ | ⟨rest, -, -, rfl⟩ | ⟨-, -, hread⟩
  · cases hkind
  · cases hkind
  · cases hmode : mode.startsStatements with
    | false => exact absurd hhead (by rw [isHead_modeAction hmode hread]; exact Bool.false_ne_true)
    | true =>
      rw [modeAction_statement hmode] at hread
      refine ⟨rfl, ?_⟩
      rcases statement_cases ref c cs with hform | hvalue
      · rw [Action.emit.inj hread] at hform
        cases hform with
        | preprocessor hc name => exact ⟨_, name, _, rfl⟩
        | directive hc cls name => exact ⟨cls, name, _, rfl⟩
        | _ => cases hkind
      · rw [← Action.emit.inj hread, hvalue, (part_value ref c cs).isHead] at hhead
        cases hhead

/-- What a reading from a calm stack gives, apart from the tokens that give a text its structure. -/
inductive CalmAction (ref : Option Reference) (mode : Mode) (c : Char) (cs : List Char)
    (x : Lexeme) : Prop
  | comment (kind_eq : x.kind.isComment = true) (closing_eq : x.closing = [])
      (following_eq : x.following = []) (opening_eq : x.opening = [] ∨ x.opening = [.endLine])
  | value (x_eq : x = value ref c cs) (steady : Steady x)
  | opening (c_eq : c = '(') (x_eq : x = (operator '(' cs).after (.push .expression ""))
  | closing (c_eq : c = ')') (x_eq : x = (operator ')' cs).after .pop)
      (mode_eq : mode = .expression)

theorem actionAt_calm {mode : Mode} {parens : Nat}
    (hmode : mode.startsStatements = true ∨ mode = .directive ∨ mode = .expression)
    (h : actionAt ref mode parens c cs = .emit x) (hkind : x.kind.isStructural = false) :
    CalmAction ref mode c cs x := by
  rw [TokenKind.isStructural, Bool.or_eq_false_iff] at hkind
  have hvalue : ∀ {y : Lexeme}, Action.emit (value ref c cs) = .emit y →
      y.kind.isBrace = false → CalmAction ref mode c cs y := by
    intro y hy hbrace
    cases hy
    exact .value rfl (steady_value hbrace)
  rcases actionAt_cases ref mode parens c cs with ha | ⟨rest, ha⟩ | ha
  · rw [ha] at h
    cases h
    exact .comment rfl rfl rfl (.inr rfl)
  · rw [ha] at h
    cases h
    exact .comment rfl rfl rfl (.inl rfl)
  · rw [ha] at h
    rcases hmode with hmode | rfl | rfl
    · rw [modeAction_statement hmode] at h
      cases h
      rcases statement_cases ref c cs with hhead | heq
      · exact absurd (hhead.isHead.symm.trans hkind.1) (by decide)
      · rw [heq] at hkind ⊢
        exact hvalue rfl hkind.2
    · rw [show modeAction ref .directive c cs = directiveAction ref c cs from rfl] at h
      unfold directiveAction at h
      split at h
      · cases h
      split at h
      · next hc =>
        subst hc
        cases h
        cases cs <;> cases hkind.2
      split at h
      · cases h
      split at h
      · next hc =>
        subst hc
        cases h
        exact .opening rfl rfl
      · exact hvalue h hkind.2
    · rw [show modeAction ref .expression c cs = expressionAction ref c cs from rfl] at h
      unfold expressionAction at h
      split at h
      · next hc =>
        subst hc
        cases h
        exact .closing rfl rfl rfl
      split at h
      · next hc =>
        subst hc
        cases h
        exact .opening rfl rfl
      · exact hvalue h hkind.2

/-- From a calm stack a context is left without a token only at the end of a directive. -/
theorem directive_of_not_emit {mode : Mode} {parens : Nat}
    (hmode : mode.startsStatements = true ∨ mode = .directive ∨ mode = .expression)
    (h : ∀ x, actionAt ref mode parens c cs ≠ .emit x) : mode = .directive := by
  rcases actionAt_cases ref mode parens c cs with ha | ⟨rest, ha⟩ | ha
  · exact absurd ha (h _)
  · exact absurd ha (h _)
  · rw [ha] at h
    rcases hmode with hmode | hmode | rfl
    · exact absurd (modeAction_statement hmode) (h _)
    · exact hmode
    · rcases modeAction_cases ref .expression c cs with ⟨x, hx⟩ | ⟨hx, -⟩ | ⟨-, hx⟩ | ⟨-, hx⟩
      · exact absurd hx (h x)
      · rw [show modeAction ref .expression c cs = expressionAction ref c cs from rfl] at hx
        unfold expressionAction at hx
        split at hx
        · cases hx
        split at hx <;> cases hx
      · exact absurd hx (by decide)
      · exact absurd hx (by decide)

end Lexing

/-! ## Readings -/

namespace Lexer

open Lexing

variable {ref : Option Reference} {l l' : Lexer} {t : Token}

theorem emit_literal (l : Lexer) (c : Char) (cs : List Char) (x : Lexeme) :
    (l.emit c cs x).1.literal = x.literalAt c cs := by
  unfold emit Lexeme.literalAt
  cases x.code <;> rfl

theorem emit_frames {c : Char} {cs : List Char} {x : Lexeme} (l : Lexer)
    (hl : l.nesting.Bounded) (hx : Steady x) :
    (l.emit c cs x).2.nesting.frames = l.nesting.frames := by
  rcases hx with hedits | ⟨hopening, hclosing, hfollowing⟩
  · simp only [Lexeme.edits, List.append_eq_nil_iff] at hedits
    unfold emit
    rw [hedits.1.1, hedits.1.2, hedits.2]
    rfl
  · unfold emit
    rw [hopening, hclosing, hfollowing]
    exact hl.push_pop _ _ _

/-- The token of a value, or a comment, was read, and no operand was begun. -/
def CalmStep (ref : Option Reference) (t : Token) (l' : Lexer) : Prop :=
  (t.kind.isComment = true ∨ OfValue ref t) ∧ l'.nesting.Calm

theorem calmStep_emit {c : Char} {cs : List Char} {x : Lexeme}
    (hl : l.nesting.Calm) (hbounded : l.nesting.Bounded)
    (hx : CalmAction ref l.nesting.top.mode c cs x) :
    CalmStep ref (l.emit c cs x).1 (l.emit c cs x).2 := by
  have hkind := (emit_kind l c cs x).1
  have hliteral := emit_literal l c cs x
  cases hx with
  | comment kind_eq closing_eq following_eq opening_eq =>
    refine ⟨.inl (by rw [hkind]; exact kind_eq), ?_⟩
    unfold emit
    rw [closing_eq, following_eq]
    rcases opening_eq with hopening | hopening
    · rw [hopening]
      exact hl
    · rw [hopening]
      exact hl.endLine
  | value x_eq steady =>
    refine ⟨.inr ⟨c, cs, ?_, ?_⟩, ?_⟩
    · rw [hkind, x_eq]
    · rw [hliteral, x_eq]
    · rw [Nesting.Calm, emit_frames l hbounded steady]
      exact hl
  | opening c_eq x_eq =>
    subst c_eq x_eq
    refine ⟨.inr ⟨'(', cs, ?_, ?_⟩, ?_⟩
    · rw [hkind]
      rfl
    · rw [hliteral]
      rfl
    · cases cs <;> exact hl.push _ (.inr rfl) _
  | closing c_eq x_eq mode_eq =>
    subst c_eq x_eq
    refine ⟨.inr ⟨')', cs, ?_, ?_⟩, ?_⟩
    · rw [hkind]
      rfl
    · rw [hliteral]
      rfl
    · cases cs <;> exact hl.pop (.inr mode_eq)

/-- **A reading from a calm stack** gives a part of a value or a comment, and leaves the stack calm,
unless it gives a token of the text's structure. -/
theorem next?_calm (h : l.next? ref = some (t, l')) (hkind : t.kind.isStructural = false)
    (hend : t.kind ≠ .endOfText) (hl : l.nesting.Calm) (hbounded : l.nesting.Bounded) :
    CalmStep ref t l' := by
  fun_induction next? ref l with
  | case1 l s hr =>
    obtain ⟨rfl, rfl⟩ := Prod.mk.inj (Option.some.inj h)
    exact absurd rfl hend
  | case2 l s c cs hr x hx =>
    have hemit := Option.some.inj h
    have hstep : CalmAction ref s.nesting.top.mode c cs x := by
      refine actionAt_calm (Nesting.Calm.top hl) hx ?_
      have hsame := (emit_kind s c cs x).1
      rw [hemit] at hsame
      rw [← hsame]
      exact hkind
    have hcalm := calmStep_emit (l := s) hl hbounded hstep
    rw [hemit] at hcalm
    exact hcalm
  | case3 l s c cs hr hx ih =>
    have hmode := directive_of_not_emit hl.top fun x he => Action.noConfusion (hx.symm.trans he)
    exact ih h (hl.pop (.inl hmode)) hbounded.pop
  | case4 l s c cs hr hx hp ih =>
    have hmode := directive_of_not_emit hl.top fun x he => Action.noConfusion (hx.symm.trans he)
    exact ih h (hl.pop (.inl hmode)) hbounded.pop
  | case5 => cases h
  | case6 l s c cs hr hx hp ih =>
    have hmode := directive_of_not_emit hl.top fun x he => Action.noConfusion (hx.symm.trans he)
    exact absurd (hmode.symm.trans (actionAt_quiet.2.2 hx)) (by decide)
  | case7 => cases h

/-- **A directive leaves the stack calm**, whatever it was before. -/
theorem next?_directive (h : l.next? ref = some (t, l')) (hkind : t.kind.isDirective = true) :
    l'.nesting.Calm := by
  fun_induction next? ref l with
  | case1 l s hr =>
    obtain ⟨rfl, rfl⟩ := Prod.mk.inj (Option.some.inj h)
    cases hkind
  | case2 l s c cs hr x hx =>
    have hemit := Option.some.inj h
    have hsame := (emit_kind s c cs x).1
    rw [hemit] at hsame
    obtain ⟨hmode, cls, name, more, rfl⟩ := actionAt_directive hx (hsame ▸ hkind)
    have hnesting :
        l'.nesting = (s.emit c cs (directive (.directive cls) name more)).2.nesting := by
      rw [hemit]
    rw [hnesting]
    exact (Nesting.calm_of_top hmode).push _ (.inl rfl) name
  | case3 l s c cs hr hx ih => exact ih h
  | case4 l s c cs hr hx hp ih => exact ih h
  | case5 => cases h
  | case6 l s c cs hr hx hp ih => exact ih h
  | case7 => cases h

/-- A mark that sets the program counter is spelled with an asterisk first. -/
theorem next?_starred (h : l.next? ref = some (t, l')) (hkind : t.kind.isCounter = true) :
    ∃ w, t.literal = String.ofList ('*' :: w) := by
  obtain ⟨gap, m, -, -, ⟨-, rfl, -⟩ | ⟨c, cs, x, -, -, hx, hemit⟩⟩ :=
    next?_cases (P := fun _ => True) h (fun _ _ => trivial) (fun _ _ _ => trivial) trivial
  · cases hkind
  · have hsame := (emit_kind m c cs x).1
    have hliteral := emit_literal m c cs x
    rw [hemit] at hsame hliteral
    obtain ⟨rfl, hcode⟩ := actionAt_starred hx (hsame ▸ hkind)
    rw [hliteral, Lexeme.literalAt, hcode]
    exact ⟨_, rfl⟩

end Lexer

/-! ## Runs -/

section Runs

open Lexing

variable {ref : Option Reference}

theorem Lexer.run_starred (l : Lexer) :
    ∀ t ∈ (l.run ref).1, t.kind.isCounter = true → ∃ w, t.literal = String.ofList ('*' :: w) :=
  forall_mem_run (I := fun _ => True) (fun hnext _ => ⟨next?_starred hnext, trivial⟩) trivial

/-- From a calm stack on, and from every directive on, tokens are parts of values or comments up to
the next token of the text's structure. -/
def ValuesFrom (ref : Option Reference) : (calm : Bool) → List Token → Prop
  | _, [] => True
  | calm, t :: ts =>
    (calm = true → t.kind.isStructural = false → t.kind ≠ .endOfText →
      t.kind.isComment = true ∨ OfValue ref t) ∧
    ValuesFrom ref (t.kind.isDirective || calm && !t.kind.isStructural) ts

theorem Lexer.run_values (l : Lexer) (hl : l.nesting.Stringless) (calm : Bool)
    (hcalm : calm = true → l.nesting.Calm) : ValuesFrom ref calm (l.run ref).1 := by
  fun_induction Lexer.run ref l generalizing calm with
  | case1 => trivial
  | case2 l t l' hnext ht => exact ⟨fun _ _ hend => absurd ht hend, trivial⟩
  | case3 l t l' hnext ht ts last hrun ih =>
    have hstringless := (next?_shape hnext hl).1
    refine ⟨fun hc hkind hend =>
      (next?_calm hnext hkind hend (hcalm hc) hl.toBounded).1, ?_⟩
    have hrest := ih hstringless (t.kind.isDirective || calm && !t.kind.isStructural) fun hc => ?_
    · rw [hrun] at hrest
      exact hrest
    · rw [Bool.or_eq_true, Bool.and_eq_true, Bool.not_eq_true'] at hc
      rcases hc with hdirective | ⟨hc, hkind⟩
      · exact next?_directive hnext hdirective
      · exact (next?_calm hnext hkind ht (hcalm hc) hl.toBounded).2

theorem ValuesFrom.filter {calm : Bool} {ts : List Token} (h : ValuesFrom ref calm ts) :
    ValuesFrom ref calm (ts.filter fun t => !t.kind.isComment) := by
  induction ts generalizing calm with
  | nil => trivial
  | cons t ts ih =>
    obtain ⟨hhead, htail⟩ := h
    cases hcomment : t.kind.isComment with
    | true =>
      have hkinds : t.kind.isDirective = false ∧ t.kind.isStructural = false := by
        revert hcomment
        cases t.kind <;> first | exact fun _ => ⟨rfl, rfl⟩ | exact Bool.noConfusion
      rw [hkinds.1, hkinds.2, Bool.not_false, Bool.and_true, Bool.false_or] at htail
      rw [List.filter_cons_of_neg (by rw [hcomment]; decide)]
      exact ih htail
    | false =>
      rw [List.filter_cons_of_pos (by rw [hcomment]; rfl)]
      exact ⟨hhead, ih htail⟩

theorem ValuesFrom.behind {calm : Bool} {xs ys : List Token} (h : ValuesFrom ref calm (xs ++ ys)) :
    ∃ calm', ValuesFrom ref calm' ys := by
  induction xs generalizing calm with
  | nil => exact ⟨calm, h⟩
  | cons t xs ih => exact ih h.2

theorem ValuesFrom.ofValue {ys zs : List Token} (h : ValuesFrom ref true (ys ++ zs))
    (hkinds : ∀ y ∈ ys, y.kind.isStructural = false ∧ y.kind ≠ .endOfText ∧
      y.kind.isComment = false) : ∀ y ∈ ys, OfValue ref y := by
  induction ys with
  | nil => exact fun y hy => absurd hy List.not_mem_nil
  | cons t ys ih =>
    obtain ⟨hhead, htail⟩ := h
    obtain ⟨hstructural, hend, hcomment⟩ := hkinds t List.mem_cons_self
    rw [hstructural, Bool.not_false, Bool.and_true, Bool.or_true] at htail
    refine List.forall_mem_cons.2 ⟨?_, ih htail fun y hy => hkinds y (List.mem_cons_of_mem t hy)⟩
    rcases hhead rfl hstructural hend with hc | hv
    · rw [hcomment] at hc
      cases hc
    · exact hv

/-- **The tokens behind a directive are read as parts of values**, up to the next token that gives
the text its structure. -/
theorem tokenize_values {limit : Int} {text : String} {before ys behind : List Token} {d : Token}
    (htokens : (tokenize ref limit text).1.filter (fun t => !t.kind.isComment) =
      before ++ d :: (ys ++ behind))
    (hd : d.kind.isDirective = true)
    (hkinds : ∀ y ∈ ys, y.kind.isStructural = false ∧ y.kind ≠ .endOfText ∧
      y.kind.isComment = false) : ∀ y ∈ ys, OfValue ref y := by
  have hrun : ValuesFrom ref false (tokenize ref limit text).1 :=
    Lexer.run_values _ (Nesting.stringless_ofLimit limit) false fun h => absurd h Bool.false_ne_true
  have hstream := hrun.filter
  rw [htokens] at hstream
  obtain ⟨calm, -, hbehind⟩ := hstream.behind
  rw [hd, Bool.true_or] at hbehind
  exact hbehind.ofValue hkinds

end Runs

end Asm6510
