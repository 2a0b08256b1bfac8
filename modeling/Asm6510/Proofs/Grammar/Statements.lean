import Asm6510.Proofs.Grammar.Directives

/-!
# Every token of a parse belongs to a statement

* `Reached`: the statements so far account for all tokens before the current one.

One lemma for each parser of statements; the loop over statements keeps `Reached`
(`ensures_statements`), and blocks follow by recursion on the room for nesting (`readsBlock_block`).

Main statement: `parseRun_items`, the statements of a parse account for all of its tokens.
-/

namespace Asm6510.Grammar

variable {src : Source} {stop : TokenKind → Bool} {t : Token} {tokens inner : List Token}
  {s s' : State} {expr : Parser Expr} {block : Token → Parser Braces}

/-! ## Statements without a block -/

theorem keeps_checkMode (rules : Rules) (t : Token) (operand : Expr) :
    Keeps src (checkMode rules t operand) := by
  unfold checkMode
  split
  · exact keeps_pure _
  · dsimp only
    split
    · exact keeps_pure _
    · exact keeps_of_grows fun s => s.grows_add _

theorem State.peek_advance (s : State) : s.advance.peek = s.peekSecond := by
  unfold peekSecond
  split
  · rename_i ha
    rw [advance_of_nil ha, peek_of_nil ha]
  · rename_i u ha
    rw [advance_of_cons ha, peek_of_nil rfl]
  · rename_i u v rest ha
    rw [advance_of_cons ha, peek_of_cons rfl]

section Plain

variable (he : EndsOnce src.tokens)
include he

theorem keeps_indexedOperand (operand : Expr) : Keeps src (indexedOperand operand) := by
  intro names tokens
  refine Ensures.state fun s₀ => ?_
  split
  · rename_i hcomma
    simp only [Bool.and_eq_true, decide_eq_true_eq] at hcomma
    refine Ensures.advance (M := fun _ s => s = s₀.advance ∧ At src names tokens s) ?_
      fun comma => ?_
    · rintro s ⟨rfl, hs⟩
      exact ⟨rfl, hs.onto he (by rw [hcomma.1]; rfl)⟩
    · refine Ensures.advance (M := fun _ => At src names tokens) ?_ fun register =>
        Ensures.pure fun s hs => hs
      rintro s ⟨rfl, hs⟩
      exact hs.onto he (by rw [s₀.peek_advance]; exact isStructural_of_isIndexRegister hcomma.2)
  · exact Ensures.pure fun s hs => hs.2

theorem ensures_instruction (rules : Rules) (hexpr : ReadsValue src expr) {cls : MnemonicClass}
    (hk : t.kind = .mnemonic cls) :
    Ensures (Begun src tokens) (instruction rules expr t)
      fun st s => Plain t (some st) [] ∧ Past src t [] tokens s := by
  have hdone : ∀ e, Ensures (At src [] tokens) (Pure.pure (Statement.instruction t e))
      fun st s => Plain t (some st) [] ∧ Past src t [] tokens s :=
    fun e => Ensures.pure fun s hs => ⟨.instruction hk e, hs.past⟩
  refine Ensures.pre (P := At src [] tokens) ?_ fun s hs => hs.at
  refine Ensures.ifValue ?_ ((keeps_checkMode rules t _ [] tokens).bind fun _ => hdone _)
  refine Ensures.state fun before => ?_
  refine Ensures.advance (M := fun _ => Due src [] tokens) ?_ fun _ => ?_
  · exact fun s hs => hs.2.2.due he (.inl hs.2.1)
  · refine (hexpr.settles [] tokens).bind fun operand => ?_
    refine (keeps_indexedOperand he operand [] tokens).bind fun operand => ?_
    refine Ensures.state fun after => Ensures.pre (P := At src [] tokens) ?_ fun s hs => hs.2
    split
    · exact (keeps_checkMode rules t _ [] tokens).bind fun _ => hdone _
    · exact hdone _

theorem ensures_programCounter (hexpr : ReadsValue src expr) (hk : t.kind.isBrace = false) :
    Ensures (At src [] tokens) (programCounter expr t)
      fun st s => Plain t (some st) [] ∧ Past src t [] tokens s := by
  have hdone : ∀ e, Ensures (At src [] tokens) (Pure.pure (Statement.directive ⟨t, none, [], e⟩))
      fun st s => Plain t (some st) [] ∧ Past src t [] tokens s := by
    refine fun e => Ensures.pure fun s hs => ⟨?_, hs.past⟩
    have hplain : Plain t (some (.directive ⟨t, none, [], e⟩)) _ := .directive hk rfl
    simpa [Directive.headerNames] using hplain
  refine Ensures.ifValue ?_ (hdone _)
  refine Ensures.advance (M := fun _ => Due src [] tokens) ?_ fun _ => ?_
  · exact fun s hs => hs.2.due he (.inl hs.1)
  · exact (hexpr.settles [] tokens).bind hdone

theorem ensures_macroCall (hexpr : ReadsValue src expr) :
    Ensures (fun s => s.peek.kind = .leftParen ∧ At src [] tokens s) (macroCall expr t)
      fun st s => (∃ e, st = .expression t e) ∧ Past src t [] tokens s := by
  refine Ensures.advance (M := fun _ s => s.current.kind = .leftParen ∧ At src [] tokens s) ?_
    fun _ => ?_
  · exact fun s hs => ⟨by rw [s.current_advance_eq, hs.1], hs.2.onto he (by rw [hs.1]; rfl)⟩
  · exact (ensures_arguments he hexpr.settles).bind fun args =>
      Ensures.pure fun s hs => ⟨⟨_, rfl⟩, hs.past⟩

theorem ensures_pseudocommandCall (hexpr : ReadsValue src expr) :
    Ensures (fun s => s.peek.place.line = s.current.place.line ∧ At src [] tokens s)
      (pseudocommandCall expr t)
      fun st s => (∃ e, st = .expression t e) ∧ Past src t [] tokens s := by
  refine Ensures.advance (M := fun _ => Due src [] tokens) ?_ fun _ => ?_
  · exact fun s hs => hs.2.due he (.inl hs.1)
  · refine (hexpr.settles [] tokens).bind fun first => ?_
    refine (keeps_whileNext he rfl (fun names tokens => ?_) [] tokens).bind fun r =>
      Ensures.pure fun s hs => ⟨⟨_, rfl⟩, hs.past⟩
    refine Ensures.peek fun next => ?_
    split
    · exact Ensures.pure fun s hs => hs.2.2
    · refine Ensures.advance (M := fun _ => Due src names tokens) ?_ fun _ => ?_
      · exact fun s hs => hs.2.2.due he (.inr (by rw [hs.2.1]; rfl))
      · exact (hexpr.settles names tokens).bind fun e => Ensures.pure fun s hs => hs

end Plain

/-! ## Statements -/

/-- A statement accounts for the tokens that it takes. -/
def ReadsItem (src : Source) (stop : TokenKind → Bool) (item : Parser (Option Statement)) : Prop :=
  ∀ (t : Token) (tokens : List Token), t :: tokens <:+ src.tokens → stop t.kind = false →
    t.kind ≠ .endOfText →
    Ensures (fun s => s.current = t ∧ Begun src tokens s) item
      fun st s => Listed src stop st.toList (t :: tokens) s

theorem readsItem_statement (he : EndsOnce src.tokens) (rules : Rules)
    (hexpr : ReadsValue src expr) (hblock : ReadsBlock src block) :
    ReadsItem src stop (statement rules expr block) := by
  intro t tokens hsrc hstop hend
  refine Ensures.current fun t' => ?_
  -- what a parser of plain statements or of nothing gives
  have hplain : ∀ {p : Parser Statement} {P : State → Prop}, Ensures P p
      (fun st s => Plain t (some st) [] ∧ Past src t [] tokens s) →
      Ensures P (do return some (← p)) fun st s => Listed src stop st.toList (t :: tokens) s :=
    fun h => h.bind fun st => Ensures.pure fun s hs => hs.2.listed hstop hend hs.1
  have hnothing : t.kind.isHead = false → t.kind ≠ .leftBrace →
      Ensures (At src [] tokens) (Pure.pure none)
        fun st s => Listed src stop st.toList (t :: tokens) s :=
    fun hhead hopen => Ensures.pure fun s hs => hs.past.listed hstop hend (.nothing hhead hopen)
  by_cases ht : t' = t
  · subst ht
    refine Ensures.pre (P := fun s => s.current = t' ∧ Begun src tokens s) ?_ fun s hs => hs.2
    split
    · rename_i hk
      exact Ensures.pure fun s hs => hs.2.at.past.listed hstop hend (.label hk)
    · rename_i hk
      exact hplain ((ensures_instruction he rules hexpr hk).pre fun s hs => hs.2)
    · rename_i hk
      exact hplain ((ensures_programCounter he hexpr (by rw [hk]; rfl)).pre fun s hs => hs.2.at)
    · rename_i hk
      refine Ensures.pre (P := At src [] tokens) ?_ fun s hs => hs.2.at
      refine Ensures.ifNext ?_ (hnothing (by rw [hk]; rfl) (by rw [hk]; decide))
      refine Ensures.advance (M := fun _ => At src [] tokens) ?_ fun _ => ?_
      · exact fun s hs => hs.2.onto he (by rw [hs.1]; rfl)
      · exact hplain (ensures_programCounter he hexpr (by rw [hk]; rfl))
    · rename_i hk
      have hhead : t'.kind.isHead = true := by
        rw [hk]
        rfl
      refine ((ensures_directive he hexpr hblock hhead hsrc).bind fun st =>
        Ensures.pure fun s hs => ?_).pre fun s hs => hs.2
      exact hs.listed hstop hhead (by rw [hk]; rfl)
    · rename_i hk
      have hcall : ∀ {p : Parser Statement} {P : State → Prop}, Ensures P p
          (fun st s => (∃ e, st = .expression t' e) ∧ Past src t' [] tokens s) →
          Ensures P (do return some (← p)) fun st s =>
            Listed src stop st.toList (t' :: tokens) s := by
        refine fun h => hplain (h.post ?_)
        rintro st s ⟨⟨e, rfl⟩, hs⟩
        exact ⟨.expression (by rw [hk]; rfl) e, hs⟩
      refine Ensures.pre (P := At src [] tokens) ?_ fun s hs => hs.2.at
      refine Ensures.ifNext (hcall (ensures_macroCall he hexpr)) ?_
      refine Ensures.ifValue (hcall (ensures_pseudocommandCall he hexpr)) ?_
      exact hnothing (by rw [hk]; rfl) (by rw [hk]; decide)
    · rename_i hk
      refine Ensures.pre (P := At src [] tokens) ?_ fun s hs => hs.2.at
      refine (keeps_builtinCall he hexpr.settles t' [] tokens).bind fun call => ?_
      refine Ensures.pure fun s hs => ?_
      split
      · exact hs.past.listed hstop hend (.nothing (by rw [hk]; rfl) (by rw [hk]; simp))
      · exact hs.past.listed hstop hend (.expression (by rw [hk]; rfl) call)
    · rename_i hk
      refine (hblock.encloses hk).bind fun b => Ensures.pure ?_
      rintro s ⟨hb, hs⟩
      have hheader : Header src s.diagnostics none b.opening (t' :: tokens) tokens := by
        rw [hb]
        exact .bare hk
      exact hs.listed (by simp) hheader
    · rename_i hk
      refine Ensures.pre (P := Due src [] tokens) ?_ fun s hs =>
        hs.2.at.ready (by rw [hs.1, hk]; rfl)
      refine (hexpr.settles [] tokens).bind fun _ => ?_
      exact hnothing (by rw [hk]; rfl) (by rw [hk]; decide)
    · refine Ensures.pre ?_ fun s (hs : s.current = t' ∧ Begun src tokens s) => hs.2.at
      refine hnothing ?_ ?_
      · cases hk : t'.kind <;> simp_all [TokenKind.isHead]
      · assumption
  · exact fun s hs => absurd (hs.1.symm.trans hs.2.1) ht

/-! ## Loops and blocks -/

/-- The statements so far account for all tokens before the current one. -/
structure Reached (src : Source) (stop : TokenKind → Bool) (tokens : List Token)
    (sts : List Statement) (s : State) : Prop where
  within : s.Within src
  honest : s.Honest
  items : Items src s.diagnostics stop sts tokens s.tokens

theorem Begun.reached (h : Begun src inner s) : Reached src stop inner [] s.advance :=
  ⟨h.within.advance, h.honest.advance, h.next_eq ▸ .done⟩

theorem Reached.grows {sts : List Statement} (h : Reached src stop tokens sts s) (hg : s.Grows s') :
    Reached src stop tokens sts s' :=
  ⟨hg.within h.within, hg.honest h.honest, hg.tokens_eq ▸ h.items.mono hg.diagnostics_subset⟩

/-- Where no statement of a text starts. -/
def endsText (kind : TokenKind) : Bool :=
  kind == .endOfText

section Loops

variable (he : EndsOnce src.tokens)
include he

theorem ensures_turn {item : Parser (Option Statement)} (halong : Along src true item anything)
    (hitem : ReadsItem src stop item) (hstop : stop .endOfText = true) (sts : List Statement) :
    Ensures (fun s => stop s.current.kind = false ∧ Reached src stop tokens sts s)
      (statementTurn item) fun r s =>
        if r.2 = true ∨ s.ahead = [] then
          Reached src stop tokens (sts ++ r.1) s ∧ stop s.current.kind = true
        else Reached src stop tokens (sts ++ r.1) s.advance := by
  rintro s ⟨hk, hs⟩
  have hend : s.current.kind ≠ .endOfText := by
    intro hend
    rw [hend, hstop] at hk
    cases hk
  -- messages are heard again, and a statement is read
  let s₀ : State := { s with unwinding := false }
  have hg : s.Grows s₀ := s.grows_resume
  have htokens : s.current :: s.next <:+ src.tokens := by
    rw [← hs.within.tokens_eq he hend]
    exact hs.within
  have hbegun : Begun src s.next s₀ := Begun.grows ⟨hs.within, hs.honest, rfl⟩ hg
  have hlisted := hitem _ _ htokens hk hend s₀ ⟨rfl, hbegun⟩
  have hgrown : s.diagnostics ⊆ (item.run s₀).2.diagnostics :=
    halong.diagnostics_subset hbegun.within
  have hitems := (hs.items.mono hgrown)
  rw [hs.within.tokens_eq he hend] at hitems
  have hall := hitems.append hlisted.items
  have hrun : (statementTurn item).run s = (((item.run s₀).1.toList, false), (item.run s₀).2) := rfl
  rw [hrun]
  clear hrun
  generalize item.run s₀ = r at *
  split
  · rename_i hlast
    have ha : r.2.ahead = [] := hlast.resolve_left Bool.false_ne_true
    rw [State.next_of_nil ha] at hall
    exact ⟨⟨hlisted.within, hlisted.honest, hall⟩,
      by rw [(hlisted.within.kind_eq_iff he).2 ha, hstop]⟩
  · refine ⟨hlisted.within.advance, hlisted.honest.advance, ?_⟩
    rw [r.2.diagnostics_advance]
    exact hall

theorem ensures_statements {item : Parser (Option Statement)}
    (halong : Along src true item anything) (hitem : ReadsItem src stop item)
    (hstop : stop .endOfText = true) :
    Ensures (Reached src stop tokens []) (statements stop item) fun sts s =>
      Reached src stop tokens sts s ∧ stop s.current.kind = true := by
  rw [statements_eq]
  exact ensures_untilKind (I := Reached src stop tokens)
    (D := fun sts s => Reached src stop tokens sts s ∧ stop s.current.kind = true)
    (fun _ _ hk hs => ⟨hs, hk⟩) (ensures_turn he halong hitem hstop) []

omit he in
theorem refusedBlock_run (rules : Rules) (opening : Token) (s : State) :
    (refusedBlock rules opening).run s =
      let r := (skipNested .leftBrace .rightBrace).run ((reportDepth rules opening.place).run s).2
      if r.1 = 0 then (⟨opening, [], r.2.current⟩, r.2)
      else (⟨opening, [], r.2.advance.current⟩, r.2.advance) := by
  unfold refusedBlock
  simp only [Parser.run_bind]
  split <;> rfl

theorem ensures_refusedBlock (rules : Rules) {opening : Token} (hk : opening.kind = .leftBrace) :
    Ensures (fun s => s.current = opening ∧ Begun src inner s) (refusedBlock rules opening)
      fun b s => b.opening = opening ∧ Enclosed src inner b s := by
  rintro s ⟨rfl, hs⟩
  let s₀ : State := ((reportDepth rules s.current.place).run s).2
  have hg : s.Grows s₀ := s.grows_reportDepth rules s.current.place
  have hbegun : Begun src inner s₀ := hs.grows hg
  have hend : s₀.current.kind ≠ .endOfText := by
    rw [hg.current_eq, hk]
    decide
  have hskip := hbegun.skipped he .leftBrace (show TokenKind.rightBrace ≠ .endOfText by decide) hend
  have hdepth : DepthReported ((skipNested .leftBrace .rightBrace).run s₀).2.diagnostics :=
    (hs.honest.depthReported rules s.current.place).mono
      ((along_skipNested _ _).diagnostics_subset hbegun.within)
  rw [refusedBlock_run]
  generalize (skipNested .leftBrace .rightBrace).run s₀ = r at *
  obtain ⟨hwithin, hhonest, hmatch⟩ := hskip
  by_cases hzero : r.1 = 0
  · rw [if_pos hzero] at hmatch ⊢
    refine ⟨rfl, hwithin, hhonest, _, .refused hdepth, ?_⟩
    rw [← hmatch.1]
    exact .brace hmatch.2
  · rw [if_neg hzero] at hmatch ⊢
    refine ⟨rfl, hwithin.advance, hhonest.advance, _, .refused ?_, ?_⟩
    · exact r.2.diagnostics_advance ▸ hdepth
    · rw [← hmatch.1]
      refine hwithin.advance.closes he ?_
      rw [r.2.current_advance_eq, hmatch.2]
      rfl

/-- Blocks account for their tokens, however much room for nesting is left. -/
theorem readsBlock_block (rules : Rules) (room : Nat) :
    ReadsBlock src (Grammar.block rules room) := by
  refine ⟨fun t ht => (along_block rules room ht).steps, ?_⟩
  induction room with
  | zero => exact fun hk => ensures_refusedBlock he rules hk
  | succ room ih =>
    intro opening inner hk
    have hexpr : ReadsValue src (expression rules room lowest) :=
      ⟨(along_expression rules room (Nat.le_refl _)).steps,
        settles_expression he rules room (Nat.le_refl _)⟩
    have hitem : ReadsItem src endsBlock (statementAt rules room) :=
      readsItem_statement he rules hexpr ⟨fun t ht => (along_block rules room ht).steps, ih⟩
    refine Ensures.advance (M := fun _ => Reached src endsBlock inner []) ?_ fun _ => ?_
    · exact fun s hs => hs.2.reached
    · refine (ensures_statements he (along_statementAt rules room).steps hitem rfl).bind
        fun body => ?_
      refine Ensures.current fun closing => Ensures.pure ?_
      rintro s ⟨rfl, hs, hend⟩
      exact ⟨rfl, hs.within, hs.honest, s.tokens, .statements hs.items, hs.within.closes he hend⟩

theorem readsItem_statementAt (rules : Rules) (room : Nat) :
    ReadsItem src stop (statementAt rules room) := by
  have hexpr : ReadsValue src (expression rules room lowest) :=
    ⟨(along_expression rules room (Nat.le_refl _)).steps,
      settles_expression he rules room (Nat.le_refl _)⟩
  exact readsItem_statement he rules hexpr (readsBlock_block he rules room)

theorem ensures_program (rules : Rules) (overflow : Option Place) :
    Ensures (Reached src endsText tokens []) (program rules overflow) fun sts s =>
      Reached src endsText tokens sts s ∧ endsText s.current.kind = true := by
  have hstatements : Ensures (Reached src endsText tokens [])
      (statements endsText (statementAt rules rules.limit)) _ :=
    ensures_statements he (along_statementAt rules rules.limit).steps
      (readsItem_statementAt he rules rules.limit) rfl
  unfold program
  split
  · rename_i place
    refine Ensures.bind (M := fun _ => Reached src endsText tokens []) ?_ fun _ => hstatements
    exact fun s hs => hs.grows (s.grows_reportDepth rules place)
  · exact hstatements

end Loops

/-- **The statements of a parse account for all of its tokens.** -/
theorem parseRun_items (rules : Rules) {overflow : Option Place} {first : Token} {rest : List Token}
    (he : EndsOnce (first :: rest)) :
    ∃ last : Token, last.kind = .endOfText ∧
      Items ⟨first :: rest, overflow⟩ (parseRun rules overflow first rest).2.diagnostics endsText
        (parseRun rules overflow first rest).1 (first :: rest) [last] := by
  let src : Source := ⟨first :: rest, overflow⟩
  have hsrc : EndsOnce src.tokens := he
  have hstart : Reached src endsText (first :: rest) [] (State.start first rest) :=
    ⟨List.suffix_rfl, fun h => absurd h (by simp [State.start]), .done⟩
  have hparse : Reached src endsText (first :: rest) (parseRun rules overflow first rest).1
        (parseRun rules overflow first rest).2 ∧
      endsText (parseRun rules overflow first rest).2.current.kind = true :=
    ensures_program hsrc rules overflow _ hstart
  generalize parseRun rules overflow first rest = r at *
  obtain ⟨hreached, hend⟩ := hparse
  have hlast : r.2.current.kind = .endOfText := eq_of_beq hend
  have hitems := hreached.items
  rw [State.tokens, (hreached.within.kind_eq_iff hsrc).1 hlast] at hitems
  exact ⟨r.2.current, hlast, hitems⟩

end Asm6510.Grammar
