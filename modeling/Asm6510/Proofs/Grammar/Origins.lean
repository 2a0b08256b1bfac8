import Asm6510.Proofs.Grammar.Stream

/-!
# Where statements come from

Every statement of a program, however deep it stands in blocks, is what the parser of statements
gave from some state of the parse.

* `Statement.body`: the statements in the block of a statement.
* `Underway`: a state of a parse.
* `OfToken`: a directive of a token.
* `Ended`: a block was read last, if there is one.
* `Statement.Stands`: a statement stands among others, in a number of blocks.
* `OriginAt`, `Origin`: the run of the parser of statements that gave a statement.

Main statements: `parse_originAt`, every statement of a program has an origin, with the room that
the blocks around it leave; `parse_origin`.
-/

namespace Asm6510

variable {u st : Statement} {k : Nat}

def Statement.body : Statement → List Statement
  | directiveBlock _ _ body _ => body
  | block _ body _ => body
  | _ => []

/-- The statements that are directives, with or without a block. -/
def Statement.IsDirective : Statement → Prop
  | directive _ => True
  | directiveBlock _ _ _ _ => True
  | _ => False

theorem Statement.mem_preorder : u ∈ st.preorder ↔ u = st ∨ u ∈ preorders st.body := by
  cases st with
  | directiveBlock | block =>
    rw [preorder]
    exact List.mem_cons
  | label | instruction | directive | expression => simp [preorder, body, preorders]

/-- The statement is one of several, or stands in the block of one; the number is that of the blocks
around it. -/
inductive Statement.Stands : List Statement → Nat → Statement → Prop
  | here {sts : List Statement} {u : Statement} (hu : u ∈ sts) : Stands sts 0 u
  | inner {sts : List Statement} {st u : Statement} {k : Nat} (hst : st ∈ sts)
      (hu : Stands st.body k u) : Stands sts (k + 1) u

theorem Statement.Stands.append {xs ys : List Statement} (h : Stands (xs ++ ys) k u) :
    Stands xs k u ∨ Stands ys k u := by
  cases h with
  | here hu => exact (List.mem_append.1 hu).imp .here .here
  | inner hst hu => exact (List.mem_append.1 hst).imp (.inner · hu) (.inner · hu)

theorem Statement.not_stands_nil : ¬ Stands [] k u := by
  rintro (hu | ⟨hst, -⟩) <;> exact absurd ‹_› List.not_mem_nil

theorem Statement.Stands.mono {xs ys : List Statement} (hsub : xs ⊆ ys) (h : Stands xs k u) :
    Stands ys k u := by
  cases h with
  | here hu => exact .here (hsub hu)
  | inner hst hu => exact .inner (hsub hst) hu

mutual

theorem Statement.exists_stands_of_mem : (st : Statement) → u ∈ st.preorder →
    ∃ k, Stands [st] k u
  | .label _ | .instruction _ _ | .directive _ | .expression _ _ => by
    intro hu
    exact ⟨0, .here hu⟩
  | .directiveBlock _ _ body _ | .block _ body _ => by
    intro hu
    rcases Statement.mem_preorder.1 hu with rfl | hu
    · exact ⟨0, .here (List.mem_singleton.2 rfl)⟩
    · obtain ⟨k, hk⟩ := Statement.exists_stands body hu
      exact ⟨k + 1, .inner (List.mem_singleton.2 rfl) hk⟩

/-- Every statement stands in some number of blocks. -/
theorem Statement.exists_stands : (sts : List Statement) → u ∈ preorders sts →
    ∃ k, Stands sts k u
  | [] => fun hu => absurd hu List.not_mem_nil
  | st :: sts => by
    intro hu
    rw [preorders] at hu
    rcases List.mem_append.1 hu with hu | hu
    · obtain ⟨k, hk⟩ := Statement.exists_stands_of_mem st hu
      exact ⟨k, hk.mono (by simp)⟩
    · obtain ⟨k, hk⟩ := Statement.exists_stands sts hu
      exact ⟨k, hk.mono (List.subset_cons_self _ _)⟩

end

namespace Grammar

variable {src : Source} {α β : Type} {s : State} {p : Parser Statement}

/-! ## States -/

/-- A state of a parse: its tokens are the last ones of the source, and the bound of the nesting is
met only with a message. -/
structure Underway (src : Source) (s : State) : Prop where
  within : s.Within src
  frank : s.depthReported = true → s.diagnostics ≠ []

theorem Underway.step {again : Bool} {s' : State} (h : Underway src s)
    (hstep : Step src again s s') : Underway src s' := by
  refine ⟨hstep.suffix.trans h.within, ?_⟩
  cases hstep with
  | move | unwind | resume | unbounded => exact h.frank
  | report | fault | depth =>
    exact fun _ => List.append_ne_nil_of_right_ne_nil _ (List.cons_ne_nil _ _)

theorem Underway.run {again : Bool} {s' : State} (h : Underway src s) (hrun : Run src again s s') :
    Underway src s' := by
  induction hrun with
  | refl => exact h
  | tail _ hstep ih => exact ih.step hstep

/-! ## Blocks at the end of statements -/

/-- The statements of a block that may be missing. -/
def blockBody (b : Option Braces) : List Statement :=
  b.elim [] Braces.body

theorem body_ofDirective (d : Directive) (b : Option Braces) :
    (Statement.ofDirective d b).body = blockBody b := by
  cases b <;> rfl

/-- The block was read last, from some state of the parse. -/
def Ended (src : Source) (block : Token → Parser Braces) (b : Option Braces) (s : State) : Prop :=
  ∀ x ∈ b, ∃ opening ∈ src.tokens, ∃ start : State, Underway src start ∧
    (block opening).run start = (x, s)

/-- The statements in the block of a statement are those of a block that was read last. -/
def EndsInBlock (src : Source) (block : Token → Parser Braces) (st : Statement) (s : State) :
    Prop :=
  ∃ b, Ended src block b s ∧ st.body = blockBody b

theorem ended_none (block : Token → Parser Braces) (s : State) : Ended src block none s :=
  fun _ hx => absurd hx (Option.not_mem_none _)

theorem endsInBlock_of_nil {block : Token → Parser Braces} (h : st.body = []) (s : State) :
    EndsInBlock src block st s :=
  ⟨none, ended_none block s, h⟩

/-- What is ensured whatever was read before. -/
theorem Ensures.behind {H : Prop} {p : Parser α} {f : α → Parser β} {Q : β → State → Prop}
    (hf : ∀ a, Ensures (fun _ => H) (f a) Q) : Ensures (fun _ => H) (p >>= f) Q :=
  fun _ h => hf _ _ h

/-- What is ensured from the states of a parse. -/
theorem Along.then {p : Parser α} {P : α → Prop} {f : α → Parser β} {Q : β → State → Prop}
    (hp : Along src true p P) (hf : ∀ a, P a → Ensures (Underway src) (f a) Q) :
    Ensures (Underway src) (p >>= f) Q := by
  intro s hs
  obtain ⟨hrun, ha⟩ := hp s hs.within
  exact hf _ ha _ (hs.run hrun)

/-- A directive of the token, with or without a block. -/
def OfToken (t : Token) (st : Statement) : Prop :=
  ∃ d b, st = Statement.ofDirective d b ∧ d.token = t

theorem OfToken.token {t : Token} (h : OfToken t st) : st.token = t := by
  obtain ⟨d, b, rfl, rfl⟩ := h
  cases b <;> rfl

section Directives

variable {expr : Parser Expr} {block : Token → Parser Braces} {t : Token}

theorem ended_optionalBlock :
    Ensures (Underway src) (optionalBlock block) (Ended src block) := by
  refine (along_nextIs _).then fun opened _ => ?_
  split
  · refine along_advance.then fun opening hopening s hs x hx => ?_
    exact ⟨opening, hopening, s, hs, Prod.ext (Option.mem_some.1 hx) rfl⟩
  · exact Ensures.pure fun s _ => ended_none block s

theorem ended_requiredBlock :
    Ensures (Underway src) (requiredBlock block t) (Ended src block) := by
  refine (along_nextIs _).then fun opened _ => ?_
  split
  · exact ended_optionalBlock
  · exact (along_reportNext (.around (by decide) _ _)).then fun _ _ =>
      Ensures.pure fun s _ => ended_none block s

theorem endsInBlock_ofDirective {p : Parser (Option Braces)} (d : Directive)
    (hp : Ensures (Underway src) p (Ended src block)) :
    Ensures (Underway src) (do
      let body ← p
      return Statement.ofDirective d body) (EndsInBlock src block) :=
  hp.bind fun b => Ensures.pure fun _ hb => ⟨b, hb, body_ofDirective d b⟩

theorem Framed.endsInBlock {V : Expr → Prop} {block' : Token → Parser Braces} {q : Parser Statement}
    (h : Framed (.still src false false) V t block block' p q) :
    Ensures (Underway src) p (EndsInBlock src block) := by
  induction h with
  | plain => exact Ensures.pure fun s _ => endsInBlock_of_nil rfl s
  | members => exact Ensures.pure fun s _ => endsInBlock_of_nil rfl s
  | optional => exact endsInBlock_ofDirective _ ended_optionalBlock
  | required => exact endsInBlock_ofDirective _ ended_requiredBlock
  | behind hp _ ih => exact hp.raise.along.then ih

/-- Every branch of a directive's parser ends in a directive at its token. -/
theorem ofToken_directive :
    Ensures (fun _ => True) (directive expr block t) fun st _ => OfToken t st := by
  unfold directive
  split
  all_goals first
    | unfold encodingDirective | unfold defineDirective | unfold importDirective
    | unfold callableDirective | unfold pseudocommandDirective | unfold namespaceDirective
    | unfold enumDirective | unfold dataDirective | unfold forDirective | unfold ifDirective
    | unfold namedDirective | unfold genericDirective
  all_goals repeat' first
    | exact Ensures.pure fun _ _ => ⟨_, none, rfl, rfl⟩
    | exact Ensures.pure fun _ _ => ⟨_, some ⟨_, [], _⟩, rfl, rfl⟩
    | exact Ensures.pure fun _ _ => ⟨_, _, rfl, rfl⟩
    | refine Ensures.behind fun _ => ?_
    | split

end Directives

section Statements

variable {rules : Rules} {expr : Parser Expr} {block : Token → Parser Braces} {t : Token}

theorem exists_instruction (rules : Rules) :
    Ensures (fun _ => True) (instruction rules expr t)
      fun st _ => ∃ operand, st = .instruction t operand := by
  refine Ensures.behind fun valued => ?_
  split
  · refine Ensures.behind fun _ => Ensures.behind fun _ => Ensures.behind fun _ =>
      Ensures.behind fun _ => Ensures.behind fun _ => ?_
    split
    · exact Ensures.behind fun _ => Ensures.pure fun _ _ => ⟨_, rfl⟩
    · exact Ensures.pure fun _ _ => ⟨_, rfl⟩
  · exact Ensures.behind fun _ => Ensures.pure fun _ _ => ⟨_, rfl⟩

theorem exists_programCounter :
    Ensures (fun _ => True) (programCounter expr t)
      fun st _ => ∃ value, st = .directive ⟨t, none, [], value⟩ := by
  refine Ensures.behind fun valued => ?_
  split
  · exact Ensures.behind fun _ => Ensures.behind fun _ => Ensures.pure fun _ _ => ⟨_, rfl⟩
  · exact Ensures.pure fun _ _ => ⟨_, rfl⟩

theorem body_macroCall :
    Ensures (fun _ => True) (macroCall expr t) fun st _ => st.body = [] :=
  Ensures.behind fun _ => Ensures.behind fun _ => Ensures.pure fun _ _ => rfl

theorem body_pseudocommandCall :
    Ensures (fun _ => True) (pseudocommandCall expr t) fun st _ => st.body = [] :=
  Ensures.behind fun _ => Ensures.behind fun _ => Ensures.behind fun _ =>
    Ensures.pure fun _ _ => rfl

theorem body_programCounter :
    Ensures (fun _ => True) (programCounter expr t) fun st _ => st.body = [] := by
  intro s hs
  obtain ⟨value, hst⟩ := exists_programCounter s hs
  rw [hst]
  rfl

theorem body_instruction :
    Ensures (fun _ => True) (instruction rules expr t) fun st _ => st.body = [] := by
  intro s hs
  obtain ⟨operand, hst⟩ := exists_instruction rules s hs
  rw [hst]
  rfl

theorem endsInBlock_of_plain (hp : Ensures (fun _ => True) p fun st _ => st.body = []) :
    Ensures (Underway src) p (EndsInBlock src block) :=
  fun s _ => endsInBlock_of_nil (hp s trivial) _

/-- What is said about a statement that may be missing. -/
def ItemEnds (src : Source) (block : Token → Parser Braces) (item : Option Statement)
    (s : State) : Prop :=
  ∀ st ∈ item, EndsInBlock src block st s

theorem itemEnds_none (s : State) : ItemEnds src block none s :=
  fun st hst => absurd hst (Option.not_mem_none st)

theorem itemEnds_some (h : EndsInBlock src block st s) : ItemEnds src block (some st) s :=
  fun _ hu => Option.mem_some.1 hu ▸ h

theorem itemEnds_of_statement (hp : Ensures (Underway src) p (EndsInBlock src block)) :
    Ensures (Underway src) (do return some (← p)) (ItemEnds src block) :=
  hp.bind fun _ => Ensures.pure fun _ hst => itemEnds_some hst

/-- What is read for a statement ends in the block that the statement has. -/
theorem itemEnds_statement {V : Expr → Prop}
    (hexpr : Abreast (.still src false false) false expr expr id V) :
    Ensures (Underway src) (statement rules expr block) (ItemEnds src block) := by
  refine along_current.then fun t ht => ?_
  split
  · exact Ensures.pure fun s _ => itemEnds_some (endsInBlock_of_nil rfl s)
  · exact itemEnds_of_statement (endsInBlock_of_plain body_instruction)
  · exact itemEnds_of_statement (endsInBlock_of_plain body_programCounter)
  · refine (along_nextIs _).then fun spaced _ => ?_
    split
    · exact along_advance.then fun _ _ =>
        itemEnds_of_statement (endsInBlock_of_plain body_programCounter)
    · exact Ensures.pure fun s _ => itemEnds_none s
  · have hframed : Framed (.still src false false) V t block block _ _ := framed_directive ht hexpr
    exact itemEnds_of_statement hframed.endsInBlock
  · refine (along_nextIs _).then fun called _ => ?_
    split
    · exact itemEnds_of_statement (endsInBlock_of_plain body_macroCall)
    · refine along_hasValueOnLine.then fun valued _ => ?_
      split
      · exact itemEnds_of_statement (endsInBlock_of_plain body_pseudocommandCall)
      · exact Ensures.pure fun s _ => itemEnds_none s
  · intro s _
    show ItemEnds src block (if ((builtinCall expr t).run s).1.isMissing then none else _) _
    split
    · exact itemEnds_none _
    · exact itemEnds_some (endsInBlock_of_nil rfl _)
  · intro s hs
    refine itemEnds_some ⟨some ((block t).run s).1, fun x hx => ?_, rfl⟩
    exact ⟨t, ht, s, hs, Prod.ext (Option.mem_some.1 hx) rfl⟩
  · exact hexpr.raise.along.then fun _ _ => Ensures.pure fun s _ => itemEnds_none s
  · exact Ensures.pure fun s _ => itemEnds_none s

/-- A directive starts with the token of a directive, or it sets the program counter. -/
theorem isDirective_or_counter (h : ((statement rules expr block).run s).1 = some st)
    (hst : st.IsDirective) :
    s.current.kind.isDirective = true ∨
      (s.current.kind = .programCounter ∨ s.current.kind = .asterisk) ∧
        ∃ value, st = .directive ⟨s.current, none, [], value⟩ := by
  have hread : Ensures (fun s' => s' = s) (statement rules expr block) fun r _ => r = some st →
      s.current.kind.isDirective = true ∨
        (s.current.kind = .programCounter ∨ s.current.kind = .asterisk) ∧
          ∃ value, st = .directive ⟨s.current, none, [], value⟩ := by
    refine Ensures.current fun t => ?_
    rintro _ ⟨rfl, rfl⟩ h
    split at h
    · cases h
      exact hst.elim
    · obtain ⟨operand, hmade⟩ : ∃ operand, ((instruction rules expr _).run _).1 =
          .instruction _ operand := exists_instruction rules _ trivial
      obtain rfl := hmade.symm.trans (Option.some.inj h)
      exact hst.elim
    · next hk =>
      obtain ⟨value, hmade⟩ : ∃ value, ((programCounter expr _).run _).1 =
          .directive ⟨_, none, [], value⟩ := exists_programCounter _ trivial
      exact .inr ⟨.inl hk, value, (Option.some.inj h).symm.trans hmade⟩
    · next hk =>
      rw [Parser.run_bind] at h
      split at h
      · obtain ⟨value, hmade⟩ : ∃ value, ((programCounter expr _).run _).1 =
            .directive ⟨_, none, [], value⟩ := exists_programCounter _ trivial
        exact .inr ⟨.inr hk, value, (Option.some.inj h).symm.trans hmade⟩
      · cases h
    · next hk =>
      rw [hk]
      exact .inl rfl
    · rw [Parser.run_bind] at h
      split at h
      · cases h
        exact hst.elim
      · rw [Parser.run_bind] at h
        split at h
        · cases h
          exact hst.elim
        · cases h
    · have hcall : (if ((builtinCall expr _).run _).1.isMissing then none
          else some (Statement.expression _ ((builtinCall expr _).run _).1)) = some st := h
      split at hcall
      · cases hcall
      · cases hcall
        exact hst.elim
    · cases h
      exact hst.elim
    · cases h
    · cases h
  exact hread s rfl h

theorem statement_directive (h : s.current.kind.isDirective = true) :
    (statement rules expr block).run s =
      (some ((directive expr block s.current).run s).1,
        ((directive expr block s.current).run s).2) := by
  rw [statement, Parser.run_bind]
  cases hk : s.current.kind with
  | directive cls =>
    rw [show (current.run s).1.kind = .directive cls from hk]
    rfl
  | _ =>
    rw [hk] at h
    cases h

end Statements

/-! ## Origins -/

/-- The parser of statements with this room gave the statement from a state of the parse with
messages heard, and the parse went on from there to the state. -/
def OriginAt (src : Source) (rules : Rules) (room : Nat) (st : Statement) (last : State) : Prop :=
  ∃ start, Underway src start ∧ start.unwinding = false ∧
    ((statementAt rules room).run start).1 = some st ∧
    Run src true ((statementAt rules room).run start).2 last

/-- The statement has an origin with some room up to the bound. -/
def Origin (src : Source) (rules : Rules) (st : Statement) (last : State) : Prop :=
  ∃ room start, room ≤ rules.limit ∧ Underway src start ∧ start.unwinding = false ∧
    ((statementAt rules room).run start).1 = some st ∧
    Run src true ((statementAt rules room).run start).2 last

/-- Every one of the statements has an origin, those in blocks included: each block takes one from
the room. -/
def OriginsAt (src : Source) (rules : Rules) (room : Nat) (sts : List Statement) (last : State) :
    Prop :=
  ∀ k u, Statement.Stands sts k u → k ≤ room ∧ OriginAt src rules (room - k) u last

/-- Every one of the statements has an origin, those in blocks included. -/
def Origins (src : Source) (rules : Rules) (sts : List Statement) (last : State) : Prop :=
  ∀ u ∈ Statement.preorders sts, Origin src rules u last

variable {rules : Rules} {room : Nat} {sts sts' : List Statement} {s s' : State}

theorem originsAt_nil (room : Nat) (s : State) : OriginsAt src rules room [] s :=
  fun _ _ hu => absurd hu Statement.not_stands_nil

theorem OriginsAt.mono (h : OriginsAt src rules room sts s) (hrun : Run src true s s') :
    OriginsAt src rules room sts s' := by
  intro k u hu
  obtain ⟨hk, start, hstart, hheard, hst, hto⟩ := h k u hu
  exact ⟨hk, start, hstart, hheard, hst, hto.trans hrun⟩

theorem OriginsAt.append (h : OriginsAt src rules room sts s)
    (h' : OriginsAt src rules room sts' s) : OriginsAt src rules room (sts ++ sts') s :=
  fun k u hu => hu.append.elim (h k u) (h' k u)

theorem OriginsAt.origins (h : OriginsAt src rules room sts s) (hroom : room ≤ rules.limit) :
    Origins src rules sts s := by
  intro u hu
  obtain ⟨k, hk⟩ := Statement.exists_stands sts hu
  obtain ⟨-, start, horigin⟩ := h k u hk
  exact ⟨room - k, start, (Nat.sub_le _ _).trans hroom, horigin⟩

/-- The statements in a block have origins with the room that is left behind its opening brace. -/
def BodyOrigins (src : Source) (rules : Rules) (room : Nat) (body : List Statement) (s : State) :
    Prop :=
  ∀ k u, Statement.Stands body k u → k + 1 ≤ room ∧ OriginAt src rules (room - (k + 1)) u s

/-- One turn: the statement comes from it, and what is in its block from the block. -/
theorem origins_statementTurn
    (hblock : ∀ opening ∈ src.tokens, Ensures (Underway src) (block rules room opening)
      fun b s => BodyOrigins src rules room b.body s) :
    Ensures (Underway src) (statementTurn (statementAt rules room))
      fun r s => OriginsAt src rules room r.1 s := by
  intro s hs k u hu
  let start : State := { s with unwinding := false }
  have hresume : Step src true s start := .resume rfl
  have hstart : Underway src start := hs.step hresume
  cases hu with
  | here hst => exact ⟨Nat.zero_le _, start, hstart, rfl, Option.mem_toList.1 hst, .refl⟩
  | @inner _ st _ k hst hu =>
    have hst : st ∈ ((statementAt rules room).run start).1 := Option.mem_toList.1 hst
    have hends :
        Ensures (Underway src) (statementAt rules room) (ItemEnds src (block rules room)) :=
      itemEnds_statement (abreast_expression_self rules room (Nat.le_refl _))
    obtain ⟨b, hb, hbody⟩ := hends start hstart st hst
    rw [hbody] at hu
    cases b with
    | none => exact absurd hu Statement.not_stands_nil
    | some b =>
      obtain ⟨opening, hopening, before, hbefore, hrun⟩ := hb b rfl
      have hinner := hblock opening hopening before hbefore
      rw [hrun] at hinner
      exact hinner k u hu

theorem origins_statements {stop : TokenKind → Bool}
    (hblock : ∀ opening ∈ src.tokens, Ensures (Underway src) (block rules room opening)
      fun b s => BodyOrigins src rules room b.body s) :
    Ensures (Underway src) (statements stop (statementAt rules room))
      fun sts s => OriginsAt src rules room sts s := by
  -- The statements so far keep their origins, since every turn goes on from where it started.
  have hturn : ∀ acc, Ensures
      (fun s => stop s.current.kind = false ∧ Underway src s ∧ OriginsAt src rules room acc s)
      (statementTurn (statementAt rules room)) fun r s =>
        if r.2 = true ∨ s.ahead = [] then OriginsAt src rules room (acc ++ r.1) s
        else Underway src s.advance ∧ OriginsAt src rules room (acc ++ r.1) s.advance := by
    rintro acc s ⟨-, hs, hacc⟩
    have hrun := (along_statementTurn rules room s hs.within).1
    have hall := (hacc.mono hrun).append (origins_statementTurn hblock s hs)
    split
    · exact hall
    · have hadvance : Run src true s ((statementTurn (statementAt rules room)).run s).2.advance :=
        hrun.trans (run_advance _)
      exact ⟨hs.run hadvance, hall.mono (run_advance _)⟩
  rw [statements_eq]
  exact (ensures_untilKind (I := fun sts s => Underway src s ∧ OriginsAt src rules room sts s)
    (fun _ _ _ h => h.2) hturn []).pre fun s hs => ⟨hs, originsAt_nil room s⟩

theorem origins_block (rules : Rules) (room : Nat) (opening : Token) :
    Ensures (Underway src) (block rules room opening)
      fun b s => BodyOrigins src rules room b.body s := by
  induction room generalizing opening with
  | zero =>
    intro s _
    have hempty : ((refusedBlock rules opening).run s).1.body = [] := by
      have hall : Ensures (fun _ => True) (refusedBlock rules opening) fun b _ => b.body = [] := by
        refine Ensures.behind fun _ => Ensures.behind fun depth => ?_
        split
        · exact Ensures.behind fun _ => Ensures.pure fun _ _ => rfl
        · exact Ensures.behind fun _ => Ensures.pure fun _ _ => rfl
      exact hall s trivial
    show BodyOrigins src rules 0 ((refusedBlock rules opening).run s).1.body _
    rw [hempty]
    exact fun _ _ hu => absurd hu Statement.not_stands_nil
  | succ room ih =>
    refine along_advance.then fun _ _ =>
      (origins_statements fun opening _ => ih opening).bind fun _ =>
        Ensures.current fun _ => Ensures.pure fun _ h k u hu => ?_
    rw [Nat.add_sub_add_right]
    exact (h.2 k u hu).imp_left Nat.succ_le_succ

theorem origins_program (rules : Rules) (src : Source) :
    Ensures (Underway src) (program rules src.overflow)
      fun sts s => OriginsAt src rules rules.limit sts s := by
  unfold program
  split
  · rename_i place hp
    exact (along_reportDepth rules (.inr hp)).then fun _ _ =>
      origins_statements fun opening _ => origins_block rules _ opening
  · exact origins_statements fun opening _ => origins_block rules _ opening

end Grammar

section Parse

variable {ref : Option Reference} {lexLimit limit : Int} {text : String} {parsed : Parsed}

/-- **Every statement of a program has an origin**: the parser of statements gave it from a state of
the parse, with the room that the blocks around it leave. -/
theorem parse_originAt (h : parse ref lexLimit limit text = .ok parsed) :
    ∃ overflow last, last.diagnostics = parsed.diagnostics ∧ last.unbounded = false ∧
      Grammar.OriginsAt ⟨parsed.stream, overflow⟩ ⟨depthBound limit, ref⟩ (depthBound limit)
        parsed.program.statements last := by
  obtain ⟨first, rest, hstream, hbounded, rfl⟩ := parse_ok h
  have hall := Grammar.origins_program ⟨depthBound limit, ref⟩
    ⟨first :: rest, (tokenize ref lexLimit text).2.nesting.overflow⟩
    (Grammar.State.start first rest) ⟨List.suffix_rfl, fun h => nomatch h⟩
  refine ⟨(tokenize ref lexLimit text).2.nesting.overflow, _, rfl, hbounded, ?_⟩
  rw [Parsed.stream, hstream]
  exact hall

theorem parse_origin (h : parse ref lexLimit limit text = .ok parsed) :
    ∃ overflow last, last.diagnostics = parsed.diagnostics ∧ last.unbounded = false ∧
      Grammar.Origins ⟨parsed.stream, overflow⟩ ⟨depthBound limit, ref⟩
        parsed.program.statements last := by
  obtain ⟨overflow, last, hlast, hbounded, hall⟩ := parse_originAt h
  exact ⟨overflow, last, hlast, hbounded, hall.origins (Nat.le_refl _)⟩

end Parse

end Asm6510
