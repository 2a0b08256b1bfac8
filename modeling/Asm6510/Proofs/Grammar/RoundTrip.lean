import Asm6510.Proofs.Analysis.Depth
import Asm6510.Proofs.Grammar.Completeness
import Asm6510.Proofs.Grammar.Origins
import Asm6510.Proofs.Grammar.RenderedTokens
import Asm6510.Proofs.Grammar.Reparsing
import Mathlib

/-!
# Values written again

The rendering of a value is read as an expression of the same shape, if the value was read without a
message and holds none of the four things that a rendering does not keep (`Expr.Rewritable`). The
lexer has to find room for the rendering, which stands on one line: a value on the lines behind its
directive is read outside of the directive, where parentheses open no context.

* `ReadValue`: how the value of a directive was read.
* `constantLine`, `DefinesConstant`: the line that defines a constant, and what it is read as.

Main statement: `parse_value_again`. The room is needed: `parse_value_without_room`.
-/

namespace Asm6510

open Grammar Lexing

namespace Grammar

variable {t : Token}

/-! ## From a directive back to its tokens -/

section Sources

variable {src : Source} {rules : Rules} {expr : Parser Expr} {block : Token → Parser Braces}
  {s : State} {d : Directive}

theorem namedDirective_run (t : Token) (s : State) :
    (namedDirective expr t).run s =
      if s.peek.kind.isName = true then
        if s.advance.peek.kind = .equal then
          if endsStatement s.advance.advance.peek = true then
            (.directive ⟨t, some s.advance.current, [], .missing⟩, s.advance.advance)
          else
            (.directive ⟨t, some s.advance.current, [], (expr.run s.advance.advance.advance).1⟩,
              (expr.run s.advance.advance.advance).2)
        else (.directive ⟨t, some s.advance.current, [], .missing⟩, s.advance)
      else
        (.directive ⟨t, none, [], .missing⟩, ((reportAt s.peek
          ("Expected identifier after " ++ directiveWord t ++ " directive")).run s).2) := by
  rw [namedDirective, Parser.run_bind]
  show Parser.run (if s.peek.kind.isName = true then _ else _) s = _
  split
  · rw [Parser.run_bind, Parser.run_bind]
    show Parser.run (if (s.advance.peek.kind == .equal) = true then _ else _) s.advance = _
    by_cases hequal : s.advance.peek.kind = .equal
    · rw [if_pos (beq_iff_eq.2 hequal), if_pos hequal, Parser.run_bind, Parser.run_bind]
      show Parser.run (if endsStatement s.advance.advance.peek = true then _ else _)
        s.advance.advance = _
      split
      · rfl
      · rfl
    · rw [if_neg fun h => hequal (beq_iff_eq.1 h), if_neg hequal]
      rfl
  · rfl

/-- A named directive with a value was read from a name, an equals sign and the value. -/
theorem namedDirective_value (h : ((namedDirective expr t).run s).1 = .directive d)
    (hvalue : d.value ≠ .missing) :
    s.peek.kind.isName = true ∧ s.advance.peek.kind = .equal ∧
      endsStatement s.advance.advance.peek = false ∧
      d.value = (expr.run s.advance.advance.advance).1 ∧
      ((namedDirective expr t).run s).2 = (expr.run s.advance.advance.advance).2 := by
  rw [namedDirective_run] at h ⊢
  split at h
  · next hname =>
    split at h
    · next hequal =>
      split at h
      · cases h
        exact absurd rfl hvalue
      · next hends =>
        cases h
        rw [if_pos hname, if_pos hequal, if_neg hends]
        exact ⟨hname, hequal, Bool.eq_false_iff.2 hends, rfl, rfl⟩
    · cases h
      exact absurd rfl hvalue
  · cases h
    exact absurd rfl hvalue

theorem mem_of_named {word : String} (h : DirectiveForm.ofWord word = .named) :
    word ∈ [".const", ".var", ".label"] := by
  have hpeel : ∀ {p : Prop} [Decidable p] {a b : DirectiveForm}, a ≠ .named →
      (if p then a else b) = .named → b = .named := by
    intro p _ a b ha h
    by_cases hp : p
    · rw [if_pos hp] at h
      exact absurd h ha
    · rwa [if_neg hp] at h
  have hlast : (if [".const", ".var", ".label"].contains word then DirectiveForm.named
      else .generic) = .named := by
    unfold DirectiveForm.ofWord at h
    iterate 11 replace h := hpeel (fun h => DirectiveForm.noConfusion h) h
    exact h
  by_contra hword
  rw [if_neg fun hc => hword (List.contains_iff_mem.1 hc)] at hlast
  cases hlast

/-- No mark that sets the program counter is one of them. -/
theorem not_named_of_starred {w : List Char} (h : t.literal = String.ofList ('*' :: w)) :
    DirectiveForm.ofWord (directiveWord t) ≠ .named := by
  intro hform
  have hhead : (directiveWord t).toList.head? = some '*' := by
    rw [directiveWord, h, Text.lower, String.toList_ofList, String.toList_ofList]
    rfl
  have hword := mem_of_named hform
  simp only [List.mem_cons, List.not_mem_nil, or_false] at hword
  rcases hword with hword | hword | hword
  · rw [hword] at hhead
    cases hhead
  · rw [hword] at hhead
    cases hhead
  · rw [hword] at hhead
    cases hhead

theorem directive_named (h : DirectiveForm.ofWord (directiveWord t) = .named) :
    directive expr block t = namedDirective expr t := by
  rw [directive, h]

/-- A statement that gives a name a value was read by the parser of such directives. -/
theorem statement_named (h : ((statement rules expr block).run s).1 = some (.directive d))
    (hform : d.form = .named)
    (hstar : s.current.kind.isCounter = true → ∃ w, s.current.literal = String.ofList ('*' :: w)) :
    s.current.kind.isDirective = true ∧ d.token = s.current ∧
      (statement rules expr block).run s =
        (some ((namedDirective expr s.current).run s).1,
          ((namedDirective expr s.current).run s).2) := by
  have hkind : s.current.kind.isDirective = true := by
    rcases isDirective_or_counter h trivial with hkind | ⟨hcounter, value, hst⟩
    · exact hkind
    · obtain ⟨w, hw⟩ := hstar (by rcases hcounter with hk | hk <;> rw [hk] <;> rfl)
      cases hst
      exact absurd hform (not_named_of_starred hw)
  have hread : (statement rules expr block).run s = _ := statement_directive hkind
  rw [hread] at h
  obtain ⟨d', b, hst, htoken⟩ : OfToken s.current ((directive expr block s.current).run s).1 :=
    ofToken_directive s trivial
  rw [Option.some.inj h] at hst
  cases b with
  | some => cases hst
  | none =>
    cases hst
    refine ⟨hkind, htoken, ?_⟩
    have hform : DirectiveForm.ofWord (directiveWord d.token) = .named := hform
    rw [hread, directive_named (htoken ▸ hform)]

/-- How the value of a directive was read: from tokens with a place in values, behind the directive,
by the rules of the grammar. -/
structure ReadValue (src : Source) (rules : Rules) (t : Token) (v : Expr) (ys : List Token) :
    Prop where
  directive : t.kind.isDirective = true
  source : ∃ front header behind, src.tokens = front ++ t :: ((header ++ ys) ++ behind) ∧
    ∀ y ∈ header ++ ys, y.kind.isStructural = false ∧ y.kind ≠ .endOfText
  yields : Yields v ys
  sound : Sound v
  built : Built rules.limit v
  goesOn : ∀ y ∈ ys.head?, endsStatement y = false

theorem EndsOnce.forall_mem {front behind : List Token} (h : EndsOnce (front ++ behind))
    (hne : behind ≠ []) : ∀ t ∈ front, t.kind ≠ .endOfText := by
  obtain ⟨before, last, hlast, -, hbefore⟩ := h
  obtain ⟨middle, z, rfl⟩ := (List.eq_nil_or_concat behind).resolve_left hne
  rw [List.concat_eq_append, ← List.append_assoc] at hlast
  obtain ⟨rfl, -⟩ := List.append_inj' hlast rfl
  exact fun t ht => hbefore t (List.mem_append_left _ ht)

/-- Without messages, the tokens that were taken are neither structural nor the end of the text. -/
theorem At.exists_front {names tokens : List Token} (h : At src names tokens s)
    (he : EndsOnce src.tokens) (htokens : tokens <:+ src.tokens) (hquiet : s.diagnostics = [])
    (hne : s.ahead ≠ []) : ∃ front, tokens = front ++ s.ahead ∧
      ∀ t ∈ front, t.kind.isStructural = false ∧ t.kind ≠ .endOfText := by
  have hnext : s.next = s.ahead := by
    rcases h.within.next_cases he with ⟨-, ha⟩ | ⟨-, hn, -⟩
    · exact absurd ha hne
    · exact hn
  have hstretch := h.stretch
  rw [hquiet, hnext] at hstretch
  obtain ⟨front, rfl, -⟩ := hstretch.taken
  refine ⟨front, rfl, fun t ht => ⟨?_, ?_⟩⟩
  · obtain ⟨behind, hvalue⟩ := hstretch.forall_mem rfl t ht
    exact Bool.eq_false_iff.2 fun hk => not_amiss_nil (hvalue hk)
  · obtain ⟨skipped, hskipped⟩ := htokens
    rw [← hskipped, ← List.append_assoc] at he
    exact he.forall_mem hne t (List.mem_append_right _ ht)

/-- A value that was read without messages, from where one may begin. -/
theorem Due.exists_value {names tokens : List Token} (h : Due src names tokens s)
    (he : EndsOnce src.tokens) (rules : Rules) (room : Nat)
    (hquiet : ((expression rules room lowest).run s).2.diagnostics = [])
    (hbounded : ((expression rules room lowest).run s).2.unbounded = false) :
    At src names tokens ((expression rules room lowest).run s).2 ∧
      Spans lowest s.tokens ((expression rules room lowest).run s).1
        ((expression rules room lowest).run s).2 := by
  have hat := settles_expression he rules room (Nat.le_refl lowest) names tokens s h
  obtain ⟨hrun, hreads⟩ := exact_expression he.ends rules room lowest s.tokens s h.within
  have hheard : ((expression rules room lowest).run s).2.unwinding = false := by
    refine Bool.eq_false_iff.2 fun hu => ?_
    have hdepth := hat.honest (.inl hu)
    rw [hquiet] at hdepth
    exact not_depthReported_nil hdepth
  have hstart : s.diagnostics = [] := List.prefix_nil.1 (hquiet ▸ Run.diagnostics_prefix hrun)
  exact ⟨hat, (hreads rfl ⟨hheard, hbounded, hquiet.trans hstart.symm⟩).1.toSpans⟩

/-- **The value of a directive was read from the tokens behind it**, if nothing was reported. -/
theorem Origin.readValue {last : State} (he : EndsOnce src.tokens)
    (hstar : ∀ t ∈ src.tokens, t.kind.isCounter = true →
      ∃ w, t.literal = String.ofList ('*' :: w))
    (h : Origin src rules (.directive d) last) (hform : d.form = .named)
    (hvalue : d.value ≠ .missing) (hquiet : last.diagnostics = [])
    (hbounded : last.unbounded = false) : ∃ ys, ReadValue src rules d.token d.value ys := by
  obtain ⟨room, start, hroom, ⟨hwithin, hfrank⟩, hheard, hst, hto⟩ := h
  obtain ⟨hkind, htoken, hread⟩ :=
    statement_named hst hform (hstar _ (State.current_mem hwithin))
  have hmade : ((namedDirective (expression rules room lowest) start.current).run start).1 =
      .directive d := by
    rw [statementAt, hread] at hst
    exact Option.some.inj hst
  obtain ⟨hnamed, hequal, hgoes, hval, hstop⟩ := namedDirective_value hmade hvalue
  rw [statementAt, hread, hstop] at hto
  have hstructural : start.advance.peek.kind.isStructural = false := by
    rw [hequal]
    rfl
  -- Nothing was reported from the start to the end of the value.
  have hafter := List.prefix_nil.1 (hquiet ▸ Run.diagnostics_prefix hto)
  have hbefore : start.diagnostics = [] := by
    have hrun :=
      (exact_expression he.ends rules room lowest [] _ hwithin.advance.advance.advance).1
    have hle := Run.diagnostics_prefix hrun
    rwa [hafter, State.diagnostics_advance, State.diagnostics_advance, State.diagnostics_advance,
      List.prefix_nil] at hle
  have hhonest : start.Honest := by
    rintro (hu | hd)
    · rw [hheard] at hu
      cases hu
    · exact absurd hbefore (hfrank hd)
  -- The name and the equals sign are taken, then the value.
  have hbegun : Begun src start.next start := ⟨hwithin, hhonest, rfl⟩
  obtain ⟨hfirst, hbegun'⟩ := hbegun.onto he (by intro hk; rw [hk] at hnamed; cases hnamed)
  obtain ⟨hsecond, -⟩ := hbegun'.onto he (by rw [hequal]; exact TokenKind.noConfusion)
  have hat := (hbegun.at.onto he (TokenKind.isStructural_of_isName hnamed)).onto he hstructural
  have hdue := hat.due he (.inr (by rw [State.current_advance_eq, hequal]; rfl))
  obtain ⟨hat, hspans⟩ := hdue.exists_value he rules room hafter (hto.unbounded_eq_false hbounded)
  obtain ⟨ys, hys, hwrites⟩ := hspans.source
  obtain ⟨front, hfront, hplain⟩ := hat.exists_front he hwithin.advance hafter hspans.more
  have hheader : front = [start.advance.current, start.advance.advance.current] ++ ys := by
    have htokens : start.advance.advance.next = ys ++ _ := hys
    rw [hfirst, hsecond, htokens] at hfront
    exact (List.append_cancel_right hfront).symm
  have hbuilt := built_expression rules room (Nat.le_refl lowest) start.advance.advance.advance
  rw [htoken, hval]
  refine ⟨ys, hkind, ?_, hwrites.yields, hspans.sound, hbuilt.mono hroom, ?_⟩
  · have hkind' : start.current.kind ≠ .endOfText := by
      intro hk
      rw [hk] at hkind
      cases hkind
    have htokens := hwithin.tokens_eq he hkind'
    obtain ⟨skipped, hskipped⟩ := hwithin
    rw [htokens, hfront, hheader] at hskipped
    exact ⟨skipped, _, _, hskipped.symm, hheader ▸ hplain⟩
  · intro y hy
    obtain ⟨ys', rfl⟩ : ∃ ys', ys = y :: ys' := ⟨_, List.eq_cons_of_mem_head? hy⟩
    obtain rfl : start.advance.advance.advance.current = y := List.head_eq_of_cons_eq hys
    rw [State.current_advance_eq]
    exact hgoes

end Sources

/-! ## From the tokens to the statement -/

section Reading

variable {ref : Option Reference} {rules : Rules} {e : Expr} {us : List Token} {u stop : Token}
  {room : Nat}

theorem endsStatement_of_startsOperand (hkind : startsOperand u.kind = true)
    (hliteral : Text.startsWith u.literal "." = false) : endsStatement u = false := by
  unfold endsStatement startsStatement
  rw [hliteral]
  cases hk : u.kind with
  | endOfText | label | programCounter | mnemonic | rightBrace =>
    rw [hk] at hkind
    cases hkind
  | _ => rfl

theorem Printable.goesOn (he : Printable ref room e)
    (hhead : ∃ p ps, e.pieces = p :: ps ∧ Text.startsWith p.2 "." = false)
    (hus : us.map Token.piece = e.pieces) : ∀ u ∈ us.head?, endsStatement u = false := by
  intro u hu
  obtain ⟨p, ps, hps, hdot⟩ := hhead
  obtain ⟨u', us, rfl, hkind⟩ := he.exists_tokens hus
  obtain rfl : u' = u := Option.some.inj hu
  rw [hps] at hus
  obtain rfl : u'.piece = p := List.head_eq_of_cons_eq hus
  exact endsStatement_of_startsOperand hkind hdot

theorem isComment_of_isName {kind : TokenKind} (h : kind.isName = true) :
    kind.isComment = false := by
  cases kind with
  | lineComment | blockComment => cases h
  | _ => rfl

theorem Printable.isComment_eq_false (he : Printable ref room e)
    (hus : us.map Token.piece = e.pieces) : ∀ u ∈ us, u.kind.isComment = false := by
  intro u hu
  have hwritten : u.kind.isWritten = true :=
    he.isWritten u.piece (hus ▸ List.mem_map_of_mem hu)
  rw [TokenKind.isWritten, Bool.and_eq_true, Bool.not_eq_true'] at hwritten
  exact hwritten.1

/-- The definition of a constant, read by the grammar, given how its value is read. -/
theorem statement_constant {block : Token → Parser Braces} (s : State) {name equal last : Token}
    {v : Expr} (ht : t.kind.isDirective = true) (hword : t.literal = ".const")
    (hname : name.kind.isName = true) (hequal : equal.kind = .equal)
    (hgoes : endsStatement u = false)
    (hrun : (expression rules room lowest).run (s.moved u (us ++ [stop])) =
      (v, s.moved last [stop])) :
    (statement rules (expression rules room lowest) block).run
        (s.moved t (name :: equal :: (u :: us ++ [stop]))) =
      (some (.directive ⟨t, some name, [], v⟩), s.moved last [stop]) := by
  have hform : DirectiveForm.ofWord (directiveWord t) = .named := by
    rw [directiveWord, hword]
    decide +kernel
  have hnamed : (namedDirective (expression rules room lowest) t).run
      (s.moved t (name :: equal :: (u :: us ++ [stop]))) =
        (.directive ⟨t, some name, [], v⟩, s.moved last [stop]) := by
    rw [namedDirective_run]
    show (if name.kind.isName = true then if equal.kind = .equal then
      if endsStatement u = true then _ else
        (Statement.directive ⟨t, some name, [],
          ((expression rules room lowest).run (s.moved u (us ++ [stop]))).1⟩,
          ((expression rules room lowest).run (s.moved u (us ++ [stop]))).2) else _ else _) = _
    rw [if_pos hname, if_pos hequal, if_neg (Bool.eq_false_iff.1 hgoes), hrun]
  rw [statement_directive ht]
  show (some ((directive _ block t).run _).1, ((directive _ block t).run _).2) = _
  rw [directive_named hform, hnamed]

/-- The tokens of the definition of a constant, read by the grammar. -/
theorem parseTokens_constant {limit : Int} {name equal last : Token} {v : Expr}
    (ht : t.kind.isDirective = true) (hword : t.literal = ".const")
    (hname : name.kind.isName = true) (hequal : equal.kind = .equal)
    (hgoes : endsStatement u = false) (hstop : stop.kind = .endOfText)
    (hcomments : ∀ w ∈ t :: name :: equal :: (u :: us ++ [stop]), w.kind.isComment = false)
    (hrun : (expression ⟨depthBound limit, ref⟩ (depthBound limit) lowest).run
      (State.start u (us ++ [stop])) = (v, State.start last [stop])) :
    parseTokens ref limit none (t :: name :: equal :: (u :: us ++ [stop])) =
      .ok ⟨t :: name :: equal :: (u :: us ++ [stop]), ⟨t, [.directive ⟨t, some name, [], v⟩]⟩,
        []⟩ := by
  let start := State.start t (name :: equal :: (u :: us ++ [stop]))
  let item := statementAt ⟨depthBound limit, ref⟩ (depthBound limit)
  have hturn : (statementTurn item).run start =
      (([.directive ⟨t, some name, [], v⟩], false), State.start last [stop]) := by
    have hread : item.run start =
        (some (.directive ⟨t, some name, [], v⟩), State.start last [stop]) :=
      statement_constant start ht hword hname hequal hgoes hrun
    show (((item.run start).1.toList, false), (item.run start).2) = _
    rw [hread]
    rfl
  have hgo : (t.kind == .endOfText) = false := by
    cases hk : t.kind with
    | endOfText =>
      rw [hk] at ht
      cases ht
    | _ => rfl
  have hparse : parseRun ⟨depthBound limit, ref⟩ none t (name :: equal :: (u :: us ++ [stop])) =
      ([.directive ⟨t, some name, [], v⟩], State.start stop []) := by
    show (untilKind (· == .endOfText) (statementTurn item)).run start = _
    rw [untilKind_turn hgo, hturn, if_neg (by simp [State.start])]
    show (_ ++ ((untilKind _ _).run (State.start stop [])).1,
      ((untilKind _ _).run (State.start stop [])).2) = _
    rw [untilKind_stop (by rw [State.start, hstop]; rfl)]
    rfl
  have hstream : (t :: name :: equal :: (u :: us ++ [stop])).filter (fun w => !w.kind.isComment) =
      t :: name :: equal :: (u :: us ++ [stop]) :=
    List.filter_eq_self.2 fun w hw => by rw [hcomments w hw]; rfl
  unfold parseTokens
  rw [hstream]
  dsimp only
  rw [hparse]
  rfl

/-- The tokens of a rendering are read as an expression of the same shape. -/
theorem Printable.expression_run (he : Printable ref rules.limit e)
    (hus : us.map Token.piece = e.pieces) (hstop : stop.kind = .endOfText) :
    ∃ u rest v last, us = u :: rest ∧ v.shape = e.shape ∧
      (expression rules rules.limit lowest).run (State.start u (rest ++ [stop])) =
        (v, State.start last [stop]) := by
  obtain ⟨u, rest, rfl, -⟩ := he.exists_tokens hus
  have hlevel : level stop.kind = lowest := by
    rw [hstop]
    rfl
  have hreads : ReadsBack rules rules.limit e := readsBack_printable he
  obtain ⟨v, last, hshape, hrun⟩ := hreads.run (State.start stop []) [] hus
    (hlevel ▸ lowest_le_grip e) he.lowest_lt (by decide) (Nat.le_of_eq hlevel)
  exact ⟨u, rest, v, last, rfl, hshape, hrun⟩

end Reading

end Grammar

/-! ## Texts -/

section Texts

variable {ref : Option Reference} {lexLimit limit : Int}

/-- A value that was read without a message can be written again, where renderings keep its nodes.
Its rendering starts no statement. -/
theorem parse_printable {text : String} {parsed : Parsed} {d : Directive}
    (h : parse ref lexLimit limit text = .ok parsed) (hquiet : parsed.diagnostics = [])
    (hd : .directive d ∈ Statement.preorders parsed.program.statements)
    (hform : d.form = .named) (hvalue : d.value ≠ .missing)
    (hrewritable : d.value.Everywhere Expr.Rewritable) :
    Printable ref (depthBound limit) d.value ∧
      ∃ p ps, d.value.pieces = p :: ps ∧ Text.startsWith p.2 "." = false := by
  obtain ⟨overflow, last, hlast, hbounded, horigins⟩ := parse_origin h
  have hstream : parsed.stream = (tokenize ref lexLimit text).1.filter fun t => !t.kind.isComment :=
    congrArg (List.filter _) (parse_tokens h)
  have hstar : ∀ t ∈ parsed.stream, t.kind.isCounter = true →
      ∃ w, t.literal = String.ofList ('*' :: w) := by
    intro t ht
    rw [hstream] at ht
    exact Lexer.run_starred _ t (List.mem_of_mem_filter ht)
  obtain ⟨ys, hread⟩ := (horigins _ hd).readValue (parse_endsOnce h) hstar hform hvalue
    (hlast.trans hquiet) hbounded
  -- What was read behind the directive are tokens of values.
  have hvalues : ∀ y ∈ ys, OfValue ref y := by
    obtain ⟨front, header, behind, hsource, hkinds⟩ := hread.source
    have htokens : parsed.stream = front ++ d.token :: ((header ++ ys) ++ behind) := hsource
    have hcomments : ∀ y ∈ parsed.stream, y.kind.isComment = false := by
      intro y hy
      simpa using (List.mem_filter.1 hy).2
    have hall := tokenize_values (hstream.symm.trans htokens) hread.directive fun y hy => by
      refine ⟨(hkinds y hy).1, (hkinds y hy).2, hcomments y ?_⟩
      rw [htokens]
      exact List.mem_append_right _ (List.mem_cons_of_mem _ (List.mem_append_left _ hy))
    exact fun y hy => hall y (List.mem_append_right _ hy)
  refine ⟨printable_of_built hread.built hread.yields ⟨hread.sound, hrewritable⟩ hvalues, ?_⟩
  obtain ⟨y, ys', p, ps, rfl, hps, hp⟩ := hread.yields.head
  have hgoes : startsStatement y = false := (Bool.or_eq_false_iff.1 (hread.goesOn y rfl)).1
  refine ⟨p, ps, hps, Bool.eq_false_iff.2 fun hdot => ?_⟩
  rw [startsStatement, hp hdot, Bool.or_true] at hgoes
  cases hgoes

/-- The line that defines a constant as an expression. -/
def constantLine (name : String) (e : Expr) : String :=
  ".const " ++ name ++ " = " ++ e.render ++ "\n"

/-- The text is read without a message, as the definition of one constant whose value has the
shape. -/
def DefinesConstant (ref : Option Reference) (lexLimit limit : Int) (text name : String)
    (shape : Expr.Shape) : Prop :=
  ∃ parsed t n v, parse ref lexLimit limit text = .ok parsed ∧ parsed.diagnostics = [] ∧
    parsed.program.statements = [.directive ⟨t, some n, [], v⟩] ∧
    t.literal = ".const" ∧ n.literal = name ∧ v.shape = shape

/-- The definition of a constant as a printable expression is read without a message, and the
constant is the expression. -/
theorem parse_render {e : Expr} {name : String} (he : Printable ref (depthBound limit) e)
    (hhead : ∃ p ps, e.pieces = p :: ps ∧ Text.startsWith p.2 "." = false)
    (hname : isPlainName name = true) (hroom : 2 + e.lexDepth ≤ depthBound lexLimit) :
    DefinesConstant ref lexLimit limit (constantLine name e) name e.shape ∧
      (tokenize ref lexLimit (constantLine name e)).2.nesting.overflow = none := by
  obtain ⟨kind, ts, stop, last, hkind, hstop, htokens, hpieces, hoverflow⟩ :=
    tokenize_render he hname hroom
  replace htokens : tokenize ref lexLimit (constantLine name e) = (ts ++ [stop], last) := htokens
  rw [List.cons_append, List.cons_append, List.cons_append, List.nil_append] at hpieces
  obtain ⟨t, ts, rfl, ht, hpieces⟩ := List.map_eq_cons_iff.1 hpieces
  obtain ⟨n, ts, rfl, hn, hpieces⟩ := List.map_eq_cons_iff.1 hpieces
  obtain ⟨equal, us, rfl, hequal, hus⟩ := List.map_eq_cons_iff.1 hpieces
  have hkinds : t.kind.isDirective = true ∧ n.kind.isName = true ∧ equal.kind = .equal :=
    ⟨by rw [Token.kind_of_piece ht]; rfl, by rw [Token.kind_of_piece hn, hkind],
      Token.kind_of_piece hequal⟩
  have hrules : Printable ref (Rules.limit ⟨depthBound limit, ref⟩) e := he
  obtain ⟨u, rest, v, x, rfl, hshape, hvalue⟩ := hrules.expression_run hus hstop
  have hcomments : ∀ w ∈ t :: n :: equal :: (u :: rest ++ [stop]), w.kind.isComment = false := by
    refine List.forall_mem_cons.2 ⟨?_, List.forall_mem_cons.2 ⟨isComment_of_isName hkinds.2.1,
      List.forall_mem_cons.2 ⟨by rw [hkinds.2.2]; rfl, List.forall_mem_append.2
        ⟨he.isComment_eq_false hus, List.forall_mem_singleton.2 (by rw [hstop]; rfl)⟩⟩⟩⟩
    rw [Token.kind_of_piece ht]
    rfl
  have hparse : parse ref lexLimit limit (constantLine name e) =
      .ok ⟨t :: n :: equal :: (u :: rest ++ [stop]), ⟨t, [.directive ⟨t, some n, [], v⟩]⟩, []⟩ := by
    rw [parse, htokens]
    dsimp only
    rw [hoverflow]
    exact parseTokens_constant hkinds.1 (Token.literal_of_piece ht) hkinds.2.1 hkinds.2.2
      (he.goesOn hhead hus u rfl) hstop hcomments hvalue
  rw [htokens]
  exact ⟨⟨_, t, n, v, hparse, rfl, rfl, Token.literal_of_piece ht, Token.literal_of_piece hn,
    hshape⟩, hoverflow⟩

/-- **A value that was read without a message is read again from its rendering**, as an expression
of the same shape and without a message, exactly if the lexer finds room for the rendering. It does
if there is room for the directive, the parentheses within each other and a string in them. -/
theorem parse_value_again {text name : String} {parsed : Parsed} {d : Directive}
    (h : parse ref lexLimit limit text = .ok parsed) (hquiet : parsed.diagnostics = [])
    (hd : .directive d ∈ Statement.preorders parsed.program.statements)
    (hform : d.form = .named) (hvalue : d.value ≠ .missing)
    (hrewritable : d.value.Everywhere Expr.Rewritable) (hname : isPlainName name = true) :
    (DefinesConstant ref lexLimit limit (constantLine name d.value) name d.value.shape ↔
        (tokenize ref lexLimit (constantLine name d.value)).2.nesting.overflow = none) ∧
      (2 + d.value.lexDepth ≤ depthBound lexLimit →
        DefinesConstant ref lexLimit limit (constantLine name d.value) name d.value.shape) := by
  obtain ⟨hprintable, hhead⟩ := parse_printable h hquiet hd hform hvalue hrewritable
  refine ⟨⟨?_, fun hoverflow => ?_⟩, fun hroom => (parse_render hprintable hhead hname hroom).1⟩
  · rintro ⟨again, -, -, -, hagain, hquiet', -⟩
    exact overflow_of_quiet hagain hquiet'
  · -- Under a bound with enough room the lexer goes the same way.
    let deeper : Int := max lexLimit (2 + d.value.lexDepth : Nat)
    have hroom : 2 + d.value.lexDepth ≤ depthBound deeper := by
      unfold depthBound
      omega
    obtain ⟨again, t, n, v, hagain, hrest⟩ := (parse_render hprintable hhead hname hroom).1
    rw [parse_of_lexLimit_le (le_max_left _ _) hoverflow] at hagain
    exact ⟨again, t, n, v, hagain, hrest⟩

end Texts

/-! ## Two texts -/

section Samples

/-- A value with operators before and between operands, parentheses, and a call. -/
def mixedValueText : String :=
  ".const x = <(y+1)*f(\"s\",*)"

def mixedValueTokens : List Token :=
  [directiveToken ".const" 1 1 1, tokenIn .directive ".const" 1 .identifier "x" 1 8,
    tokenIn .directive ".const" 1 .equal "=" 1 10, tokenIn .directive ".const" 1 .less "<" 1 12,
    tokenIn .expression "" 2 .leftParen "(" 1 13, tokenIn .expression "" 2 .identifier "y" 1 14,
    tokenIn .expression "" 2 .plus "+" 1 15, tokenIn .expression "" 2 (.number .decimal) "1" 1 16,
    tokenIn .directive ".const" 1 .rightParen ")" 1 17,
    tokenIn .directive ".const" 1 .asterisk "*" 1 18,
    tokenIn .directive ".const" 1 .identifier "f" 1 19,
    tokenIn .expression "" 2 .leftParen "(" 1 20,
    tokenIn .expression "" 2 .string "\"s\"" 1 21, tokenIn .expression "" 2 .comma "," 1 24,
    tokenIn .expression "" 2 .asterisk "*" 1 25, tokenIn .directive ".const" 1 .rightParen ")" 1 26,
    tokenIn .directive ".const" 1 .endOfText "" 1 27]

def mixedValue : Expr :=
  .binary (tokenIn .directive ".const" 1 .asterisk "*" 1 18)
    (.unary (tokenIn .directive ".const" 1 .less "<" 1 12)
      (.group (tokenIn .expression "" 2 .leftParen "(" 1 13)
        (.binary (tokenIn .expression "" 2 .plus "+" 1 15)
          (.ofName (tokenIn .expression "" 2 .identifier "y" 1 14))
          (.integer (tokenIn .expression "" 2 (.number .decimal) "1" 1 16) 1))))
    (.call (tokenIn .expression "" 2 .leftParen "(" 1 20)
      (.ofName (tokenIn .directive ".const" 1 .identifier "f" 1 19))
      [.string (tokenIn .expression "" 2 .string "\"s\"" 1 21) "s",
        .programCounter (tokenIn .expression "" 2 .asterisk "*" 1 25)])

theorem parse_mixedValueText :
    parse none 4 4 mixedValueText = .ok ⟨mixedValueTokens, ⟨directiveToken ".const" 1 1 1,
      [.directive ⟨directiveToken ".const" 1 1 1,
        some (tokenIn .directive ".const" 1 .identifier "x" 1 8), [], mixedValue⟩]⟩, []⟩ := by
  have hparse : parse none 4 4 mixedValueText = parseTokens none 4 none mixedValueTokens :=
    parse_of_session mixedValueTokens.length (by cbv) (by decide)
  have hvalue : (expression ⟨depthBound 4, none⟩ (depthBound 4) lowest).run
      (State.start (tokenIn .directive ".const" 1 .less "<" 1 12)
        ((mixedValueTokens.drop 4).take 12 ++ [tokenIn .directive ".const" 1 .endOfText "" 1 27])) =
      (mixedValue, State.start (tokenIn .directive ".const" 1 .rightParen ")" 1 26)
        [tokenIn .directive ".const" 1 .endOfText "" 1 27]) := by
    have hroom : depthBound 4 = 4 := rfl
    have hone : numberValue .decimal "1" = .value 1 := by decide +kernel
    have hs : stringValue "\"s\"" = "s" := by decide +kernel
    simp [mixedValueTokens, mixedValue, tokenIn, State.start, State.advance, State.peek, hroom,
      expression, Grammar.operand, operatorTail, operators_next, whileNext_next, arguments, grouped,
      Grammar.nextIs, advance, current, integerLiteral, stringLiteral, hone, hs, level, lowest,
      prefixLevel, isPrefixOperator, Expr.isMissing, Expr.ofName, Expr.toList]
  rw [hparse]
  refine parseTokens_constant rfl rfl rfl rfl ?_ rfl ?_ hvalue
  · decide
  · decide

/-- There is just room for the string within the parentheses, and so the value of `mixedValueText`
is read again from its rendering. -/
theorem parse_value_again_mixed :
    mixedValue.Everywhere Expr.Rewritable ∧ 2 + mixedValue.lexDepth = depthBound 4 ∧
      constantLine "N" mixedValue = ".const N = <(y + 1) * f(\"s\", *)\n" ∧
      DefinesConstant none 4 4 (constantLine "N" mixedValue) "N" mixedValue.shape := by
  have hrewritable : mixedValue.Everywhere Expr.Rewritable := by
    have hleaf : ∀ {e : Expr}, e.parts = [] → e.Rewritable → e.Everywhere Expr.Rewritable :=
      fun hparts he => .intro he (hparts ▸ fun x hx => absurd hx List.not_mem_nil)
    have hsum : Expr.Everywhere Expr.Rewritable (.binary (tokenIn .expression "" 2 .plus "+" 1 15)
        (.ofName (tokenIn .expression "" 2 .identifier "y" 1 14))
        (.integer (tokenIn .expression "" 2 (.number .decimal) "1" 1 16) 1)) := by
      refine .intro (show "+" ≠ "." by decide)
        (List.forall_mem_cons.2 ⟨?_, List.forall_mem_singleton.2 ?_⟩)
      · exact hleaf rfl trivial
      · exact hleaf rfl trivial
    refine .intro (show "*" ≠ "." by decide)
      (List.forall_mem_cons.2 ⟨?_, List.forall_mem_singleton.2 ?_⟩)
    · refine .intro ⟨show "<" ≠ "#" by decide, fun _ inner x h => by cases h⟩
        (List.forall_mem_singleton.2 ?_)
      exact .intro trivial (List.forall_mem_singleton.2 hsum)
    · refine .intro trivial (List.forall_mem_cons.2 ⟨hleaf rfl trivial,
        List.forall_mem_cons.2 ⟨hleaf rfl ?_, List.forall_mem_singleton.2 (hleaf rfl trivial)⟩⟩)
      show closesString ("\"s\"".toList.drop 1) = true
      decide
  have hname : isPlainName "N" = true := by decide +kernel
  have hagain := (parse_value_again parse_mixedValueText rfl (List.mem_singleton_self _)
    (by decide +kernel) Expr.noConfusion hrewritable hname).2
  exact ⟨hrewritable, by decide +kernel, by decide +kernel, hagain (by decide +kernel)⟩

def valueBelowText : String :=
  ".const x =\n(1)"

def valueBelowTokens : List Token :=
  [directiveToken ".const" 1 1 1, tokenIn .directive ".const" 1 .identifier "x" 1 8,
    tokenIn .directive ".const" 1 .equal "=" 1 10, plainToken .leftParen "(" 2 1,
    plainToken (.number .decimal) "1" 2 2, plainToken .rightParen ")" 2 3,
    plainToken .endOfText "" 2 4]

def valueBelow : Expr :=
  .group (plainToken .leftParen "(" 2 1) (.integer (plainToken (.number .decimal) "1" 2 2) 1)

theorem parse_valueBelowText :
    parse none 2 2 valueBelowText = .ok ⟨valueBelowTokens, ⟨directiveToken ".const" 1 1 1,
      [.directive ⟨directiveToken ".const" 1 1 1,
        some (tokenIn .directive ".const" 1 .identifier "x" 1 8), [], valueBelow⟩]⟩, []⟩ := by
  have hparse : parse none 2 2 valueBelowText = parseTokens none 2 none valueBelowTokens :=
    parse_of_session valueBelowTokens.length (by cbv) (by decide)
  have hvalue : (expression ⟨depthBound 2, none⟩ (depthBound 2) lowest).run
      (State.start (plainToken .leftParen "(" 2 1)
        ([plainToken (.number .decimal) "1" 2 2, plainToken .rightParen ")" 2 3] ++
          [plainToken .endOfText "" 2 4])) =
      (valueBelow, State.start (plainToken .rightParen ")" 2 3)
        [plainToken .endOfText "" 2 4]) := by
    have hroom : depthBound 2 = 2 := rfl
    have hone : numberValue .decimal "1" = .value 1 := by decide +kernel
    simp [valueBelow, plainToken, State.start, State.advance, State.peek, hroom, expression,
      Grammar.operand, operators_next, grouped, Grammar.nextIs, advance, current, integerLiteral,
      hone, level, lowest, Expr.isMissing]
  rw [hparse]
  refine parseTokens_constant rfl rfl rfl rfl ?_ rfl ?_ hvalue
  · decide
  · decide

/-- The parentheses in `valueBelowText` stand behind the directive's line and open no context. Those
of the rendering stand in the line and find no room. -/
theorem parse_value_without_room :
    ∃ parsed d, parse none 2 2 valueBelowText = .ok parsed ∧ parsed.diagnostics = [] ∧
      .directive d ∈ Statement.preorders parsed.program.statements ∧ d.form = .named ∧
      d.value ≠ .missing ∧ d.value.Everywhere Expr.Rewritable ∧
      ¬ DefinesConstant none 2 2 (constantLine "N" d.value) "N" d.value.shape := by
  refine ⟨_, _, parse_valueBelowText, rfl, List.mem_singleton_self _, by decide +kernel,
    Expr.noConfusion, ?_, ?_⟩
  · refine .intro trivial (List.forall_mem_singleton.2 (.intro trivial fun x hx => ?_))
    exact absurd hx List.not_mem_nil
  · rintro ⟨again, -, -, -, hagain, hquiet, -⟩
    have hoverflow := overflow_of_quiet hagain hquiet
    have hline : constantLine "N" valueBelow = ".const N = (1)\n" := by decide +kernel
    have hrefused : (tokenize none 2 ".const N = (1)\n").2.nesting.overflow = some ⟨1, 12⟩ :=
      (tokenize_of_session 7 (by cbv) (by decide)).2
    rw [hline, hrefused] at hoverflow
    cases hoverflow

end Samples

end Asm6510
