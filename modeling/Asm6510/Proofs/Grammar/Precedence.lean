import Asm6510.Proofs.Grammar.Brackets
import Asm6510.Proofs.Grammar.Quiet

/-!
# The trees of expressions

An expression that is read without a message is the tree that the levels of the operators ask for,
of exactly the tokens it was read from.

* `Expr.Everywhere`: a property of an expression and of all that is below it.
* `Expr.Ranked`: the operators right below a node bind as strong as it asks for.
* `Reading`: what holds of an expression while the operators behind it are read.

Main statement: `expression_exact`.
-/

namespace Asm6510.Expr

open Grammar

/-! ## Trees -/

/-- The expressions right below an expression. -/
def parts : Expr → List Expr
  | unary _ e => [e]
  | binary _ l r => [l, r]
  | indexed _ e _ => [e]
  | group _ e => [e]
  | call _ f args => f :: args
  | array _ es => es
  | _ => []

/-- A property of an expression and of all that is below it. -/
inductive Everywhere (P : Expr → Prop) : Expr → Prop
  | intro {e : Expr} (here : P e) (below : ∀ x ∈ e.parts, Everywhere P x) : Everywhere P e

/-- The token between the two parts of an expression, the comma before an index register
included. -/
def operator? : Expr → Option Token
  | binary op _ _ => some op
  | indexed comma _ _ => some comma
  | _ => none

/-- The level of an operator between two operands; a comma before an index register has none. -/
def level? : Expr → Option Nat
  | binary op _ _ => some (level op.kind)
  | _ => none

/-- The operators right below a node bind as strong as it asks for: those on the left of an operator
at least as strong, those on the right stronger. Below an operator before its operand there is none
but a dot, and what is called is neither an operator's result nor indexed. -/
def Ranked : Expr → Prop
  | binary op l r => (∀ n ∈ l.level?, level op.kind ≤ n) ∧ ∀ n ∈ r.level?, level op.kind < n
  | unary _ e => ∀ op ∈ e.operator?, op.kind = .dot
  | call _ f _ => f.operator? = none ∧ ∀ op e, f ≠ unary op e
  | _ => True

end Asm6510.Expr

namespace Asm6510.Grammar

variable {s : State} {tokens front : List Token} {e left : Expr} {least : Nat}
  {sub : Nat → Parser Expr} {opening : Token} {kind : TokenKind}

/-! ## What was read -/

/-- Nothing below is missing, and the operators are ranked. -/
def Sound (e : Expr) : Prop :=
  e.Everywhere fun x => x ≠ .missing ∧ x.Ranked

/-- The expression was read from the first of the tokens, up to those ahead of the state. -/
structure Spans (least : Nat) (tokens : List Token) (e : Expr) (s : State) : Prop where
  source : ∃ ys, tokens = ys ++ s.ahead ∧ Writes least e ys s.ahead
  more : s.ahead ≠ []
  sound : Sound e

/-- The next token ends an expression whose operators bind stronger than `least`. -/
def Stops (least : Nat) (s : State) : Prop :=
  s.peek.kind = .endOfText ∨ level s.peek.kind ≤ least

/-- How strong an operator behind an expression may bind. One that binds stronger than that has
been taken by the last operand of the expression. -/
def grip : Expr → Nat
  | .binary op _ _ => level op.kind
  | .unary _ _ => prefixLevel
  | _ => level .leftParen

/-- An expression while the operators behind it that bind stronger than `least` are read. -/
structure Reading (least : Nat) (tokens : List Token) (e : Expr) (s : State) : Prop
    extends Spans least tokens e s where
  above : ∀ n ∈ e.level?, least < n ∧ n < level .leftParen
  plain : ∀ comma base register, e ≠ .indexed comma base register
  held : Stops (grip e) s

def ReadsExpr (src : Source) (sub : Parser Expr) : Prop :=
  ∀ tokens, Reads src (fun s => s.tokens = tokens) sub
    (fun e s => Spans lowest tokens e s ∧ Stops lowest s)

/-- A parser of expressions whose operators bind stronger than a level: it reads them to the end. -/
def Exact (src : Source) (sub : Nat → Parser Expr) : Prop :=
  ∀ least tokens, Reads src (fun s => s.tokens = tokens) (sub least)
    (fun e s => Reading least tokens e s ∧ Stops least s)

theorem Exact.readsExpr {src : Source} (h : Exact src sub) : ReadsExpr src (sub lowest) :=
  fun tokens => (h lowest tokens).post fun _ _ _ hr => ⟨hr.1.toSpans, hr.2⟩

/-! ## Arguments -/

/-- Expressions with commas between them were read. -/
structure SpansList (tokens : List Token) (es : List Expr) (s : State) : Prop where
  source : ∃ ys, tokens = ys ++ s.ahead ∧ WritesList es ys s.ahead
  some : es ≠ []
  more : s.ahead ≠ []
  stops : Stops lowest s
  sound : ∀ e ∈ es, Sound e

/-- The arguments of a call were read, with what is behind them. -/
structure SpansArguments (tokens : List Token) (args : List Expr) (s : State) : Prop where
  source : ∃ ys closing, tokens = ys ++ (closing ++ s.ahead) ∧
    WritesArguments args ys closing s.ahead
  more : s.ahead ≠ []
  sound : ∀ e ∈ args, Sound e

theorem Sound.isMissing_eq_false (h : Sound e) : e.isMissing = false := by
  obtain ⟨here, -⟩ := h
  cases e with
  | missing => exact absurd rfl here.1
  | _ => rfl

theorem Sound.of_part {x : Expr} (h : Sound x) (hparts : e.parts = [x]) (hne : e ≠ .missing)
    (hranked : e.Ranked) : Sound e := by
  refine .intro ⟨hne, hranked⟩ fun y hy => ?_
  rw [hparts] at hy
  cases List.mem_singleton.1 hy
  exact h

variable {src : Source} {P : State → Prop}

theorem SpansList.closed {es : List Expr} (h : SpansList tokens es s) (hs : s.Within src)
    (he : Ends src.tokens) (hk : s.peek.kind = .rightParen) :
    SpansArguments tokens es s.advance := by
  obtain ⟨ys, htokens, hys⟩ := h.source
  obtain ⟨hkind, hahead, hmore⟩ := hs.onto he h.more hk TokenKind.noConfusion
  rw [hahead] at htokens hys
  exact ⟨⟨ys, [s.advance.current], htokens, hys, .closed hkind, fun h => nomatch h⟩, hmore, h.sound⟩

theorem Stops.level_eq (h : Stops lowest s) : level s.peek.kind = lowest := by
  rcases h with hend | hle
  · rw [hend]
    rfl
  · exact Nat.le_antisymm hle (lowest_le_level _)

theorem SpansList.unclosed {es : List Expr} (h : SpansList tokens es s)
    (hcomma : s.ahead = [] ∨ s.peek.kind ≠ .comma) (hparen : s.peek.kind ≠ .rightParen) :
    SpansArguments tokens es s := by
  obtain ⟨ys, htokens, hys⟩ := h.source
  refine ⟨⟨ys, [], htokens, hys, .unclosed h.some, fun _ t ht => ?_⟩, h.more, h.sound⟩
  obtain ⟨rest, ha⟩ := List.head?_eq_some_iff.1 ht
  have hlevel := h.stops.level_eq
  rw [State.peek_of_cons ha] at hcomma hparen hlevel
  exact ⟨hlevel, hcomma.resolve_left h.more, hparen⟩

theorem reads_argument (he : Ends src.tokens) {sub : Parser Expr} (hsub : ReadsExpr src sub)
    (tokens : List Token) (acc : List Expr) :
    Reads src
      (fun s' => ∃ s, s.Within src ∧ SpansList tokens acc s ∧ s.ahead ≠ [] ∧
        s.peek.kind = .comma ∧ s' = s.advance)
      (do
        let t ← advance
        if t.kind = .rightParen then return none
        else
          let e ← sub
          return some e.toList)
      (Turn (SpansList tokens) (SpansArguments tokens) acc) := by
  refine Reads.advance (M := fun t s => ∃ ys comma, tokens = ys ++ comma :: s.tokens ∧
    WritesList acc ys (comma :: s.tokens) ∧ comma.kind = .comma ∧ acc ≠ [] ∧
    (∀ e ∈ acc, Sound e) ∧ s.current = t) ?_ fun t => ?_
  · rintro s' hs' ⟨s, hs, h, hne, hk, rfl⟩
    obtain ⟨ys, htokens, hys⟩ := h.source
    obtain ⟨hcomma, hahead, hmore⟩ := hs.onto he hne hk TokenKind.noConfusion
    rw [hahead, ← State.tokens_advance hmore] at htokens hys
    exact ⟨ys, s.advance.current, htokens, hys, hcomma, h.some, h.sound, rfl⟩
  · split
    · rename_i ht
      refine Reads.pure fun s hs => ?_
      rintro ⟨ys, comma, htokens, hys, hcomma, hsome, hsound, rfl⟩
      refine ⟨⟨ys, [comma, s.current], htokens, hys, .trailing hsome hcomma ht,
        fun h => nomatch h⟩, ?_, hsound⟩
      exact hs.ahead_ne_nil he (ht ▸ TokenKind.noConfusion)
    · refine Reads.bind (Reads.call hsub State.tokens fun _ _ _ => rfl) fun e => ?_
      refine Reads.pure fun s hs => ?_
      rintro ⟨s₀, -, ⟨ys, comma, htokens, hys, hcomma, hsome, hsound, -⟩, h, hstops⟩
      obtain ⟨zs, htokens₀, hzs⟩ := h.source
      rw [htokens₀] at htokens hys
      rw [hzs.toList_eq]
      refine ⟨⟨ys ++ comma :: zs, ?_, hys.more hsome hcomma hzs⟩, by simp, h.more, hstops, ?_⟩
      · rw [htokens, List.append_assoc, List.cons_append]
      · intro x hx
        rcases List.mem_append.1 hx with hx | hx
        · exact hsound x hx
        · cases List.mem_singleton.1 hx
          exact h.sound

theorem reads_arguments (he : Ends src.tokens) {sub : Parser Expr} (hsub : ReadsExpr src sub)
    (tokens : List Token) :
    Reads src (fun s => s.ahead = tokens ∧ s.ahead ≠ []) (arguments sub)
      (SpansArguments tokens) := by
  unfold arguments
  refine Reads.ifNext ?_ ?_
  · refine Reads.advance_pure ?_
    rintro s hs ⟨hk, rfl, hne⟩
    obtain ⟨hkind, hahead, hmore⟩ := hs.onto he hne hk TokenKind.noConfusion
    exact ⟨⟨[], [s.advance.current], hahead, ⟨.nil, .nil⟩, .closed hkind, fun h => nomatch h⟩,
      hmore, nofun⟩
  · refine Reads.advance (M := fun _ s => s.tokens = tokens) ?_ fun _ => ?_
    · rintro s hs ⟨rfl, hne⟩
      exact State.tokens_advance hne
    · refine Reads.bind (hsub tokens) fun first => ?_
      have hloop := (reads_whileNext (reads_argument he hsub tokens) first.toList).also
        (R := fun r s => r.2 = false → s.ahead = [] ∨ s.peek.kind ≠ .comma) (whileNext_stops _ _)
      refine Reads.bind (hloop.pre fun s _ h => ?_) fun ⟨rest, closed⟩ => ?_
      · obtain ⟨h, hstops⟩ := h
        obtain ⟨ys, htokens, hys⟩ := h.source
        rw [hys.toList_eq]
        refine ⟨⟨ys, htokens, hys.one⟩, List.cons_ne_nil first [], h.more, hstops, fun e hx => ?_⟩
        cases List.mem_singleton.1 hx
        exact h.sound
      · cases closed with
        | true => exact Reads.pure fun _ _ h => h.1
        | false =>
          refine Reads.byNext ?_ (Reads.pure fun _ _ h => ?_)
          · refine Reads.advance_pure ?_
            rintro s hs ⟨hk, h, -⟩
            exact SpansList.closed h hs he hk
          · exact SpansList.unclosed h.2.1 (h.2.2 rfl) h.1

/-! ## Operands -/

/-- An expression was read between other tokens. -/
structure Between (tokens front : List Token) (e : Expr) (back : List Token) (s : State) :
    Prop where
  source : ∃ ys, tokens = front ++ (ys ++ (back ++ s.ahead)) ∧ Writes lowest e ys (back ++ s.ahead)
  more : s.ahead ≠ []
  sound : Sound e

theorem Between.onto {back : List Token} (h : Between tokens front e back s) (hs : s.Within src)
    (he : Ends src.tokens) (hk : s.peek.kind = kind) (hkind : kind ≠ .endOfText) :
    s.advance.current.kind = kind ∧
      Between tokens front e (back ++ [s.advance.current]) s.advance := by
  obtain ⟨ys, htokens, hys⟩ := h.source
  obtain ⟨hcurrent, hahead, hmore⟩ := hs.onto he h.more hk hkind
  have hback : back ++ s.ahead = back ++ [s.advance.current] ++ s.advance.ahead := by
    rw [hahead, List.append_cons]
  rw [hback] at htokens hys
  exact ⟨hcurrent, ⟨ys, htokens, hys⟩, hmore, h.sound⟩

theorem reads_between {sub : Parser Expr} (hsub : ReadsExpr src sub) :
    Reads src (fun s => tokens = front ++ s.tokens) sub
      (fun e s => Between tokens front e [] s) := by
  refine (Reads.call hsub State.tokens fun _ _ _ => rfl).post fun e s _ => ?_
  rintro ⟨s₀, -, htokens, h, -⟩
  obtain ⟨ys, htokens₀, hys⟩ := h.source
  exact ⟨⟨ys, htokens₀ ▸ htokens, hys⟩, h.more, h.sound⟩

/-- Expressions that any operator may follow. -/
def isAtom : Expr → Bool
  | .unary _ _ => false
  | .binary _ _ _ => false
  | .indexed _ _ _ => false
  | _ => true

theorem level_le (kind : TokenKind) : level kind ≤ level .leftParen := by
  show level kind ≤ 10
  unfold level
  split <;> decide

theorem Reading.of_isAtom (h : Spans least tokens e s) (ha : isAtom e = true) :
    Reading least tokens e s := by
  refine ⟨h, ?_, ?_, .inr ?_⟩
  · intro n hn
    cases e with
    | binary => cases ha
    | _ => cases hn
  · rintro comma base register rfl
    cases ha
  · cases e with
    | unary | binary => cases ha
    | _ => exact level_le _

theorem Between.group {closing : Token} (h : Between tokens [opening] e [closing] s)
    (hmarks : Encloses opening.kind closing.kind) : Spans least tokens (.group opening e) s := by
  obtain ⟨ys, htokens, hys⟩ := h.source
  refine ⟨⟨opening :: (ys ++ [closing]), ?_, hys.group hmarks⟩, h.more,
    h.sound.of_part rfl Expr.noConfusion trivial⟩
  rw [htokens]
  simp

theorem Between.indexed {back : List Token} {comma register : Token}
    (h : Between tokens front e (comma :: register :: back) s) (hcomma : comma.kind = .comma)
    (hregister : isIndexRegister register = true) :
    Between tokens front (.indexed comma e register) back s := by
  obtain ⟨ys, htokens, hys⟩ := h.source
  refine ⟨⟨ys ++ [comma, register], ?_, hys.indexed hcomma hregister⟩, h.more,
    h.sound.of_part rfl Expr.noConfusion trivial⟩
  rw [htokens]
  simp

section Operands

variable {sub : Parser Expr} {tokens : List Token} {t : Token}

/-- From an opening mark to behind the expression in it. -/
theorem reads_inner (he : Ends src.tokens) (hk : opening.kind ≠ .endOfText) {f : Expr → Parser Expr}
    {Q : Expr → State → Prop} (hsub : ReadsExpr src sub)
    (hf : ∀ e, Reads src (Between tokens [opening] e []) (f e) Q) :
    Reads src (fun s => s.current = opening ∧ s.tokens = tokens) (advance >>= fun _ => sub >>= f)
      Q := by
  refine Reads.advance (M := fun _ s => tokens = [opening] ++ s.tokens) ?_ fun _ =>
    (reads_between hsub).bind hf
  rintro s hs ⟨rfl, rfl⟩
  rw [State.tokens_advance (hs.ahead_ne_nil he hk)]
  rfl

theorem reads_bracketed (he : Ends src.tokens) (hk : opening.kind = .leftBracket)
    (hsub : ReadsExpr src sub) (least : Nat) :
    Reads src (fun s => s.current = opening ∧ s.tokens = tokens) (bracketed sub opening)
      (Reading least tokens) := by
  refine reads_inner he (hk ▸ TokenKind.noConfusion) hsub fun inner => ?_
  refine Reads.ifNext ?_ (Reads.report (by decide))
  refine Reads.advance_pure ?_
  rintro s hs ⟨hclose, h⟩
  obtain ⟨hcurrent, h⟩ := h.onto hs he hclose TokenKind.noConfusion
  exact .of_isAtom (h.group (.inr ⟨hk, hcurrent⟩)) rfl

theorem reads_grouped (he : Ends src.tokens) (hk : opening.kind = .leftParen)
    (hsub : ReadsExpr src sub) (least : Nat) :
    Reads src (fun s => s.current = opening ∧ s.tokens = tokens) (grouped sub opening)
      (Reading least tokens) := by
  refine reads_inner he (hk ▸ TokenKind.noConfusion) hsub fun inner => ?_
  refine Reads.ifNext ?_ (Reads.ifNext ?_ (Reads.report (by decide)))
  · refine Reads.advance
      (M := fun comma s => comma.kind = .comma ∧ Between tokens [opening] inner [comma] s) ?_
      fun comma => Reads.peek fun next => ?_
    · rintro s hs ⟨hcomma, h⟩
      exact h.onto hs he hcomma TokenKind.noConfusion
    · split
      · rename_i hregister
        refine Reads.advance
          (M := fun register s => isIndexRegister register = true ∧ comma.kind = .comma ∧
            Between tokens [opening] inner [comma, register] s) ?_ fun register => ?_
        · rintro s hs ⟨rfl, hcomma, h⟩
          have honto := h.onto hs he (kind_of_isIndexRegister hregister) TokenKind.noConfusion
          rw [State.current_advance h.more] at honto ⊢
          exact ⟨hregister, hcomma, honto.2⟩
        · refine Reads.ifNext ?_ (Reads.report (by decide))
          refine Reads.advance_pure ?_
          rintro s hs ⟨hclose, hregister, hcomma, h⟩
          obtain ⟨hcurrent, h⟩ := h.onto hs he hclose TokenKind.noConfusion
          exact .of_isAtom ((h.indexed hcomma hregister).group (.inl ⟨hk, hcurrent⟩)) rfl
      · dsimp only
        split
        · exact (Reads.pure (Q := fun _ _ => True) fun _ _ _ => trivial).bind fun _ =>
            Reads.report (.around (by decide) _ _)
        · exact Reads.advance (M := fun _ _ => True) (fun _ _ _ => trivial) fun _ =>
            Reads.report (.around (by decide) _ _)
  · refine Reads.advance_pure ?_
    rintro s hs ⟨hclose, h⟩
    obtain ⟨hcurrent, h⟩ := h.onto hs he hclose TokenKind.noConfusion
    exact .of_isAtom (h.group (.inl ⟨hk, hcurrent⟩)) rfl

theorem sound_call {f : Expr} {args : List Expr} (hf : Sound f) (hargs : ∀ e ∈ args, Sound e)
    (hplain : f.operator? = none) (hunary : ∀ op e, f ≠ .unary op e) : Sound (.call t f args) := by
  refine .intro ⟨nofun, hplain, hunary⟩ fun x hx => ?_
  rcases List.mem_cons.1 hx with rfl | hx
  · exact hf
  · exact hargs x hx

theorem sound_ofName (t : Token) : Sound (.ofName t) :=
  .intro ⟨nofun, trivial⟩ nofun

theorem reads_builtinCall (he : Ends src.tokens) {name : Token}
    (hk : ∃ cls, name.kind = .function cls) (hsub : ReadsExpr src sub) (least : Nat) :
    Reads src (fun s => s.current = name ∧ s.tokens = tokens) (builtinCall sub name)
      (Reading least tokens) := by
  refine Reads.ifNext ?_ (Reads.report (.around (by decide) _ _))
  refine Reads.advance
    (M := fun _ s => tokens = name :: s.tokens ∧ s.current.kind = .leftParen) ?_ fun _ => ?_
  · rintro s hs ⟨hparen, rfl, rfl⟩
    obtain ⟨cls, hk⟩ := hk
    have hne := hs.ahead_ne_nil he (hk ▸ TokenKind.noConfusion)
    rw [State.tokens_advance hne, State.current_advance hne]
    exact ⟨rfl, hparen⟩
  · refine Reads.bind (Reads.call (reads_arguments he hsub) State.ahead ?_) fun args =>
      Reads.pure fun s _ => ?_
    · rintro s hs ⟨-, hparen⟩
      exact ⟨rfl, hs.ahead_ne_nil he (hparen ▸ TokenKind.noConfusion)⟩
    · rintro ⟨s₀, -, ⟨htokens, hparen⟩, h⟩
      obtain ⟨ys, closing, hahead, hargs⟩ := h.source
      refine .of_isAtom ⟨⟨_, ?_, hargs.builtin hk hparen⟩, h.more, ?_⟩ rfl
      · rw [htokens, State.tokens, hahead]
        simp
      · exact sound_call (sound_ofName name) h.sound rfl fun _ _ => Expr.noConfusion

theorem reads_leaf (he : Ends src.tokens) (hk : t.kind ≠ .endOfText) (hy : Yields e [t])
    (hopens : t.kind.opens = false) (hsound : Sound e) (ha : isAtom e = true) (least : Nat) :
    Reads src (fun s => s.current = t ∧ s.tokens = tokens) (pure e) (Reading least tokens) := by
  refine Reads.pure fun s hs => ?_
  rintro ⟨rfl, rfl⟩
  exact .of_isAtom ⟨⟨[s.current], rfl, writes_leaf hy hopens⟩, hs.ahead_ne_nil he hk, hsound⟩ ha

theorem reads_integerLiteral (he : Ends src.tokens) {radix : Radix} (ht : t ∈ src.tokens)
    (hk : t.kind = .number radix) (least : Nat) :
    Reads src (fun s => s.current = t ∧ s.tokens = tokens) (integerLiteral radix t)
      (Reading least tokens) := by
  unfold integerLiteral
  split
  · rename_i n hn
    exact reads_leaf he (hk ▸ TokenKind.noConfusion) (.integer hk hn) (by rw [hk]; rfl)
      (.intro ⟨nofun, trivial⟩ nofun) rfl least
  · exact Reads.report (.around (by decide) _ _)
  · rename_i hn
    refine Reads.bind (M := fun _ _ => False) (fun s hs => ?_) fun _ =>
      Reads.pure fun _ _ => False.elim
    exact ⟨(along_noteUnbounded ht hk hn s hs).1, fun _ hquiet => Bool.noConfusion hquiet.bounded⟩

/-- Between the level of an operator before its operand and that of a call there is the dot. -/
theorem eq_dot_of_level (h : prefixLevel < level kind) (h' : level kind < level .leftParen) :
    kind = .dot := by
  cases kind with
  | dot => rfl
  | leftParen => exact absurd h' (Nat.lt_irrefl _)
  | _ => exact absurd h (Nat.not_lt.2 (Nat.le_of_ble_eq_true rfl))

theorem Reading.unary {op : Token} {rest : List Token} (h : Reading prefixLevel rest e s)
    (hs : Stops prefixLevel s) (hop : isPrefixOperator op.kind = true) :
    Reading least (op :: rest) (.unary op e) s := by
  obtain ⟨ys, htokens, hys⟩ := h.source
  refine ⟨⟨⟨op :: ys, ?_, hys.unary hop⟩, h.more, ?_⟩, ?_, fun _ _ _ => Expr.noConfusion, hs⟩
  · rw [htokens]
    rfl
  · refine h.sound.of_part rfl Expr.noConfusion fun o ho => ?_
    cases e with
    | binary o' l r =>
      cases ho
      obtain ⟨habove, hbelow⟩ := h.above _ rfl
      exact eq_dot_of_level habove hbelow
    | indexed comma base register => exact absurd rfl (h.plain comma base register)
    | _ => cases ho
  · intro n hn
    cases hn

end Operands

theorem reads_operand (he : Ends src.tokens) (hsub : Exact src sub) (least : Nat)
    (tokens : List Token) :
    Reads src (fun s => s.tokens = tokens) (operand sub) (Reading least tokens) := by
  have hlow := hsub.readsExpr
  refine Reads.current fun t ht => ?_
  split
  · rename_i hk
    exact reads_leaf he (hk ▸ TokenKind.noConfusion) (.name (.inl hk)) (by rw [hk]; rfl)
      (sound_ofName t) rfl least
  · rename_i cls hk
    exact reads_leaf he (hk ▸ TokenKind.noConfusion) (.name (.inr ⟨cls, hk⟩)) (by rw [hk]; rfl)
      (sound_ofName t) rfl least
  · rename_i radix hk
    exact reads_integerLiteral he ht hk least
  · rename_i hk
    exact reads_leaf he (hk ▸ TokenKind.noConfusion) (.string hk) (by rw [hk]; rfl)
      (.intro ⟨nofun, trivial⟩ nofun) rfl least
  · rename_i hk
    exact reads_leaf he (hk ▸ TokenKind.noConfusion) (.programCounter hk) (by rw [hk]; rfl)
      (.intro ⟨nofun, trivial⟩ nofun) rfl least
  · rename_i hk
    exact reads_grouped he hk hlow least
  · rename_i hk
    exact reads_bracketed he hk hlow least
  · rename_i cls hk
    exact reads_builtinCall he ⟨cls, hk⟩ hlow least
  · exact Reads.report (ordinary_illegal t.literal)
  · split
    · rename_i hop
      refine Reads.advance (M := fun _ s => tokens = t :: s.tokens) ?_ fun _ => ?_
      · rintro s hs ⟨rfl, rfl⟩
        have hk : s.current.kind ≠ .endOfText := by
          intro hk
          rw [hk] at hop
          cases hop
        rw [State.tokens_advance (hs.ahead_ne_nil he hk)]
        rfl
      · refine Reads.bind (Reads.call (hsub prefixLevel) State.tokens fun _ _ _ => rfl) fun e =>
          Reads.pure fun s _ => ?_
        rintro ⟨s₀, -, rfl, h, hstops⟩
        exact h.unary hstops hop
    · exact Reads.report (.around (by decide) _ _)

/-! ## Operators -/

theorem level_lt (h : kind ≠ .leftParen) : level kind < level .leftParen := by
  show level kind < 10
  unfold level
  split <;> first | exact absurd rfl h | decide

/-- At an operator that goes on with the expression before it. -/
structure Pending (least : Nat) (tokens : List Token) (left : Expr) (s : State) : Prop where
  source : ∃ ys, tokens = ys ++ s.tokens ∧ Writes least left ys s.tokens
  sound : Sound left
  plain : ∀ comma base register, left ≠ .indexed comma base register
  below : ∀ n ∈ left.level?, n < level .leftParen
  ends : s.current.kind ≠ .endOfText
  above : least < level s.current.kind
  held : level s.current.kind ≤ grip left

theorem Reading.pending (h : Reading least tokens left s) (hends : s.peek.kind ≠ .endOfText)
    (habove : least < level s.peek.kind) : Pending least tokens left s.advance := by
  obtain ⟨ys, htokens, hys⟩ := h.source
  rw [← State.tokens_advance h.more] at htokens hys
  refine ⟨⟨ys, htokens, hys⟩, h.sound, h.plain, fun n hn => (h.above n hn).2, ?_, ?_, ?_⟩
  · rw [State.current_advance h.more]
    exact hends
  · rw [State.current_advance h.more]
    exact habove
  · rw [State.current_advance h.more]
    exact h.held.resolve_left hends

/-- What a parenthesis stands behind is not an operator's result: its last operand would have taken
the parenthesis. -/
theorem Pending.callable (h : Pending least tokens left s) (hk : s.current.kind = .leftParen) :
    left.operator? = none ∧ ∀ op e, left ≠ .unary op e := by
  have hheld := h.held
  rw [hk] at hheld
  constructor
  · cases left with
    | binary op l r => exact absurd hheld (Nat.not_le.2 (h.below _ rfl))
    | indexed comma base register => exact absurd rfl (h.plain comma base register)
    | _ => rfl
  · rintro op e rfl
    exact absurd (show level .leftParen ≤ prefixLevel from hheld) (by decide)

theorem Pending.binary {right : Expr} {s' : State} (h : Pending least tokens left s)
    (hk : s.current.kind ≠ .leftParen) (hright : Reading (level s.current.kind) s.ahead right s')
    (hstops : Stops (level s.current.kind) s') :
    Reading least tokens (.binary s.current left right) s' := by
  obtain ⟨xs, htokens, hxs⟩ := h.source
  obtain ⟨ys, hahead, hys⟩ := hright.source
  rw [State.tokens, hahead] at htokens hxs
  refine ⟨⟨⟨xs ++ s.current :: ys, ?_, hxs.binary hys h.above hk⟩, hright.more, ?_⟩, ?_,
    fun _ _ _ => Expr.noConfusion, hstops⟩
  · rw [htokens, List.append_assoc, List.cons_append]
  · refine .intro ⟨Expr.noConfusion, fun n hn => ?_, fun n hn => (hright.above n hn).1⟩
      fun x hx => ?_
    · cases left with
      | binary op l r =>
        cases hn
        exact h.held
      | _ => cases hn
    · rcases List.mem_cons.1 hx with rfl | hx
      · exact h.sound
      · cases List.mem_singleton.1 hx
        exact hright.sound
  · intro n hn
    cases hn
    exact ⟨h.above, level_lt hk⟩

theorem reads_operatorTail (he : Ends src.tokens) (hsub : Exact src sub) (least : Nat)
    (tokens : List Token) (left : Expr) :
    Reads src (Pending least tokens left) (operatorTail sub left) (Reading least tokens) := by
  have hlow := hsub.readsExpr
  refine Reads.current fun op _ => ?_
  split
  · rename_i hk
    refine Reads.bind (Reads.call (reads_arguments he hlow) State.ahead ?_) fun args =>
      Reads.pure fun s _ => ?_
    · rintro s hs ⟨-, h⟩
      exact ⟨rfl, hs.ahead_ne_nil he h.ends⟩
    · rintro ⟨s₀, -, ⟨rfl, h₀⟩, h⟩
      obtain ⟨xs, htokens, hxs⟩ := h₀.source
      obtain ⟨ys, closing, hahead, hargs⟩ := h.source
      obtain ⟨hplain, hunary⟩ := h₀.callable hk
      have hsame : s₀.tokens = s₀.current :: (ys ++ closing) ++ s.ahead := by
        rw [State.tokens, hahead, List.cons_append, List.append_assoc]
      rw [hsame] at htokens hxs
      refine .of_isAtom ⟨⟨_, ?_, hargs.call hxs hk⟩, h.more, ?_⟩ rfl
      · rw [htokens, List.append_assoc]
      · exact sound_call h₀.sound h.sound hplain hunary
  · rename_i hk
    refine Reads.advance
      (M := fun _ s => ∃ s₀, Pending least tokens left s₀ ∧ s₀.current = op ∧
        s.tokens = s₀.ahead) ?_ fun _ => ?_
    · rintro s hs ⟨hop, h⟩
      exact ⟨s, h, hop, State.tokens_advance (hs.ahead_ne_nil he h.ends)⟩
    · refine Reads.bind (Reads.call (hsub (level op.kind)) State.tokens fun _ _ _ => rfl)
        fun right => Reads.pure fun s _ => ?_
      rintro ⟨s₁, -, ⟨s₀, h₀, rfl, hahead⟩, hright, hstops⟩
      rw [hahead] at hright
      exact h₀.binary hk hright hstops

/-- The loop over operators keeps `Reading`, and ends where no further operator belongs to the
expression. -/
theorem reads_operators (he : Ends src.tokens) (hsub : Exact src sub) (least : Nat)
    (tokens : List Token) (left : Expr) :
    Reads src (Reading least tokens left) (operators sub least left)
      (fun e s => Reading least tokens e s ∧ Stops least s) := by
  intro s₀ hs₀
  -- the expression so far was read if all was quiet since the loop was entered
  have hloop : Ensures _ (operators sub least left) _ := ensures_operators
    (I := fun e s => Run src false s₀ s ∧
      (Reading least tokens left s₀ → Quiet s₀ s → Reading least tokens e s)) ?_ left
  · obtain ⟨⟨hrun, hread⟩, hstop⟩ := hloop s₀ ⟨.refl, fun h _ => h⟩
    refine ⟨hrun, fun h hquiet => ⟨hread h hquiet, ?_⟩⟩
    have hnow := hread h hquiet
    have hfound := hnow.sound.isMissing_eq_false
    have hstop := hstop.resolve_left hnow.more
    rw [hfound, not_and, not_and, Nat.not_lt] at hstop
    exact Decidable.or_iff_not_imp_left.2 (hstop rfl)
  · rintro e _ ⟨s, ⟨hrun, hkept⟩, -, hend, hlevel, rfl⟩
    have hs := hrun.within hs₀
    have hadv : Run src false s s.advance := run_advance s
    obtain ⟨htailRun, hturn⟩ := reads_operatorTail he hsub least tokens e s.advance hs.advance
    refine ⟨hrun.trans (hadv.trans htailRun), fun h hquiet => ?_⟩
    obtain ⟨hfirst, hrest⟩ := hquiet.split hrun (hadv.trans htailRun)
    exact hturn ((hkept h hfirst).pending hend hlevel) (hrest.split hadv htailRun).2

/-- Nesting beyond the bound is never quiet: messages are silenced. -/
theorem reads_depthExceeded (rules : Rules) {Q : Expr → State → Prop} :
    Reads src P (depthExceeded rules) Q := by
  intro s hs
  have hbound : Abreast (.still src false false) false _ _ id anything :=
    abreast_depthExceeded rules trivial
  refine ⟨(hbound.along s hs).1, fun _ hquiet => ?_⟩
  have hskip := run_depthExceeded (w := .still src false false) rules hs
  cases hskip.unwinding_eq_false hquiet.heard

theorem exact_expression (he : Ends src.tokens) (rules : Rules) (room : Nat) :
    Exact src (expression rules room) := by
  induction room with
  | zero => exact fun least tokens => reads_depthExceeded rules
  | succ room ih =>
    intro least tokens
    exact (reads_operand he ih least tokens).bind fun left =>
      reads_operators he ih least tokens left

/-! ## Main statement -/

/-- **Expressions are read as the levels of their operators ask for.** Let the tokens end in an end
of the text, and let an expression whose operators bind stronger than `least` be read from any of
them without a message. Then nothing in the tree is missing and its operators are ranked; it is
written with the tokens from the current one up to those still ahead, the last of which is the new
current token; its own operator binds stronger than `least`; and the next token is the end of the
text or binds no stronger than `least`. -/
theorem expression_exact (rules : Rules) (room least : Nat) {s : State} (hends : Ends s.tokens)
    (hquiet : Quiet s ((expression rules room least).run s).2) :
    let e := ((expression rules room least).run s).1
    let s' := ((expression rules room least).run s).2
    (e.Everywhere fun x => x ≠ .missing ∧ x.Ranked) ∧
    (∃ ys, s.tokens = ys ++ s'.ahead ∧ ys.getLast? = some s'.current ∧ Yields e ys) ∧
    (∀ n ∈ e.level?, least < n) ∧
    ∃ next rest, s'.ahead = next :: rest ∧
      (next.kind = .endOfText ∨ level next.kind ≤ least) := by
  have hs : s.Within ⟨s.tokens, none⟩ := List.suffix_rfl
  obtain ⟨hrun, hreads⟩ := exact_expression hends rules room least s.tokens s hs
  obtain ⟨h, hstops⟩ := hreads rfl hquiet
  obtain ⟨ys, htokens, hys⟩ := h.source
  refine ⟨h.sound, ⟨ys, htokens, ?_, hys.yields⟩, fun n hn => (h.above n hn).1, ?_⟩
  · obtain ⟨skipped, hskipped⟩ := Run.suffix hrun
    rw [htokens, State.tokens, List.append_cons] at hskipped
    rw [← List.append_cancel_right hskipped, List.getLast?_concat]
  · cases ha : ((expression rules room least).run s).2.ahead with
    | nil => exact absurd ha h.more
    | cons next rest =>
      rw [Stops, State.peek_of_cons ha] at hstops
      exact ⟨next, rest, rfl, hstops⟩

/-- `a + b * -c.d(1,) << 2`: the product binds stronger than the sum, the dot stronger than the
sign, the call stronger than the dot, and the shift weaker than all of them. -/
def mixedStart : State :=
  .start (plainToken .identifier "a" 1 1)
    [plainToken .plus "+" 1 3, plainToken .identifier "b" 1 5, plainToken .asterisk "*" 1 7,
      plainToken .minus "-" 1 9, plainToken .identifier "c" 1 10, plainToken .dot "." 1 11,
      plainToken .identifier "d" 1 12, plainToken .leftParen "(" 1 13,
      plainToken (.number .decimal) "1" 1 14, plainToken .comma "," 1 15,
      plainToken .rightParen ")" 1 16, plainToken .leftShift "<<" 1 18,
      plainToken (.number .decimal) "2" 1 21, plainToken .endOfText "" 1 22]

/-- At the shift, which is left for the expression around this one. -/
def mixedEnd : State :=
  .start (plainToken .rightParen ")" 1 16)
    [plainToken .leftShift "<<" 1 18, plainToken (.number .decimal) "2" 1 21,
      plainToken .endOfText "" 1 22]

def mixedTree : Expr :=
  .binary (plainToken .plus "+" 1 3) (.ofName (plainToken .identifier "a" 1 1))
    (.binary (plainToken .asterisk "*" 1 7) (.ofName (plainToken .identifier "b" 1 5))
      (.unary (plainToken .minus "-" 1 9)
        (.binary (plainToken .dot "." 1 11) (.ofName (plainToken .identifier "c" 1 10))
          (.call (plainToken .leftParen "(" 1 13) (.ofName (plainToken .identifier "d" 1 12))
            [.integer (plainToken (.number .decimal) "1" 1 14) 1]))))

theorem expression_mixed :
    (expression ⟨8, none⟩ 8 (level .leftShift)).run mixedStart = (mixedTree, mixedEnd) := by
  have hone : numberValue .decimal "1" = .value 1 := by decide +kernel
  simp [mixedStart, mixedEnd, mixedTree, plainToken, State.start, State.advance, State.peek,
    expression, operand, operatorTail, operators_next, whileNext_next, arguments, nextIs, advance,
    current, integerLiteral, hone, level, lowest, prefixLevel, isPrefixOperator, Expr.isMissing,
    Expr.ofName, Expr.toList]

theorem expression_exact_mixed : Ends mixedStart.tokens ∧ Quiet mixedStart mixedEnd ∧
    (mixedTree.Everywhere fun x => x ≠ .missing ∧ x.Ranked) ∧
    ∃ ys, mixedStart.tokens = ys ++ mixedEnd.ahead ∧ Yields mixedTree ys := by
  have hends : Ends mixedStart.tokens := ⟨mixedStart.tokens.take 14, _, rfl, rfl⟩
  have hquiet : Quiet mixedStart mixedEnd := ⟨rfl, rfl, rfl⟩
  obtain ⟨hsound, ⟨ys, htokens, -, hys⟩, -⟩ := expression_exact ⟨8, none⟩ 8 (level .leftShift)
    hends (by rw [expression_mixed]; exact hquiet)
  rw [expression_mixed] at hsound htokens hys
  exact ⟨hends, hquiet, hsound, ys, htokens, hys⟩

end Asm6510.Grammar
