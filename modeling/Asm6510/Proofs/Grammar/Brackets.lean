import Asm6510.Grammar.Expression

/-!
# The tokens of expressions

An expression is written with tokens. A group among them has its closing mark, but a call may end
without its closing parenthesis.

* `Yields`: the tokens that an expression is written with, in order.
* `Fills`: what is between an opening mark and what closes it.
* `Partnered`: every opening mark among tokens is closed, or it is that of a call that is left open.
* `Writes`: an expression is written with partnered tokens. There is one lemma for each kind of
  expressions.
-/

namespace Asm6510

def TokenKind.opens : TokenKind → Bool
  | leftParen => true
  | leftBracket => true
  | _ => false

namespace Grammar

/-! ## Tokens -/

/-- What can stand behind the arguments of a call: a closing parenthesis, one behind a comma, or
nothing at all. Without arguments there is the closing parenthesis. -/
inductive ClosesCall : List Expr → List Token → Prop
  | closed {args : List Expr} {t : Token} (ht : t.kind = .rightParen) : ClosesCall args [t]
  | trailing {args : List Expr} {comma t : Token} (hargs : args ≠ []) (hcomma : comma.kind = .comma)
      (ht : t.kind = .rightParen) : ClosesCall args [comma, t]
  | unclosed {args : List Expr} (hargs : args ≠ []) : ClosesCall args []

theorem lowest_le_level (kind : TokenKind) : lowest ≤ level kind := by
  unfold level
  split <;> decide

/-- The marks that a group is written between. -/
def Encloses (opening closing : TokenKind) : Prop :=
  opening = .leftParen ∧ closing = .rightParen ∨ opening = .leftBracket ∧ closing = .rightBracket

mutual

/-- The tokens that an expression is written with, in order. -/
inductive Yields : Expr → List Token → Prop
  | name {t : Token} (ht : t.kind = .identifier ∨ ∃ cls, t.kind = .constant cls) :
      Yields (.ofName t) [t]
  | integer {t : Token} {radix : Radix} {n : Nat} (ht : t.kind = .number radix)
      (hn : numberValue radix t.literal = .value n) : Yields (.integer t n) [t]
  | string {t : Token} (ht : t.kind = .string) : Yields (stringLiteral t) [t]
  | programCounter {t : Token} (ht : t.kind = .asterisk) : Yields (.programCounter t) [t]
  | unary {op : Token} {e : Expr} {ys : List Token} (hop : isPrefixOperator op.kind = true)
      (he : Yields e ys) : Yields (.unary op e) (op :: ys)
  | binary {op : Token} {l r : Expr} {xs ys : List Token} (hl : Yields l xs) (hr : Yields r ys) :
      Yields (.binary op l r) (xs ++ op :: ys)
  | indexed {comma register : Token} {e : Expr} {ys : List Token} (he : Yields e ys)
      (hcomma : comma.kind = .comma) (hregister : isIndexRegister register = true) :
      Yields (.indexed comma e register) (ys ++ [comma, register])
  | group {opening closing : Token} {e : Expr} {ys : List Token} (he : Yields e ys)
      (hmarks : Encloses opening.kind closing.kind) :
      Yields (.group opening e) (opening :: (ys ++ [closing]))
  | builtin {name paren : Token} {args : List Expr} {ys closing : List Token}
      (hname : ∃ cls, name.kind = .function cls) (hparen : paren.kind = .leftParen)
      (hargs : Separated args ys) (hclosing : ClosesCall args closing) :
      Yields (.call name (.ofName name) args) (name :: paren :: (ys ++ closing))
  | call {paren : Token} {f : Expr} {args : List Expr} {xs ys closing : List Token}
      (hf : Yields f xs) (hparen : paren.kind = .leftParen) (hargs : Separated args ys)
      (hclosing : ClosesCall args closing) :
      Yields (.call paren f args) (xs ++ paren :: (ys ++ closing))

/-- The tokens that expressions with commas between them are written with. -/
inductive Separated : List Expr → List Token → Prop
  | nil : Separated [] []
  | one {e : Expr} {ys : List Token} (he : Yields e ys) : Separated [e] ys
  | more {es : List Expr} {e : Expr} {comma : Token} {xs ys : List Token} (hes : Separated es xs)
      (hne : es ≠ []) (hcomma : comma.kind = .comma) (he : Yields e ys) :
      Separated (es ++ [e]) (xs ++ comma :: ys)

end

theorem Yields.isMissing_eq_false {e : Expr} {ys : List Token} (h : Yields e ys) :
    e.isMissing = false := by
  cases h <;> rfl

/-! ## Marks -/

/-- What is between an opening mark and what closes it: an expression, the arguments of a call, or
parameters. -/
inductive Fills (opening : Token) : (inner closing : List Token) → Prop
  | group {e : Expr} {inner : List Token} {closing : Token} (he : Yields e inner)
      (hmarks : Encloses opening.kind closing.kind) : Fills opening inner [closing]
  | arguments {args : List Expr} {inner closing : List Token} (hopening : opening.kind = .leftParen)
      (hargs : Separated args inner) (hclosing : ClosesCall args closing) (hne : closing ≠ []) :
      Fills opening inner closing
  | parameters {inner : List Token} {closing : Token} (hopening : opening.kind = .leftParen)
      (hinner : ∀ t ∈ inner, t.kind.isName = true ∨ t.kind = .comma)
      (hclosing : closing.kind = .rightParen) : Fills opening inner [closing]

/-- The tokens end in what a parenthesis behind them calls: an expression, or the name of a built-in
function. -/
def EndsCallable (before : List Token) : Prop :=
  (∃ f xs, xs <:+ before ∧ Yields f xs) ∨
    ∃ front name cls, before = front ++ [name] ∧ name.kind = .function cls

/-- What follows neither goes on with an argument nor separates or ends arguments. -/
def EndsOpen (rest : List Token) : Prop :=
  ∀ t ∈ rest.head?, level t.kind = lowest ∧ t.kind ≠ .comma ∧ t.kind ≠ .rightParen

/-- The tokens `own`, between `before` and `rest`, hold with every opening mark what fills it and
closes it. Only a call may be left open: it has arguments, and behind them is no operator, no comma
and no closing parenthesis. -/
inductive Partnered : (before own rest : List Token) → Prop
  | nil {before rest : List Token} : Partnered before [] rest
  | plain {before own rest : List Token} {t : Token} (ht : t.kind.opens = false)
      (hmore : Partnered (before ++ [t]) own rest) : Partnered before (t :: own) rest
  | closed {before inner closing own rest : List Token} {opening : Token}
      (hfills : Fills opening inner closing)
      (hinner : Partnered (before ++ [opening]) inner (closing ++ (own ++ rest)))
      (hmore : Partnered (before ++ opening :: (inner ++ closing)) own rest) :
      Partnered before (opening :: (inner ++ (closing ++ own))) rest
  | openCall {before inner own rest : List Token} {paren : Token} {args : List Expr}
      (hparen : paren.kind = .leftParen) (hcalled : EndsCallable before)
      (hargs : Separated args inner) (hne : args ≠ []) (hopen : EndsOpen (own ++ rest))
      (hinner : Partnered (before ++ [paren]) inner (own ++ rest))
      (hmore : Partnered (before ++ paren :: inner) own rest) :
      Partnered before (paren :: (inner ++ own)) rest

section Partnered

variable {before own xs ys rest : List Token} {t : Token}

theorem EndsCallable.append_left (h : EndsCallable before) (front : List Token) :
    EndsCallable (front ++ before) := by
  rcases h with ⟨f, xs, hsuffix, hf⟩ | ⟨skipped, name, cls, rfl, hname⟩
  · exact .inl ⟨f, xs, hsuffix.trans (List.suffix_append _ _), hf⟩
  · exact .inr ⟨front ++ skipped, name, cls, (List.append_assoc _ _ _).symm, hname⟩

theorem Partnered.behind (h : Partnered before own rest) (front : List Token) :
    Partnered (front ++ before) own rest := by
  induction h with
  | nil => exact .nil
  | plain ht _ ih => exact .plain ht (by rw [List.append_assoc]; exact ih)
  | closed hfills _ _ ihinner ihmore =>
    refine .closed hfills ?_ ?_
    · rw [List.append_assoc]
      exact ihinner
    · rw [List.append_assoc]
      exact ihmore
  | openCall hparen hcalled hargs hne hopen _ _ ihinner ihmore =>
    refine .openCall hparen (hcalled.append_left front) hargs hne hopen ?_ ?_
    · rw [List.append_assoc]
      exact ihinner
    · rw [List.append_assoc]
      exact ihmore

theorem Partnered.anywhere (h : Partnered [] own rest) (before : List Token) :
    Partnered before own rest := by
  have hall := h.behind before
  rwa [List.append_nil] at hall

theorem Partnered.append (h : Partnered before xs (ys ++ rest))
    (h' : Partnered (before ++ xs) ys rest) : Partnered before (xs ++ ys) rest := by
  generalize hrest : ys ++ rest = behind at h
  induction h with
  | nil => rwa [List.append_nil] at h'
  | plain ht _ ih =>
    rw [List.append_cons] at h'
    exact .plain ht (ih h' hrest)
  | @closed before inner closing own _ opening hfills hinner _ _ ihmore =>
    subst hrest
    have hmore := ihmore (by simpa using h') rfl
    rw [List.cons_append, List.append_assoc, List.append_assoc]
    refine .closed hfills ?_ hmore
    rw [List.append_assoc]
    exact hinner
  | @openCall before inner own _ paren args hparen hcalled hargs hne hopen hinner _ _ ihmore =>
    subst hrest
    have hmore := ihmore (by simpa using h') rfl
    rw [List.cons_append, List.append_assoc]
    refine .openCall hparen hcalled hargs hne ?_ ?_ hmore
    · rw [List.append_assoc]
      exact hopen
    · rw [List.append_assoc]
      exact hinner

theorem partnered_single (ht : t.kind.opens = false) : Partnered before [t] rest :=
  .plain ht .nil

theorem Partnered.snoc (h : Partnered before xs (t :: rest)) (ht : t.kind.opens = false) :
    Partnered before (xs ++ [t]) rest :=
  h.append (partnered_single ht)

/-- A mark with what fills and closes it. -/
theorem Fills.partnered {opening : Token} {inner closing : List Token}
    (h : Fills opening inner closing) (hinner : Partnered [] inner (closing ++ rest)) :
    Partnered before (opening :: (inner ++ closing)) rest := by
  have hall : Partnered before (opening :: (inner ++ (closing ++ []))) rest :=
    .closed h (hinner.anywhere _) .nil
  rwa [List.append_nil] at hall

end Partnered

/-! ## Expressions with partnered tokens -/

theorem opens_comma {t : Token} (h : t.kind = .comma) : t.kind.opens = false := by
  rw [h]
  rfl

theorem kind_of_isIndexRegister {t : Token} (h : isIndexRegister t = true) :
    t.kind = .identifier := by
  simp only [isIndexRegister, Bool.and_eq_true, beq_iff_eq] at h
  exact h.1

theorem opens_register {t : Token} (h : isIndexRegister t = true) : t.kind.opens = false := by
  rw [kind_of_isIndexRegister h]
  rfl

theorem opens_of_isPrefixOperator {kind : TokenKind} (h : isPrefixOperator kind = true) :
    kind.opens = false := by
  cases kind <;> first | rfl | cases h

theorem opens_of_lowest_lt_level {kind : TokenKind} (h : lowest < level kind)
    (hparen : kind ≠ .leftParen) : kind.opens = false := by
  cases kind with
  | leftParen => exact absurd rfl hparen
  | leftBracket => exact absurd h (by decide)
  | _ => rfl

/-- The expression is written with the tokens `ys` before `rest`. If its operators bind stronger
than the lowest level, the tokens are partnered. -/
structure Writes (least : Nat) (e : Expr) (ys rest : List Token) : Prop where
  yields : Yields e ys
  partnered : lowest ≤ least → Partnered [] ys rest

/-- Expressions with commas between them are written with partnered tokens. -/
structure WritesList (es : List Expr) (ys rest : List Token) : Prop where
  separated : Separated es ys
  partnered : Partnered [] ys rest

/-- The arguments of a call are written with `ys`, and `closing` is behind them. -/
structure WritesArguments (args : List Expr) (ys closing rest : List Token) : Prop where
  list : WritesList args ys (closing ++ rest)
  closes : ClosesCall args closing
  opens : closing = [] → EndsOpen rest

section Writes

variable {least : Nat} {e l r f : Expr} {es args : List Expr} {xs ys closing rest : List Token}
  {op opening comma register name paren : Token}

theorem writes_leaf {t : Token} (hy : Yields e [t]) (ht : t.kind.opens = false) :
    Writes least e [t] rest :=
  ⟨hy, fun _ => partnered_single ht⟩

theorem Writes.unary (h : Writes prefixLevel e ys rest) (hop : isPrefixOperator op.kind = true) :
    Writes least (.unary op e) (op :: ys) rest :=
  ⟨.unary hop h.yields, fun _ =>
    .plain (opens_of_isPrefixOperator hop) ((h.partnered (by decide)).anywhere _)⟩

theorem Writes.binary (hl : Writes least l xs (op :: (ys ++ rest)))
    (hr : Writes (level op.kind) r ys rest) (hop : least < level op.kind)
    (hparen : op.kind ≠ .leftParen) : Writes least (.binary op l r) (xs ++ op :: ys) rest := by
  refine ⟨.binary hl.yields hr.yields, fun hleast => ?_⟩
  have hlow : lowest < level op.kind := Nat.lt_of_le_of_lt hleast hop
  exact (hl.partnered hleast).append
    (.plain (opens_of_lowest_lt_level hlow hparen) ((hr.partnered (Nat.le_of_lt hlow)).anywhere _))

theorem Writes.indexed (h : Writes lowest e ys (comma :: register :: rest))
    (hcomma : comma.kind = .comma) (hregister : isIndexRegister register = true) :
    Writes lowest (.indexed comma e register) (ys ++ [comma, register]) rest := by
  refine ⟨.indexed h.yields hcomma hregister, fun hle => ?_⟩
  have hboth : Partnered ([] ++ ys) [comma, register] rest :=
    .plain (opens_comma hcomma) (partnered_single (opens_register hregister))
  exact Partnered.append (by exact h.partnered hle) hboth

theorem Writes.group {closer : Token} (h : Writes lowest e ys (closer :: rest))
    (hmarks : Encloses opening.kind closer.kind) :
    Writes least (.group opening e) (opening :: (ys ++ [closer])) rest :=
  ⟨.group h.yields hmarks, fun _ =>
    (Fills.group h.yields hmarks).partnered (h.partnered (Nat.le_refl _))⟩

theorem Writes.toList_eq (h : Writes least e ys rest) : e.toList = [e] := by
  cases h.yields <;> rfl

theorem Writes.one (h : Writes lowest e ys rest) : WritesList [e] ys rest :=
  ⟨.one h.yields, h.partnered (Nat.le_refl _)⟩

theorem WritesList.more (hes : WritesList es xs (comma :: (ys ++ rest))) (hne : es ≠ [])
    (hcomma : comma.kind = .comma) (he : Writes lowest e ys rest) :
    WritesList (es ++ [e]) (xs ++ comma :: ys) rest :=
  ⟨.more hes.separated hne hcomma he.yields,
    hes.partnered.append
      (.plain (opens_comma hcomma) ((he.partnered (Nat.le_refl _)).anywhere _))⟩

/-- The parenthesis of a call, its arguments and what is behind them. -/
theorem WritesArguments.partnered (h : WritesArguments args ys closing rest)
    (hparen : paren.kind = .leftParen) {before : List Token} (hcalled : EndsCallable before) :
    Partnered before (paren :: (ys ++ closing)) rest := by
  by_cases hne : closing = []
  · subst hne
    cases h.closes with
    | unclosed hargs =>
      exact .openCall hparen hcalled h.list.separated hargs (h.opens rfl)
        (h.list.partnered.anywhere _) .nil
  · exact (Fills.arguments hparen h.list.separated h.closes hne).partnered h.list.partnered

theorem WritesArguments.builtin (h : WritesArguments args ys closing rest)
    (hname : ∃ cls, name.kind = .function cls) (hparen : paren.kind = .leftParen) :
    Writes least (.call name (.ofName name) args) (name :: paren :: (ys ++ closing)) rest := by
  refine ⟨.builtin hname hparen h.list.separated h.closes, fun _ => ?_⟩
  obtain ⟨cls, hcls⟩ := hname
  exact .plain (by rw [hcls]; rfl) (h.partnered hparen (.inr ⟨[], name, cls, rfl, hcls⟩))

theorem WritesArguments.call (h : WritesArguments args ys closing rest)
    (hf : Writes least f xs (paren :: (ys ++ closing) ++ rest)) (hparen : paren.kind = .leftParen) :
    Writes least (.call paren f args) (xs ++ paren :: (ys ++ closing)) rest :=
  ⟨.call hf.yields hparen h.list.separated h.closes, fun hleast =>
    (hf.partnered hleast).append (h.partnered hparen (.inl ⟨f, xs, List.suffix_rfl, hf.yields⟩))⟩

end Writes

end Grammar

end Asm6510
