import Asm6510.Proofs.Grammar.Renderings

/-!
# Reading pieces back

The tokens of a printable expression are read as an expression of the same shape, if nothing behind
them binds stronger than the expression allows.

* `State.moved`: a state with other tokens at hand.
* `ReadsBack`: the tokens are read as the expression, up to the operators behind it.

Main statement: `readsBack_printable`.
-/

namespace Asm6510.Grammar

variable {e : Expr}

/-! ## States -/

/-- The state with other tokens at hand. -/
def State.moved (s : State) (current : Token) (ahead : List Token) : State :=
  { s with current, ahead }

section Moves

variable {s : State} {t next : Token} {rest : List Token}

theorem advance_moved : (s.moved t (next :: rest)).advance = s.moved next rest :=
  rfl

end Moves

/-! ## Shapes -/

/-- Whether the shape is that of nothing. -/
def isMissingShape : Expr.Shape → Bool
  | .missing => true
  | _ => false

theorem isMissing_eq (e : Expr) : e.isMissing = isMissingShape e.shape := by
  cases e <;> rfl

theorem isMissing_of_shape {e' : Expr} (h : e'.shape = e.shape) : e'.isMissing = e.isMissing := by
  rw [isMissing_eq, h, ← isMissing_eq]

theorem toList_of_shape {e' : Expr} (h : e'.shape = e.shape) (he : e.isMissing = false) :
    e'.toList = [e'] := by
  unfold Expr.toList
  rw [if_neg (by rw [isMissing_of_shape h, he]; exact Bool.false_ne_true)]

theorem Printable.isMissing {ref : Option Reference} {room : Nat} (h : Printable ref room e) :
    e.isMissing = false := by
  cases h <;> rfl

/-! ## What an expression starts with -/

/-- Kinds of tokens that an operand starts with. -/
def startsOperand (kind : TokenKind) : Bool :=
  kind.isName || kind.isNumber || kind == .string || kind == .asterisk || kind == .leftParen ||
    kind == .leftBracket || isPrefixOperator kind

theorem Printable.opens {ref : Option Reference} {room : Nat} (h : Printable ref room e) :
    ∃ p ps, e.pieces = p :: ps ∧ startsOperand p.1 = true := by
  induction h with
  | @name room t ht hv =>
    refine ⟨_, _, rfl, ?_⟩
    rcases ht with ht | ⟨cls, ht⟩ <;> rw [ht] <;> rfl
  | integer ht hn hv => exact ⟨_, _, rfl, by rw [ht]; rfl⟩
  | string ht hliteral hclosed => exact ⟨_, _, rfl, by rw [ht]; rfl⟩
  | programCounter ht => exact ⟨_, _, rfl, rfl⟩
  | unary hop hhash hv he hbare hfuse ih => exact ⟨_, _, rfl, by simp [Grammar.startsOperand, hop]⟩
  | binary hlowest hlevel hv hl hr hleft hright ihl ihr =>
    obtain ⟨p, ps, hps, hp⟩ := ihl
    exact ⟨p, _, by rw [Expr.pieces, hps]; rfl, hp⟩
  | group hopening hv he ih =>
    rw [Expr.pieces]
    split
    · exact ⟨_, _, rfl, rfl⟩
    · exact ⟨_, _, rfl, rfl⟩
  | indexed hopening hv he hregister hr ih =>
    rw [Expr.pieces]
    split
    · exact ⟨_, _, rfl, rfl⟩
    · exact ⟨_, _, rfl, rfl⟩
  | builtin ht hv hargs ih =>
    obtain ⟨cls, ht⟩ := ht
    exact ⟨_, _, rfl, by rw [ht]; rfl⟩
  | call hf hbare hunary hargs ihf ihargs =>
    obtain ⟨p, ps, hps, hp⟩ := ihf
    exact ⟨p, _, by rw [Expr.pieces, hps]; rfl, hp⟩

/-! ## Trees -/

/-- The tokens of the expression are read as an expression of the same shape, if the operator behind
them binds no stronger than the expression allows. The operators behind it are still to be read. -/
def ReadsBack (rules : Rules) (room : Nat) (e : Expr) : Prop :=
  ∀ (s : State) (t : Token) (ts : List Token) (next : Token) (rest : List Token) (least : Nat),
    (t :: ts).map Token.piece = e.pieces → level next.kind ≤ grip e →
    (∀ n ∈ e.level?, least < n) → least < level .leftParen →
    ∃ e' last, e'.shape = e.shape ∧
      (expression rules room least).run (s.moved t (ts ++ next :: rest)) =
        (operators (expression rules (room - 1)) least e').run (s.moved last (next :: rest))

section Trees

variable {ref : Option Reference} {rules : Rules} {room : Nat} {e : Expr}
  {t next register opening c : Token} {s : State} {us rest : List Token} {args : List Expr}
  {least : Nat} {kind : TokenKind}

theorem prefixLevel_lt : prefixLevel < level .leftParen := by
  decide

/-- An operator that does not bind stronger than asked for ends the expression. -/
theorem operators_stop {sub : Nat → Parser Expr} (hstop : level next.kind ≤ least) :
    (operators sub least e).run (s.moved t (next :: rest)) = (e, s.moved t (next :: rest)) := by
  rw [operators_cons rfl, if_neg fun h => absurd h.2.2 (Nat.not_lt.2 hstop)]

theorem ReadsBack.run (h : ReadsBack rules room e) (s : State) (rest : List Token) {ts : List Token}
    (hpieces : (t :: ts).map Token.piece = e.pieces) (hgrip : level next.kind ≤ grip e)
    (hlevel : ∀ n ∈ e.level?, least < n) (hleast : least < level .leftParen)
    (hstop : level next.kind ≤ least) :
    ∃ e' last, e'.shape = e.shape ∧
      (expression rules room least).run (s.moved t (ts ++ next :: rest)) =
        (e', s.moved last (next :: rest)) := by
  obtain ⟨e', last, hshape, hrun⟩ := h s t ts next rest least hpieces hgrip hlevel hleast
  exact ⟨e', last, hshape, by rw [hrun, operators_stop hstop]⟩

/-- An expression that is an operand by itself. -/
theorem readsBack_of_operand
    (h : ∀ (s : State) (t : Token) (ts : List Token) (next : Token) (rest : List Token),
      (t :: ts).map Token.piece = e.pieces → level next.kind ≤ grip e →
      ∃ e' last, e'.shape = e.shape ∧
        (operand (expression rules room)).run (s.moved t (ts ++ next :: rest)) =
          (e', s.moved last (next :: rest))) : ReadsBack rules (room + 1) e := by
  intro s t ts next rest least hpieces hgrip _ _
  obtain ⟨e', last, hshape, hrun⟩ := h s t ts next rest hpieces hgrip
  refine ⟨e', last, hshape, ?_⟩
  show (operators (expression rules room) least
    ((operand (expression rules room)).run (s.moved t (ts ++ next :: rest))).1).run
    ((operand (expression rules room)).run (s.moved t (ts ++ next :: rest))).2 = _
  rw [hrun]
  rfl

theorem readsBack_leaf {p : Piece} (hpieces : e.pieces = [p])
    (h : ∀ (s : State), s.current.piece = p → ∃ e', e'.shape = e.shape ∧
      (operand (expression rules room)).run s = (e', s)) : ReadsBack rules (room + 1) e := by
  refine readsBack_of_operand fun s t ts next rest ht _ => ?_
  rw [hpieces, List.map_cons] at ht
  obtain ⟨hpiece, hts⟩ := List.cons.inj ht
  cases List.map_eq_nil_iff.1 hts
  obtain ⟨e', hshape, hrun⟩ := h (s.moved t (next :: rest)) hpiece
  exact ⟨e', t, hshape, hrun⟩

/-! ### Operands of one token -/

theorem readsBack_name (ht : t.kind = .identifier ∨ ∃ cls, t.kind = .constant cls) :
    ReadsBack rules (room + 1) (.ofName t) := by
  refine readsBack_leaf rfl fun s hs => ⟨.ofName s.current, ?_, ?_⟩
  · show Expr.Shape.identifier s.current.literal = .identifier t.literal
    rw [Token.literal_of_piece hs]
  · have hkind : (current.run s).1.kind = t.kind := Token.kind_of_piece hs
    rw [operand, Parser.run_bind, hkind]
    rcases ht with ht | ⟨cls, ht⟩
    · rw [ht]
      rfl
    · rw [ht]
      rfl

theorem readsBack_integer {radix : Radix} {n : Nat} (ht : t.kind = .number radix)
    (hn : numberValue radix t.literal = .value n) : ReadsBack rules (room + 1) (.integer t n) := by
  refine readsBack_leaf rfl fun s hs => ⟨.integer s.current n, rfl, ?_⟩
  have hkind : (current.run s).1.kind = t.kind := Token.kind_of_piece hs
  have hliteral : (current.run s).1.literal = t.literal := Token.literal_of_piece hs
  rw [operand, Parser.run_bind, hkind, ht]
  dsimp only
  rw [integerLiteral, hliteral, hn]
  rfl

theorem readsBack_string (ht : t.kind = .string) :
    ReadsBack rules (room + 1) (stringLiteral t) := by
  refine readsBack_leaf rfl fun s hs => ⟨stringLiteral s.current, ?_, ?_⟩
  · show Expr.Shape.string (stringValue s.current.literal) = .string (stringValue t.literal)
    rw [Token.literal_of_piece hs]
  · have hkind : (current.run s).1.kind = t.kind := Token.kind_of_piece hs
    rw [operand, Parser.run_bind, hkind, ht]
    rfl

theorem readsBack_programCounter (t : Token) : ReadsBack rules (room + 1) (.programCounter t) := by
  refine readsBack_leaf rfl fun s hs => ⟨.programCounter s.current, rfl, ?_⟩
  have hkind : (current.run s).1.kind = .asterisk := Token.kind_of_piece hs
  rw [operand, Parser.run_bind, hkind]
  rfl

/-! ### Operators -/

/-- The tokens of a printable expression start with one that an operand starts with. -/
theorem Printable.exists_tokens (h : Printable ref room e) (hus : us.map Token.piece = e.pieces) :
    ∃ u us', us = u :: us' ∧ startsOperand u.kind = true := by
  obtain ⟨p, ps, hps, hp⟩ := h.opens
  rw [hps] at hus
  obtain ⟨u, us', rfl, rfl, -⟩ := List.map_eq_cons_iff.1 hus
  exact ⟨u, us', rfl, hp⟩

theorem operand_unary (sub : Nat → Parser Expr) (h : isPrefixOperator s.current.kind = true) :
    (operand sub).run s =
      (.unary s.current ((sub prefixLevel).run s.advance).1,
        ((sub prefixLevel).run s.advance).2) := by
  rw [operand, Parser.run_bind]
  cases hkind : s.current.kind with
  | hash | minus | plus | less | greater | dot | atSign =>
    rw [show (current.run s).1.kind = _ from hkind]
    rfl
  | _ =>
    rw [hkind] at h
    cases h

theorem readsBack_unary {op : Token} (hop : isPrefixOperator op.kind = true)
    (he : Printable ref room e) (hbare : e.operator? = none) (ih : ReadsBack rules room e) :
    ReadsBack rules (room + 1) (.unary op e) := by
  refine readsBack_of_operand fun s t ts next rest hpieces hgrip => ?_
  rw [Expr.pieces] at hpieces
  obtain ⟨ht, hts⟩ := List.cons.inj hpieces
  obtain ⟨u, us, rfl, -⟩ := he.exists_tokens hts
  have hinner : level next.kind ≤ grip e := by
    cases e with
    | binary => cases hbare
    | unary => exact hgrip
    | _ => exact level_le _
  have hlevel : ∀ n ∈ e.level?, prefixLevel < n := by
    intro n hn
    cases e with
    | binary => cases hbare
    | _ => cases hn
  obtain ⟨e', last, hshape, hrun⟩ := ih.run s rest hts hinner hlevel
    prefixLevel_lt hgrip
  refine ⟨.unary t e', last, ?_, ?_⟩
  · show Expr.Shape.unary t.literal e'.shape = .unary op.literal e.shape
    rw [hshape, Token.literal_of_piece ht]
  · have hkind : (s.moved t (u :: (us ++ next :: rest))).current.kind = op.kind :=
      Token.kind_of_piece ht
    rw [List.cons_append, operand_unary _ (by rw [hkind]; exact hop), advance_moved, hrun]
    rfl

theorem operatorTail_binary (sub : Nat → Parser Expr) (left : Expr)
    (h : s.current.kind ≠ .leftParen) :
    (operatorTail sub left).run s =
      (.binary s.current left ((sub (level s.current.kind)).run s.advance).1,
        ((sub (level s.current.kind)).run s.advance).2) := by
  rw [operatorTail, Parser.run_bind, if_neg (show ¬(current.run s).1.kind = _ from h)]
  rfl

theorem operatorTail_call (sub : Nat → Parser Expr) (left : Expr)
    (h : s.current.kind = .leftParen) :
    (operatorTail sub left).run s =
      (.call s.current left ((arguments (sub lowest)).run s).1,
        ((arguments (sub lowest)).run s).2) := by
  rw [operatorTail, Parser.run_bind, if_pos (show (current.run s).1.kind = _ from h)]
  rfl

/-- The operator behind an operand, which binds stronger than asked for. -/
theorem operators_turn {sub : Nat → Parser Expr} (he : e.isMissing = false)
    (hlowest : lowest < level next.kind) (hlevel : least < level next.kind) :
    (operators sub least e).run (s.moved t (next :: rest)) =
      (operators sub least ((operatorTail sub e).run (s.moved next rest)).1).run
        ((operatorTail sub e).run (s.moved next rest)).2 := by
  have hend : next.kind ≠ .endOfText := by
    intro hend
    rw [hend] at hlowest
    exact Nat.lt_irrefl _ hlowest
  rw [operators_cons rfl, if_pos ⟨by rw [he]; rfl, hend, hlevel⟩]
  rfl

theorem readsBack_binary {op : Token} {l r : Expr} (hlowest : lowest < level op.kind)
    (hlevel : level op.kind < prefixLevel) (hl : Printable ref (room + 1) l)
    (hr : Printable ref room r) (hleft : ∀ n ∈ l.level?, level op.kind ≤ n)
    (hright : ∀ n ∈ r.level?, level op.kind < n) (ihl : ReadsBack rules (room + 1) l)
    (ihr : ReadsBack rules room r) : ReadsBack rules (room + 1) (.binary op l r) := by
  intro s t ts next rest least hpieces hgrip habove hleast
  have habove : least < level op.kind := habove _ rfl
  rw [Expr.pieces] at hpieces
  obtain ⟨xs, ys, hsplit, hxs, hys⟩ := List.map_eq_append_iff.1 hpieces
  obtain ⟨u, us, rfl, hu, hus⟩ := List.map_eq_cons_iff.1 hys
  obtain ⟨x, xs, rfl, -⟩ := hl.exists_tokens hxs
  obtain ⟨v, vs, rfl, -⟩ := hr.exists_tokens hus
  obtain ⟨rfl, rfl⟩ := List.cons.inj (hsplit.trans (List.cons_append ..))
  have hkind : u.kind = op.kind := Token.kind_of_piece hu
  have hliteral : u.literal = op.literal := Token.literal_of_piece hu
  -- The left operand reaches up to the operator, which binds no stronger than it allows.
  have hgripLeft : level u.kind ≤ grip l := by
    rw [hkind]
    cases l with
    | binary => exact hleft _ rfl
    | unary => exact Nat.le_of_lt hlevel
    | _ => exact level_le _
  obtain ⟨l', last, hshapeLeft, hrunLeft⟩ := ihl s t xs u (v :: vs ++ next :: rest) least hxs
    hgripLeft (fun n hn => Nat.lt_of_lt_of_le habove (hleft n hn)) hleast
  -- What ends the whole ends the right operand too.
  have hgripRight : level next.kind ≤ grip r := by
    cases r with
    | binary => exact Nat.le_trans hgrip (Nat.le_of_lt (hright _ rfl))
    | unary => exact Nat.le_trans hgrip (Nat.le_of_lt hlevel)
    | _ => exact level_le _
  obtain ⟨r', last', hshapeRight, hrunRight⟩ := ihr.run s rest hus hgripRight
    hright (Nat.lt_trans hlevel prefixLevel_lt) hgrip
  have hmissing : l'.isMissing = false := by rw [isMissing_of_shape hshapeLeft, hl.isMissing]
  have htail : (operatorTail (expression rules room) l').run
      (s.moved u (v :: vs ++ next :: rest)) = (.binary u l' r', s.moved last' (next :: rest)) := by
    have hparen : u.kind ≠ .leftParen := by
      intro hparen
      rw [← hkind, hparen] at hlevel
      exact absurd hlevel (by decide)
    rw [operatorTail_binary _ _ hparen]
    show (Expr.binary u l' ((expression rules room (level u.kind)).run
      (s.moved v (vs ++ next :: rest))).1, ((expression rules room (level u.kind)).run
      (s.moved v (vs ++ next :: rest))).2) = _
    rw [hkind, hrunRight]
  refine ⟨.binary u l' r', last', ?_, ?_⟩
  · show Expr.Shape.binary u.literal l'.shape r'.shape = .binary op.literal l.shape r.shape
    rw [hliteral, hshapeLeft, hshapeRight]
  · have htokens : xs ++ u :: v :: vs ++ next :: rest = xs ++ u :: (v :: vs ++ next :: rest) := by
      rw [List.append_assoc, List.cons_append]
    rw [htokens, hrunLeft, Nat.add_sub_cancel,
      operators_turn hmissing (hkind ▸ hlowest) (hkind ▸ habove), htail]

/-! ### Groups -/

theorem lowest_le_grip (e : Expr) : lowest ≤ grip e := by
  cases e with
  | binary => exact lowest_le_level _
  | _ => exact of_decide_eq_true rfl

theorem Printable.lowest_lt (h : Printable ref room e) : ∀ n ∈ e.level?, lowest < n := by
  cases h with
  | binary hlowest => exact fun n hn => Option.some.inj hn ▸ hlowest
  | _ => exact fun n hn => nomatch hn

/-- An expression between marks: the closing one, or a comma, ends it whatever it is. -/
theorem ReadsBack.inner (h : ReadsBack rules room e) (he : Printable ref room e) (s : State)
    (t : Token) (rest : List Token) (hus : us.map Token.piece = e.pieces)
    (hnext : level next.kind = lowest) :
    ∃ e' last, e'.shape = e.shape ∧
      (expression rules room lowest).run (s.moved t (us ++ next :: rest)).advance =
        (e', s.moved last (next :: rest)) := by
  obtain ⟨u, us, rfl, -⟩ := he.exists_tokens hus
  exact h.run s rest hus (hnext ▸ lowest_le_grip e) he.lowest_lt (of_decide_eq_true rfl)
    (Nat.le_of_eq hnext)

theorem exists_between {ts : List Token} {opening closing : Piece} {ps : List Piece}
    (h : (t :: ts).map Token.piece = opening :: (ps ++ [closing])) :
    t.piece = opening ∧ ∃ us c, ts = us ++ [c] ∧ us.map Token.piece = ps ∧ c.piece = closing := by
  obtain ⟨ht, hts⟩ := List.cons.inj h
  obtain ⟨us, cs, rfl, hus, hcs⟩ := List.map_eq_append_iff.1 hts
  obtain ⟨c, ds, rfl, hc, hds⟩ := List.map_eq_cons_iff.1 hcs
  cases List.map_eq_nil_iff.1 hds
  exact ⟨ht, us, c, rfl, hus, hc⟩

section Marks

variable {sub : Parser Expr} {opening last c d : Token} {s : State} {inner : Expr}
  {rest : List Token}

theorem nextIs_true (hc : c.kind = kind) :
    ((nextIs kind).run (s.moved last (c :: rest))).1 = true := by
  show (c.kind == kind) = true
  rw [hc, beq_self_eq_true]

theorem nextIs_false (hc : c.kind ≠ kind) :
    ¬((nextIs kind).run (s.moved last (c :: rest))).1 = true := by
  show ¬(c.kind == kind) = true
  rwa [beq_iff_eq]

theorem bracketed_run (hinner : sub.run s.advance = (inner, s.moved last (c :: rest)))
    (hc : c.kind = .rightBracket) :
    (bracketed sub opening).run s = (.group opening inner, s.moved c rest) := by
  rw [bracketed, Parser.run_bind, Parser.run_bind, show (advance.run s).2 = s.advance from rfl,
    hinner, Parser.run_bind, if_pos (nextIs_true hc)]
  rfl

theorem grouped_run (hinner : sub.run s.advance = (inner, s.moved last (c :: rest)))
    (hc : c.kind = .rightParen) :
    (grouped sub opening).run s = (.group opening inner, s.moved c rest) := by
  have hcomma : c.kind ≠ .comma := by
    rw [hc]
    exact TokenKind.noConfusion
  rw [grouped, Parser.run_bind, Parser.run_bind, show (advance.run s).2 = s.advance from rfl,
    hinner, Parser.run_bind, if_neg (nextIs_false hcomma), Parser.run_bind]
  show Parser.run (if ((nextIs .rightParen).run (s.moved last (c :: rest))).1 = true then _ else _)
    (s.moved last (c :: rest)) = _
  rw [if_pos (nextIs_true hc)]
  rfl

theorem grouped_indexed
    (hinner : sub.run s.advance = (inner, s.moved last (c :: register :: d :: rest)))
    (hc : c.kind = .comma) (hregister : isIndexRegister register = true)
    (hd : d.kind = .rightParen) :
    (grouped sub opening).run s =
      (.group opening (.indexed c inner register), s.moved d rest) := by
  rw [grouped, Parser.run_bind, Parser.run_bind, show (advance.run s).2 = s.advance from rfl,
    hinner, Parser.run_bind, if_pos (nextIs_true hc), Parser.run_bind, Parser.run_bind]
  show Parser.run (if isIndexRegister register = true then _ else _)
    (s.moved c (register :: d :: rest)) = _
  rw [if_pos hregister, Parser.run_bind, Parser.run_bind]
  show Parser.run
    (if ((nextIs .rightParen).run (s.moved register (d :: rest))).1 = true then _ else _)
    (s.moved register (d :: rest)) = _
  rw [if_pos (nextIs_true hd)]
  rfl

end Marks

theorem readsBack_brackets (hopening : opening.kind = .leftBracket)
    (hliteral : opening.literal = "[") (he : Printable ref room e) (ih : ReadsBack rules room e) :
    ReadsBack rules (room + 1) (.group opening e) := by
  refine readsBack_of_operand fun s t ts next rest hpieces _ => ?_
  rw [Expr.pieces, if_pos hopening] at hpieces
  obtain ⟨ht, us, c, rfl, hus, hc⟩ := exists_between hpieces
  have hkind : t.kind = .leftBracket := Token.kind_of_piece ht
  have hclosing : c.kind = .rightBracket := Token.kind_of_piece hc
  obtain ⟨e', last, hshape, hrun⟩ := ih.inner he s t (next :: rest) hus
    (by rw [hclosing]; rfl)
  refine ⟨.group t e', c, ?_, ?_⟩
  · show Expr.Shape.group t.literal e'.shape = .group opening.literal e.shape
    rw [hshape, hliteral, Token.literal_of_piece ht]
  · rw [List.append_assoc, List.singleton_append, operand, Parser.run_bind,
      show (current.run (s.moved t (us ++ c :: next :: rest))).1.kind = .leftBracket from hkind]
    exact bracketed_run hrun hclosing

theorem readsBack_parens (hopening : opening.kind = .leftParen) (hliteral : opening.literal = "(")
    (he : Printable ref room e) (ih : ReadsBack rules room e) :
    ReadsBack rules (room + 1) (.group opening e) := by
  refine readsBack_of_operand fun s t ts next rest hpieces _ => ?_
  rw [Expr.pieces, hopening, if_neg TokenKind.noConfusion] at hpieces
  obtain ⟨ht, us, c, rfl, hus, hc⟩ := exists_between hpieces
  have hkind : t.kind = .leftParen := Token.kind_of_piece ht
  have hclosing : c.kind = .rightParen := Token.kind_of_piece hc
  obtain ⟨e', last, hshape, hrun⟩ := ih.inner he s t (next :: rest) hus
    (by rw [hclosing]; rfl)
  refine ⟨.group t e', c, ?_, ?_⟩
  · show Expr.Shape.group t.literal e'.shape = .group opening.literal e.shape
    rw [hshape, hliteral, Token.literal_of_piece ht]
  · rw [List.append_assoc, List.singleton_append, operand, Parser.run_bind,
      show (current.run (s.moved t (us ++ c :: next :: rest))).1.kind = .leftParen from hkind]
    exact grouped_run hrun hclosing

/-- The name of an index register is one as well. -/
theorem isIndexRegister_of_name (h : isIndexRegister register = true)
    (ht : t.piece = (.identifier, Expr.registerName register)) :
    isIndexRegister t = true ∧ Expr.registerName t = Expr.registerName register := by
  have hx : Text.upper "X" = "X" := by decide +kernel
  have hy : Text.upper "Y" = "Y" := by decide +kernel
  have hkind : t.kind = .identifier := Token.kind_of_piece ht
  have hliteral : t.literal = Expr.registerName register := Token.literal_of_piece ht
  simp only [isIndexRegister, Bool.and_eq_true, Bool.or_eq_true, beq_iff_eq] at h ⊢
  have hname : Expr.registerName t = Expr.registerName register := by
    rcases h.2 with hregister | hregister
    · rw [Expr.registerName, hliteral, hregister, hx]
    · rw [Expr.registerName, hliteral, hregister, hy]
  exact ⟨⟨hkind, hname ▸ h.2⟩, hname⟩

theorem readsBack_indexed {comma : Token} (hopening : opening.kind = .leftParen)
    (hliteral : opening.literal = "(") (he : Printable ref room e)
    (hregister : isIndexRegister register = true) (ih : ReadsBack rules room e) :
    ReadsBack rules (room + 1) (.group opening (.indexed comma e register)) := by
  refine readsBack_of_operand fun s t ts next rest hpieces _ => ?_
  rw [Expr.pieces, hopening, if_neg TokenKind.noConfusion, Expr.pieces] at hpieces
  obtain ⟨ht, us, c, rfl, hus, hc⟩ := exists_between hpieces
  obtain ⟨us, vs, rfl, hinner, hvs⟩ := List.map_eq_append_iff.1 hus
  obtain ⟨x, vs, rfl, hx, hvs⟩ := List.map_eq_cons_iff.1 hvs
  obtain ⟨y, vs, rfl, hy, hvs⟩ := List.map_eq_cons_iff.1 hvs
  cases List.map_eq_nil_iff.1 hvs
  have hkind : t.kind = .leftParen := Token.kind_of_piece ht
  have hclosing : c.kind = .rightParen := Token.kind_of_piece hc
  have hcomma : x.kind = .comma := Token.kind_of_piece hx
  obtain ⟨hindex, hname⟩ := isIndexRegister_of_name hregister hy
  obtain ⟨e', last, hshape, hrun⟩ := ih.inner he s t (y :: c :: next :: rest) hinner
    (by rw [hcomma]; rfl)
  refine ⟨.group t (.indexed x e' y), c, ?_, ?_⟩
  · show Expr.Shape.group t.literal (.indexed e'.shape (Expr.registerName y)) =
      .group opening.literal (.indexed e.shape (Expr.registerName register))
    rw [hshape, hliteral, hname, Token.literal_of_piece ht]
  · have htokens : us ++ [x, y] ++ [c] ++ next :: rest = us ++ x :: y :: c :: next :: rest := by
      simp
    rw [htokens, operand, Parser.run_bind,
      show (current.run (s.moved t (us ++ x :: y :: c :: next :: rest))).1.kind = .leftParen
        from hkind]
    exact grouped_indexed hrun hcomma hindex hclosing

/-! ### Arguments -/

/-- The tokens of expressions behind a first one, each with a comma before it. -/
def piecesBehind (es : List Expr) : List Piece :=
  es.flatMap fun x => (.comma, ",") :: x.pieces

theorem piecesAll_cons (e : Expr) (es : List Expr) :
    Expr.piecesAll (e :: es) = e.pieces ++ piecesBehind es := by
  induction es generalizing e with
  | nil => rw [Expr.piecesAll, piecesBehind, List.flatMap_nil, List.append_nil]
  | cons x es ih =>
    rw [Expr.piecesAll, ih, piecesBehind, piecesBehind, List.flatMap_cons, List.cons_append]

theorem startsOperand_ne (h : startsOperand kind = true) : kind ≠ .rightParen := by
  rintro rfl
  cases h

def nextArgument (sub : Parser Expr) : Parser (Option (List Expr)) := do
  let t ← advance
  if t.kind = .rightParen then return none
  else
    let e ← sub
    return some e.toList

theorem nextArgument_run {sub : Parser Expr} {s' : State} {u : Token} {ahead : List Token}
    (hu : startsOperand u.kind = true) (hrun : sub.run (s.moved u ahead) = (e, s')) :
    (nextArgument sub).run (s.moved c (u :: ahead)) = (some e.toList, s') := by
  rw [nextArgument, Parser.run_bind]
  show Parser.run (if u.kind = .rightParen then _ else _) (s.moved u ahead) = _
  rw [if_neg (startsOperand_ne hu), Parser.run_bind, hrun]
  rfl

/-- What is behind an argument: a comma, or what is behind all of them. -/
theorem exists_next {es : List Expr} (rest : List Token)
    (hus : us.map Token.piece = piecesBehind es) (hnext : level next.kind = lowest) :
    ∃ n r, us ++ next :: rest = n :: r ∧ level n.kind = lowest := by
  cases es with
  | nil =>
    cases List.map_eq_nil_iff.1 hus
    exact ⟨next, rest, rfl, hnext⟩
  | cons x es =>
    rw [piecesBehind, List.flatMap_cons, List.cons_append] at hus
    obtain ⟨c, us, rfl, hc, -⟩ := List.map_eq_cons_iff.1 hus
    refine ⟨c, us ++ next :: rest, rfl, ?_⟩
    rw [Token.kind_of_piece hc]
    rfl

/-- The arguments behind the first one, up to a token that is no comma. -/
theorem whileNext_arguments {es : List Expr} (hes : ∀ x ∈ es, Printable ref room x)
    (ih : ∀ x ∈ es, ReadsBack rules room x) (s : State) (t : Token) (rest : List Token)
    (hus : us.map Token.piece = piecesBehind es) (hnext : level next.kind = lowest)
    (hcomma : next.kind ≠ .comma) :
    ∃ es' last, Expr.shapes es' = Expr.shapes es ∧
      (whileNext .comma (nextArgument (expression rules room lowest))).run
          (s.moved t (us ++ next :: rest)) =
        ((es', false), s.moved last (next :: rest)) := by
  induction es generalizing t us with
  | nil =>
    cases List.map_eq_nil_iff.1 hus
    refine ⟨[], t, rfl, ?_⟩
    rw [List.nil_append, whileNext_cons rfl, if_neg hcomma]
  | cons x es ihes =>
    rw [piecesBehind, List.flatMap_cons] at hus
    obtain ⟨vs, ws, rfl, hvs, hws⟩ := List.map_eq_append_iff.1 hus
    obtain ⟨c, vs, rfl, hc, hvs⟩ := List.map_eq_cons_iff.1 hvs
    have hx := hes x List.mem_cons_self
    obtain ⟨v, vs, rfl, hv⟩ := hx.exists_tokens hvs
    obtain ⟨n, r, hrest, hn⟩ := exists_next rest hws hnext
    obtain ⟨x', last, hshape, hrun⟩ := (ih x List.mem_cons_self).inner hx s c r hvs hn
    obtain ⟨es', stop, hshapes, hmore⟩ := ihes
      (fun y hy => hes y (List.mem_cons_of_mem x hy)) (fun y hy => ih y (List.mem_cons_of_mem x hy))
      last hws
    have htokens : c :: v :: vs ++ ws ++ next :: rest = c :: v :: (vs ++ n :: r) := by
      rw [List.append_assoc, hrest, List.cons_append, List.cons_append]
    have hbody : (nextArgument (expression rules room lowest)).run
        (s.moved c (v :: (vs ++ n :: r))) = (some x'.toList, s.moved last (n :: r)) :=
      nextArgument_run hv hrun
    refine ⟨x' :: es', stop, ?_, ?_⟩
    · rw [Expr.shapes, Expr.shapes, hshape, hshapes]
    · rw [htokens, whileNext_cons rfl, if_pos (Token.kind_of_piece hc), advance_moved, hbody,
        toList_of_shape hshape hx.isMissing]
      dsimp only
      rw [← hrest, hmore]
      rfl

theorem arguments_some {sub : Parser Expr} {m : State} {last : Token} {first : Expr}
    {more : List Expr} (hnext : s.peek.kind ≠ .rightParen) (hfirst : sub.run s.advance = (first, m))
    (hmore : (whileNext .comma (nextArgument sub)).run m =
      ((more, false), s.moved last (c :: rest))) (hc : c.kind = .rightParen) :
    (arguments sub).run s = (first.toList ++ more, s.moved c rest) := by
  unfold nextArgument at hmore
  have hopen : ¬((nextIs .rightParen).run s).1 = true := by
    show ¬(s.peek.kind == .rightParen) = true
    rwa [beq_iff_eq]
  rw [arguments, Parser.run_bind, if_neg hopen, Parser.run_bind, Parser.run_bind,
    show (advance.run ((nextIs .rightParen).run s).2).2 = s.advance from rfl, hfirst,
    Parser.run_bind, hmore]
  show Parser.run (if ((nextIs .rightParen).run (s.moved last (c :: rest))).1 = true then _ else _)
    (s.moved last (c :: rest)) = _
  rw [if_pos (nextIs_true hc)]
  rfl

theorem arguments_run (hargs : ∀ x ∈ args, Printable ref room x)
    (ih : ∀ x ∈ args, ReadsBack rules room x) (s : State) (t : Token) (rest : List Token)
    (hus : us.map Token.piece = Expr.piecesAll args) (hc : c.kind = .rightParen) :
    ∃ args', Expr.shapes args' = Expr.shapes args ∧
      (arguments (expression rules room lowest)).run (s.moved t (us ++ c :: rest)) =
        (args', s.moved c rest) := by
  cases args with
  | nil =>
    cases List.map_eq_nil_iff.1 hus
    refine ⟨[], rfl, ?_⟩
    rw [List.nil_append, arguments, Parser.run_bind, if_pos (nextIs_true hc)]
    rfl
  | cons x es =>
    rw [piecesAll_cons] at hus
    obtain ⟨vs, ws, rfl, hvs, hws⟩ := List.map_eq_append_iff.1 hus
    have hx := hargs x List.mem_cons_self
    obtain ⟨v, vs, rfl, hv⟩ := hx.exists_tokens hvs
    have hclosing : level c.kind = lowest := by
      rw [hc]
      rfl
    obtain ⟨n, r, hrest, hn⟩ := exists_next rest hws hclosing
    obtain ⟨x', last, hshape, hrun⟩ := (ih x List.mem_cons_self).inner hx s t r hvs hn
    have hcomma : c.kind ≠ .comma := by
      rw [hc]
      exact TokenKind.noConfusion
    obtain ⟨es', stop, hshapes, hmore⟩ := whileNext_arguments
      (fun y hy => hargs y (List.mem_cons_of_mem x hy))
      (fun y hy => ih y (List.mem_cons_of_mem x hy)) s last rest hws hclosing hcomma
    have htokens : v :: vs ++ ws ++ c :: rest = v :: vs ++ n :: r := by
      rw [List.append_assoc, hrest]
    refine ⟨x' :: es', ?_, ?_⟩
    · rw [Expr.shapes, Expr.shapes, hshape, hshapes]
    · rw [hrest] at hmore
      have hread := arguments_some (s := s.moved t (v :: vs ++ n :: r)) (startsOperand_ne hv) hrun
        hmore hc
      rw [htokens, hread, toList_of_shape hshape hx.isMissing]
      rfl

/-! ### Calls -/

theorem exists_arguments
    (h : us.map Token.piece =
      (.leftParen, "(") :: (Expr.piecesAll args ++ [(.rightParen, ")")])) :
    ∃ paren vs c, us = paren :: (vs ++ [c]) ∧ paren.kind = .leftParen ∧
      vs.map Token.piece = Expr.piecesAll args ∧ c.kind = .rightParen := by
  obtain ⟨paren, us, rfl, -⟩ := List.map_eq_cons_iff.1 h
  obtain ⟨hparen, vs, c, rfl, hvs, hc⟩ := exists_between h
  exact ⟨paren, vs, c, rfl, Token.kind_of_piece hparen, hvs, Token.kind_of_piece hc⟩

theorem readsBack_builtin {name : Token} (ht : ∃ cls, name.kind = .function cls)
    (hargs : ∀ x ∈ args, Printable ref room x) (ih : ∀ x ∈ args, ReadsBack rules room x) :
    ReadsBack rules (room + 1) (.call name (.ofName name) args) := by
  refine readsBack_of_operand fun s t ts next rest hpieces _ => ?_
  obtain ⟨ht', hts⟩ := List.cons.inj hpieces
  obtain ⟨paren, vs, c, rfl, hparen, hvs, hc⟩ := exists_arguments hts
  obtain ⟨cls, ht⟩ := ht
  have hkind : t.kind = .function cls := (Token.kind_of_piece ht').trans ht
  obtain ⟨args', hshapes, hrun⟩ := arguments_run hargs ih s paren (next :: rest) hvs hc
  refine ⟨.call t (.ofName t) args', c, ?_, ?_⟩
  · show Expr.Shape.call (.identifier t.literal) (Expr.shapes args') =
      .call (.identifier name.literal) (Expr.shapes args)
    rw [hshapes, Token.literal_of_piece ht']
  · have htokens : paren :: (vs ++ [c]) ++ next :: rest = paren :: (vs ++ c :: next :: rest) := by
      simp
    rw [htokens, operand, Parser.run_bind,
      show (current.run (s.moved t (paren :: (vs ++ c :: next :: rest)))).1.kind = _ from hkind]
    dsimp only
    rw [builtinCall, Parser.run_bind]
    show Parser.run (if ((nextIs .leftParen).run
      (s.moved t (paren :: (vs ++ c :: next :: rest)))).1 = true then _ else _)
      (s.moved t (paren :: (vs ++ c :: next :: rest))) = _
    rw [if_pos (nextIs_true hparen), Parser.run_bind, Parser.run_bind]
    show (Expr.call t (.ofName t) ((arguments (expression rules room lowest)).run
      (s.moved paren (vs ++ c :: next :: rest))).1, ((arguments (expression rules room lowest)).run
      (s.moved paren (vs ++ c :: next :: rest))).2) = _
    rw [hrun]

theorem readsBack_call {f : Expr} (hf : Printable ref (room + 1) f) (hbare : f.operator? = none)
    (hunary : ∀ op e, f ≠ .unary op e) (hargs : ∀ x ∈ args, Printable ref room x)
    (ihf : ReadsBack rules (room + 1) f) (ih : ∀ x ∈ args, ReadsBack rules room x) :
    ReadsBack rules (room + 1) (.call t f args) := by
  intro s u ts next rest least hpieces _ _ hleast
  rw [Expr.pieces] at hpieces
  obtain ⟨xs, ys, hsplit, hxs, hys⟩ := List.map_eq_append_iff.1 hpieces
  obtain ⟨paren, vs, c, rfl, hparen, hvs, hc⟩ := exists_arguments hys
  obtain ⟨x, xs, rfl, -⟩ := hf.exists_tokens hxs
  obtain ⟨rfl, rfl⟩ := List.cons.inj (hsplit.trans (List.cons_append ..))
  have hgrip : level paren.kind ≤ grip f := by
    cases f with
    | binary => cases hbare
    | unary op e => exact absurd rfl (hunary op e)
    | _ => exact level_le _
  have hlevel : ∀ n ∈ f.level?, least < n := by
    intro n hn
    cases f with
    | binary => cases hbare
    | _ => cases hn
  obtain ⟨f', last, hshape, hrun⟩ := ihf s u xs paren (vs ++ c :: next :: rest) least hxs hgrip
    hlevel hleast
  obtain ⟨args', hshapes, hrunArgs⟩ := arguments_run hargs ih s paren (next :: rest) hvs hc
  have hmissing : f'.isMissing = false := by rw [isMissing_of_shape hshape, hf.isMissing]
  have htail : (operatorTail (expression rules room) f').run
      (s.moved paren (vs ++ c :: next :: rest)) =
        (.call paren f' args', s.moved c (next :: rest)) := by
    rw [operatorTail_call _ _ hparen, hrunArgs]
    rfl
  refine ⟨.call paren f' args', c, ?_, ?_⟩
  · show Expr.Shape.call f'.shape (Expr.shapes args') = .call f.shape (Expr.shapes args)
    rw [hshape, hshapes]
  · have htokens : xs ++ paren :: (vs ++ [c]) ++ next :: rest =
        xs ++ paren :: (vs ++ c :: next :: rest) := by
      simp
    have hstrong : least < level paren.kind := by
      rw [hparen]
      exact hleast
    have habove : lowest < level paren.kind := by
      rw [hparen]
      exact of_decide_eq_true rfl
    rw [htokens, hrun, Nat.add_sub_cancel, operators_turn hmissing habove hstrong, htail]

/-- **The tokens of a printable expression are read as an expression of its shape.** -/
theorem readsBack_printable (h : Printable ref room e) : ReadsBack rules room e := by
  induction h with
  | name ht hv => exact readsBack_name ht
  | integer ht hn hv => exact readsBack_integer ht hn
  | string ht hliteral hclosed => exact readsBack_string ht
  | programCounter ht => exact readsBack_programCounter _
  | unary hop hhash hv he hbare hfuse ih => exact readsBack_unary hop he hbare ih
  | binary hlowest hlevel hv hl hr hleft hright ihl ihr =>
    exact readsBack_binary hlowest hlevel hl hr hleft hright ihl ihr
  | group hopening hv he ih =>
    rcases hopening with hopening | hopening
    · exact readsBack_parens hopening (hv.spelled hopening rfl) he ih
    · exact readsBack_brackets hopening (hv.spelled hopening rfl) he ih
  | indexed hopening hv he hregister hr ih =>
    exact readsBack_indexed hopening (hv.spelled hopening rfl) he hregister ih
  | builtin ht hv hargs ih => exact readsBack_builtin ht hargs ih
  | call hf hbare hunary hargs ihf ihargs => exact readsBack_call hf hbare hunary hargs ihf ihargs

end Trees

end Asm6510.Grammar
