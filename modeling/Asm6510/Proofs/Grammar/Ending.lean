import Asm6510.Proofs.Grammar.Steps

/-!
# Two parses side by side

The same tokens are parsed twice. In the second parse the end of the text may stand elsewhere in its
line, or the bound of the nesting may be larger. The second parse then goes the same way: what it
finds differs only where the end of the text is named, unless the first one met the bound.

* `Ending`: the end of a text and where it is moved to; what that does to tokens, messages, blocks
  and states.
* `Pairing`, `Pairing.Linked`: two parses, and their states that belong together.
* `AbreastAt`, `Abreast`: two parsers that go the same way from two states, and from all that belong
  together. The first one takes steps, and its result is told.

There is one rule for each primitive parser, for a parser after another, and for each loop of the
grammar. What is said of one parse alone follows (`Abreast.along`).
-/

namespace Asm6510

variable {t : Token}

/-! ## The end of a text -/

/-- The end of a text, and where in its line it is moved to. -/
structure Ending where
  old : Place
  new : Place
  line_eq : new.line = old.line

namespace Ending

variable (e : Ending)

def place (p : Place) : Place :=
  if p = e.old then e.new else p

def token (t : Token) : Token :=
  { t with place := if t.kind = .endOfText then e.place t.place else t.place }

/-- A diagnostic when the end of the text is moved: those of the grammar that start there move
along. -/
def diagnostic (d : Diagnostic) : Diagnostic :=
  if d.source = Stage.grammar.label ∧ d.range.start = e.old.toPosition then
    { d with
      range := ⟨e.new.toPosition,
        ⟨d.range.stop.line, d.range.stop.character + (e.new.column - e.old.column)⟩⟩ }
  else
    d

mutual

/-- A statement when the end of the text is moved: it closes the blocks that are left open. -/
def statement : Statement → Statement
  | .directiveBlock d opening body closing =>
    .directiveBlock d opening (statements body) (e.token closing)
  | .block opening body closing => .block opening (statements body) (e.token closing)
  | .label t => .label t
  | .instruction t operand => .instruction t operand
  | .directive d => .directive d
  | .expression t v => .expression t v

def statements : List Statement → List Statement
  | [] => []
  | s :: rest => statement s :: statements rest

end

def braces (b : Braces) : Braces :=
  ⟨b.opening, e.statements b.body, e.token b.closing⟩

/-- A program when the end of the text is moved; it is the first token of an empty program. -/
def program (p : Program) : Program :=
  ⟨e.token p.start, e.statements p.statements⟩

theorem statements_eq_map (body : List Statement) : e.statements body = body.map e.statement := by
  induction body with
  | nil => rfl
  | cons s body ih => rw [statements, ih, List.map_cons]

@[simp] theorem token_kind (t : Token) : (e.token t).kind = t.kind := rfl

theorem place_line (p : Place) : (e.place p).line = p.line := by
  unfold place
  split
  · rename_i hp
    rw [hp, e.line_eq]
  · rfl

@[simp] theorem token_line (t : Token) : (e.token t).place.line = t.place.line := by
  simp only [token]
  split
  · exact e.place_line t.place
  · rfl

theorem token_of_ne (h : t.kind ≠ .endOfText) : e.token t = t := by
  simp only [token, if_neg h]

theorem toPosition_inj {p q : Place} (h : p.toPosition = q.toPosition) : p = q := by
  obtain ⟨line, column⟩ := p
  obtain ⟨line', column'⟩ := q
  simp only [Place.toPosition, Position.mk.injEq] at h
  rw [Place.mk.injEq]
  omega

theorem diagnostic_atPlace (severity : Severity) (message : String) (p : Place) (length : Nat) :
    e.diagnostic (.atPlace severity message p .grammar length) =
      .atPlace severity message (e.place p) .grammar length := by
  unfold diagnostic place
  by_cases hp : p = e.old
  · rw [if_pos ⟨rfl, congrArg Place.toPosition hp⟩, if_pos hp]
    have hline := e.line_eq
    subst hp
    simp only [Diagnostic.atPlace, Range.span, Place.toPosition, hline, Diagnostic.mk.injEq,
      Range.mk.injEq, Position.mk.injEq, true_and, and_true]
    omega
  · rw [if_neg hp, if_neg]
    rintro ⟨-, hstart⟩
    exact hp (toPosition_inj hstart)

theorem place_of_eq (h : e.new = e.old) (p : Place) : e.place p = p := by
  unfold place
  split
  · rename_i hp
    rw [hp, h]
  · rfl

theorem token_of_eq (h : e.new = e.old) (t : Token) : e.token t = t := by
  simp only [token, e.place_of_eq h, ite_self]

theorem diagnostic_of_eq (h : e.new = e.old) (d : Diagnostic) : e.diagnostic d = d := by
  unfold diagnostic
  split
  · rename_i hd
    obtain ⟨severity, ⟨start, stop⟩, message, source⟩ := d
    simp only at hd
    simp [h, hd.2]
  · rfl

mutual

theorem statement_of_eq (h : e.new = e.old) : (s : Statement) → e.statement s = s
  | .label _ => by rw [statement]
  | .instruction _ _ => by rw [statement]
  | .directive _ => by rw [statement]
  | .expression _ _ => by rw [statement]
  | .directiveBlock _ _ body _ => by rw [statement, statements_of_eq h body, e.token_of_eq h]
  | .block _ body _ => by rw [statement, statements_of_eq h body, e.token_of_eq h]

theorem statements_of_eq (h : e.new = e.old) : (body : List Statement) → e.statements body = body
  | [] => by rw [statements]
  | s :: rest => by rw [statements, statement_of_eq h s, statements_of_eq h rest]

end

end Ending

/-! ## Two parses -/

open Grammar

def Ending.state (e : Ending) (s : State) : State :=
  { s with
    current := e.token s.current
    ahead := s.ahead.map e.token
    diagnostics := s.diagnostics.map e.diagnostic }

/-- A token that is moved with its place: it is the end of the text, or stands elsewhere. -/
def Ending.Apart (e : Ending) (t : Token) : Prop :=
  (e.token t).place = e.place t.place

theorem Ending.Apart.place_eq {e : Ending} (h : e.Apart t) (ht : e.token t = t) :
    e.place t.place = t.place := by
  rw [← show (e.token t).place = e.place t.place from h, ht]

/-- An end of the text that stays where it is. -/
def Ending.still : Ending := ⟨Place.start, Place.start, rfl⟩

theorem Ending.still_token : Ending.still.token = id :=
  funext (Ending.still.token_of_eq rfl)

theorem Ending.still_state (s : State) : Ending.still.state s = s := by
  have hdiagnostic : Ending.still.diagnostic = id := funext (Ending.still.diagnostic_of_eq rfl)
  simp [Ending.state, Ending.still_token, hdiagnostic]

namespace Grammar

variable {src : Source} {rest : List Token}

/-- Two parses of the same tokens. In the second one the end of the text is moved, and the bound of
the nesting may be larger if `lossy`. Messages and flags are compared if `whole`. -/
structure Pairing where
  source : Source
  ending : Ending
  lossy : Bool
  whole : Bool
  /-- Nothing but the end of the text stands at its place. -/
  apart : ∀ t ∈ source.tokens, ending.Apart t

/-- Two parses of one text. -/
def Pairing.still (src : Source) (lossy whole : Bool) : Pairing where
  source := src
  ending := .still
  lossy := lossy
  whole := whole
  apart t _ := by rw [Ending.Apart, Ending.token_of_eq _ rfl, Ending.place_of_eq _ rfl]

/-- The state of the second parse belongs to the one of the first. -/
structure Pairing.Linked (w : Pairing) (s s' : State) : Prop where
  tokens : s'.tokens = s.tokens.map w.ending.token
  whole : w.whole = true → s' = w.ending.state s

section Linked

variable {w : Pairing} {s s' : State}

theorem linked_state (s : State) : w.Linked s (w.ending.state s) :=
  ⟨rfl, fun _ => rfl⟩

theorem linked_still {lossy whole : Bool} (s : State) :
    (Pairing.still src lossy whole).Linked s s :=
  ⟨by rw [show (Pairing.still src lossy whole).ending.token = id from Ending.still_token,
      List.map_id], fun _ => (Ending.still_state s).symm⟩

/-- Where only tokens are compared, states at the same tokens belong together. -/
theorem linked_of_tokens {lossy : Bool} (h : s'.tokens = s.tokens) :
    (Pairing.still src lossy false).Linked s s' := by
  refine ⟨?_, fun hw => nomatch hw⟩
  rw [h, show (Pairing.still src lossy false).ending.token = id from Ending.still_token,
    List.map_id]

namespace Pairing.Linked

theorem current (h : w.Linked s s') : s'.current = w.ending.token s.current :=
  (List.cons_eq_cons.1 h.tokens).1

theorem ahead (h : w.Linked s s') : s'.ahead = s.ahead.map w.ending.token :=
  (List.cons_eq_cons.1 h.tokens).2

theorem ahead_nil (h : w.Linked s s') (ha : s.ahead = []) : s'.ahead = [] := by
  rw [h.ahead, ha]
  rfl

theorem ahead_cons (h : w.Linked s s') (ha : s.ahead = t :: rest) :
    s'.ahead = w.ending.token t :: rest.map w.ending.token := by
  rw [h.ahead, ha]
  rfl

theorem peek (h : w.Linked s s') : s'.peek = w.ending.token s.peek := by
  unfold State.peek
  rw [h.ahead, h.current]
  cases s.ahead <;> rfl

theorem peekSecond (h : w.Linked s s') : s'.peekSecond = w.ending.token s.peekSecond := by
  unfold State.peekSecond
  rw [h.ahead, h.current]
  rcases s.ahead with _ | ⟨t, _ | ⟨u, rest⟩⟩ <;> rfl

/-- A change that leaves the tokens alone. -/
theorem keep (h : w.Linked s s') {r r' : State} (hr : r.tokens = s.tokens)
    (hr' : r'.tokens = s'.tokens) (hwhole : s' = w.ending.state s → r' = w.ending.state r) :
    w.Linked r r' :=
  ⟨by rw [hr, hr', h.tokens], fun hw => hwhole (h.whole hw)⟩

theorem advance (h : w.Linked s s') : w.Linked s.advance s'.advance := by
  cases ha : s.ahead with
  | nil => rwa [State.advance_of_nil ha, State.advance_of_nil (h.ahead_nil ha)]
  | cons t rest =>
    rw [State.advance_of_cons ha, State.advance_of_cons (h.ahead_cons ha)]
    refine ⟨rfl, fun hw => ?_⟩
    rw [h.whole hw]
    rfl

end Pairing.Linked

end Linked

/-- From `s`, and in the second parse from `s'`, `p` and `q` go the same way: `p` takes steps to a
result with `P`, and the result of `q` is `F` of that. Where the bound may differ, the latter is
said only as long as `p` has not reported it. -/
structure AbreastAt (w : Pairing) (again : Bool) {α : Type} (p q : Parser α) (F : α → α)
    (P : α → Prop) (s s' : State) : Prop where
  run : Run w.source again s (p.run s).2
  result : P (p.run s).1
  agree : w.lossy = true ∧ (p.run s).2.depthReported = true ∨
    (q.run s').1 = F (p.run s).1 ∧ w.Linked (p.run s).2 (q.run s').2

/-- Two parsers go the same way from all states that belong together. -/
def Abreast (w : Pairing) (again : Bool) {α : Type} (p q : Parser α) (F : α → α) (P : α → Prop) :
    Prop :=
  ∀ s s' : State, s.Within w.source → w.Linked s s' → AbreastAt w again p q F P s s'

section Rules

variable {w : Pairing} {again : Bool} {α β : Type} {p q : Parser α} {F : α → α} {P : α → Prop}
  {G : β → β} {Q : β → Prop} {s s' : State} {yes yes' : Token → Parser β} {message : String}
  {place : Place}

/-- What is said of the first parse alone. -/
theorem Abreast.along (h : Abreast w again p q F P) : Along w.source again p P := by
  intro s hs
  have hboth := h s _ hs (linked_state s)
  exact ⟨hboth.run, hboth.result⟩

theorem AbreastAt.bind {f g : α → Parser β} (hp : AbreastAt w again p q F P s s')
    (hf : P (p.run s).1 → ∀ r, w.Linked (p.run s).2 r →
      AbreastAt w again (f (p.run s).1) (g (F (p.run s).1)) G Q (p.run s).2 r) :
    AbreastAt w again (p >>= f) (q >>= g) G Q s s' := by
  have hmore := hf hp.result
  have hrest := hmore _ (linked_state _)
  refine ⟨hp.run.trans hrest.run, hrest.result, ?_⟩
  rcases hp.agree with ⟨hlossy, hlost⟩ | ⟨hresult, hlinked⟩
  · exact .inl ⟨hlossy, hrest.run.reported hlost⟩
  · rw [Parser.run_bind, Parser.run_bind, hresult]
    exact (hmore _ hlinked).agree

theorem Abreast.bind {f g : α → Parser β} (hp : Abreast w again p q F P)
    (hf : ∀ a, P a → Abreast w again (f a) (g (F a)) G Q) :
    Abreast w again (p >>= f) (q >>= g) G Q := by
  intro s s' hs h
  have hboth := hp s s' hs h
  exact hboth.bind fun ha r hr => hf _ ha _ r (hboth.run.within hs) hr

theorem AbreastAt.congr {m n : Parser α} (h : AbreastAt w again m n F P s s')
    (hp : p.run s = m.run s) (hq : q.run s' = n.run s') : AbreastAt w again p q F P s s' := by
  obtain ⟨hrun, hresult, hagree⟩ := h
  rw [← hp] at hrun hresult hagree
  rw [← hq] at hagree
  exact ⟨hrun, hresult, hagree⟩

theorem Abreast.congr {F' : α → α} (h : Abreast w again p q F P) (hF : ∀ a, F a = F' a) :
    Abreast w again p q F' P := by
  have hfun : F = F' := funext hF
  rw [← hfun]
  exact h

theorem Abreast.mono {P' : α → Prop} (h : Abreast w again p q F P) (hP : ∀ a, P a → P' a) :
    Abreast w again p q F P' := by
  intro s s' hs hlinked
  obtain ⟨hrun, hresult, hagree⟩ := h s s' hs hlinked
  exact ⟨hrun, hP _ hresult, hagree⟩

theorem Abreast.raise (h : Abreast w false p q F P) : Abreast w again p q F P := by
  intro s s' hs hlinked
  obtain ⟨hrun, hresult, hagree⟩ := h s s' hs hlinked
  exact ⟨hrun.raise again, hresult, hagree⟩

theorem abreastAt_look (h : w.Linked s s') (hp : (p.run s).2 = s) (hP : P (p.run s).1)
    (hq : q.run s' = (F (p.run s).1, s')) : AbreastAt w again p q F P s s' := by
  refine ⟨?_, hP, .inr ?_⟩
  · rw [hp]
  · rw [hp, hq]
    exact ⟨rfl, h⟩

theorem abreast_pure {a a' : α} (hF : a' = F a) (hP : P a) :
    Abreast w again (pure a) (pure a') F P := by
  intro s s' _ h
  subst hF
  exact abreastAt_look h rfl hP rfl

/-- A result that names no token which could be moved. -/
theorem abreast_same {a : α} (hP : P a) : Abreast w again (pure a) (pure a) id P :=
  abreast_pure rfl hP

theorem abreast_ite {c c' : Prop} [Decidable c] [Decidable c'] {p' q' : Parser α} (hc : c' ↔ c)
    (hyes : c → Abreast w again p q F P) (hno : ¬c → Abreast w again p' q' F P) :
    Abreast w again (if c then p else p') (if c' then q else q') F P := by
  by_cases h : c
  · rw [if_pos h, if_pos (hc.2 h)]
    exact hyes h
  · rw [if_neg h, if_neg fun h' => h (hc.1 h')]
    exact hno h

/-! ## Looking and moving on -/

theorem abreast_current :
    Abreast w again current current w.ending.token (· ∈ w.source.tokens) :=
  fun _ s' hs h =>
    abreastAt_look h rfl (State.current_mem hs) (congrArg (·, s') h.current)

theorem abreast_peek : Abreast w again peek peek w.ending.token (· ∈ w.source.tokens) :=
  fun _ s' hs h => abreastAt_look h rfl (State.peek_mem hs) (congrArg (·, s') h.peek)

theorem abreast_nextIs (kind : TokenKind) :
    Abreast w again (nextIs kind) (nextIs kind) id anything := by
  intro s s' _ h
  refine abreastAt_look h rfl trivial ?_
  show (s'.peek.kind == kind, s') = _
  rw [h.peek]
  rfl

theorem abreast_hasValueOnLine :
    Abreast w again hasValueOnLine hasValueOnLine id anything := by
  intro s s' _ h
  refine abreastAt_look h rfl trivial ?_
  show (s'.peek.place.line == s'.current.place.line && !endsStatement s'.peek, s') = _
  rw [h.peek, h.current, Ending.token_line, Ending.token_line]
  rfl

theorem abreast_advance :
    Abreast w again advance advance w.ending.token (· ∈ w.source.tokens) :=
  fun s _ hs h =>
    ⟨run_advance s, State.current_mem hs.advance, .inr ⟨h.advance.current, h.advance⟩⟩

/-- Moving onto a token that was looked at gives that token, which is not the end of the text. -/
theorem abreast_ifNext {cond : Token → Bool} {no no' : Token → Parser β}
    (hsame : ∀ t, cond (w.ending.token t) = cond t)
    (hend : ∀ t, cond t = true → t.kind ≠ .endOfText)
    (hyes : ∀ t ∈ w.source.tokens, cond t = true → Abreast w again (yes t) (yes' t) G Q)
    (hno : ∀ t ∈ w.source.tokens, Abreast w again (no t) (no' (w.ending.token t)) G Q) :
    Abreast w again (peek >>= fun next => if cond next then advance >>= yes else no next)
      (peek >>= fun next => if cond next then advance >>= yes' else no' next) G Q := by
  intro s s' hs h
  by_cases hcond : cond s.peek = true
  · refine AbreastAt.congr (m := advance >>= yes) (n := advance >>= yes') ?_ ?_ ?_
    · refine (abreast_advance s s' hs h).bind fun ht r hr => ?_
      have hcurrent : (advance.run s).1 = s.peek := State.advance_current s
      rw [hcurrent] at ht ⊢
      rw [w.ending.token_of_ne (hend _ hcond)]
      exact hyes _ ht hcond _ r hs.advance hr
    · show (if cond s.peek then advance >>= yes else no s.peek).run s = _
      rw [if_pos hcond]
    · show (if cond s'.peek then advance >>= yes' else no' s'.peek).run s' = _
      rw [h.peek, hsame, if_pos hcond]
  · refine AbreastAt.congr (hno _ (State.peek_mem hs) s s' hs h) ?_ ?_
    · show (if cond s.peek then advance >>= yes else no s.peek).run s = _
      rw [if_neg hcond]
    · show (if cond s'.peek then advance >>= yes' else no' s'.peek).run s' = _
      rw [h.peek, hsame, if_neg hcond]

theorem abreast_ifName {no no' : Token → Parser β}
    (hyes : ∀ t ∈ w.source.tokens, t.kind.isName = true → Abreast w again (yes t) (yes' t) G Q)
    (hno : ∀ t ∈ w.source.tokens, Abreast w again (no t) (no' (w.ending.token t)) G Q) :
    Abreast w again (peek >>= fun next => if next.kind.isName then advance >>= yes else no next)
      (peek >>= fun next => if next.kind.isName then advance >>= yes' else no' next) G Q := by
  refine abreast_ifNext (fun _ => rfl) (fun t ht hend => ?_) hyes hno
  rw [hend] at ht
  cases ht

theorem abreast_ifNextIs {kind : TokenKind} (hkind : kind ≠ .endOfText) {no no' : Parser β}
    (hyes : ∀ t ∈ w.source.tokens, t.kind = kind → Abreast w again (yes t) (yes' t) G Q)
    (hno : Abreast w again no no' G Q) :
    Abreast w again (nextIs kind >>= fun found => if found then advance >>= yes else no)
      (nextIs kind >>= fun found => if found then advance >>= yes' else no') G Q := by
  have hnext : Abreast w again
      (peek >>= fun next => if next.kind == kind then advance >>= yes else no)
      (peek >>= fun next => if next.kind == kind then advance >>= yes' else no') G Q := by
    refine abreast_ifNext (fun _ => rfl) ?_ ?_ fun _ _ => hno
    · intro t ht
      rw [beq_iff_eq.1 ht]
      exact hkind
    · intro t hin ht
      exact hyes t hin (beq_iff_eq.1 ht)
  exact hnext

/-! ## Messages and flags -/

/-- A step that changes messages and flags only. -/
theorem abreastAt_keep {p q : Parser Unit} (h : w.Linked s s')
    (hrun : Run w.source again s (p.run s).2) (hp : (p.run s).2.tokens = s.tokens)
    (hq : (q.run s').2.tokens = s'.tokens)
    (hwhole : s' = w.ending.state s → (q.run s').2 = w.ending.state (p.run s).2) :
    AbreastAt w again p q id anything s s' :=
  ⟨hrun, trivial, .inr ⟨rfl, h.keep hp hq hwhole⟩⟩

/-- A message of the grammar is added in both parses. -/
theorem ending_add (e : Ending) (s : State) (message : String) (place : Place) (length : Nat) :
    (e.state s).add (.atPlace .error message (e.place place) .grammar length) =
      e.state (s.add (.atPlace .error message place .grammar length)) := by
  simp only [State.add, Ending.state, List.map_append, List.map_singleton,
    e.diagnostic_atPlace]

theorem abreast_reportAt (ht : t ∈ w.source.tokens) (hm : Ordinary message) :
    Abreast w again (reportAt t message) (reportAt (w.ending.token t) message) id anything := by
  intro s s' hs h
  have hkeep : ∀ (t : Token) (s : State), ((reportAt t message).run s).2.tokens = s.tokens := by
    intro t s
    show (if s.unwinding then s else _).tokens = _
    split <;> rfl
  refine abreastAt_keep h (along_reportAt ht hm s hs).1 (hkeep t s) (hkeep _ s') ?_
  rintro rfl
  show (if s.unwinding then _ else _) = w.ending.state (if s.unwinding then s else _)
  split
  · rfl
  · rw [show (w.ending.token t).place = _ from w.apart t ht]
    exact ending_add w.ending s message t.place _

theorem abreast_reportHere (hm : Ordinary message) :
    Abreast w again (reportHere message) (reportHere message) id anything :=
  abreast_current.bind fun _ ht => abreast_reportAt ht hm

/-- What is not found is reported before something else is done. -/
theorem abreast_reportNext (hm : Ordinary message) (hp : Abreast w again p q F P) :
    Abreast w again (do reportNext message; p) (do reportNext message; q) F P :=
  (abreast_peek.bind fun _ ht => abreast_reportAt ht hm).bind fun _ _ => hp

theorem tokens_reportDepth (rules : Rules) (place : Place) (s : State) :
    ((reportDepth rules place).run s).2.tokens = s.tokens := by
  show (if s.depthReported then s else _).tokens = _
  split <;> rfl

theorem reportDepth_reported (rules : Rules) (place : Place) (s : State) :
    ((reportDepth rules place).run s).2.depthReported = true := by
  show (if s.depthReported then s else _).depthReported = true
  split
  · rename_i h
    exact h
  · rfl

theorem abreast_reportDepth (rules : Rules) (hp : w.source.Marks place) :
    Abreast w again (reportDepth rules place) (reportDepth rules (w.ending.place place)) id
      anything := by
  intro s s' hs h
  refine abreastAt_keep h (along_reportDepth rules hp s hs).1 (tokens_reportDepth rules _ s)
    (tokens_reportDepth rules _ s') ?_
  rintro rfl
  show (if s.depthReported then _ else _) = w.ending.state (if s.depthReported then s else _)
  split
  · rfl
  · exact congrArg (fun s : State => { s with depthReported := true })
      (ending_add w.ending s _ place _)

/-- The bound is reported and messages are silenced. -/
theorem abreast_unwind (rules : Rules) (hplace : w.source.Marks place)
    (hp : Abreast w again p q F P) :
    Abreast w again (do reportDepth rules place; setUnwinding true; p)
      (do reportDepth rules (w.ending.place place); setUnwinding true; q) F P := by
  intro s s' hs h
  have hreport : AbreastAt w again _ _ _ _ s s' := abreast_reportDepth rules hplace s s' hs h
  have hreported := reportDepth_reported rules place s
  refine hreport.bind fun _ r hr => ?_
  have hwithin := hreport.run.within hs
  generalize ((reportDepth rules place).run s).2 = s₁ at hreported hwithin hr ⊢
  have hunwind : AbreastAt w again (setUnwinding true) (setUnwinding true) id anything s₁ r := by
    refine abreastAt_keep hr (.single (.unwind hreported)) rfl rfl ?_
    rintro rfl
    rfl
  exact hunwind.bind fun _ r' hr' => hp _ r' (hunwind.run.within hwithin) hr'

/-- What begins with a report of the bound goes along with anything, where the bound may differ. -/
theorem abreast_lose (hlossy : w.lossy = true) (rules : Rules) (hplace : w.source.Marks place)
    {f : Unit → Parser α} (hf : Along w.source again (f ()) P) (any : Parser α) :
    Abreast w again (reportDepth rules place >>= f) any F P := by
  intro s s' hs _
  have hreport : Run w.source again s _ := (along_reportDepth rules hplace s hs).1
  obtain ⟨hrun, hresult⟩ := hf _ (hreport.within hs)
  exact ⟨hreport.trans hrun, hresult,
    .inl ⟨hlossy, hrun.reported (reportDepth_reported rules place s)⟩⟩

theorem abreast_resume : Abreast w true (setUnwinding false) (setUnwinding false) id anything := by
  intro s s' hs h
  refine abreastAt_keep h (along_resume s hs).1 rfl rfl ?_
  rintro rfl
  rfl

theorem abreast_noteUnbounded {radix : Radix} (ht : t ∈ w.source.tokens)
    (hk : t.kind = .number radix) (hv : numberValue radix t.literal = .unbounded) :
    Abreast w again noteUnbounded noteUnbounded id anything := by
  intro s s' hs h
  refine abreastAt_keep h (along_noteUnbounded ht hk hv s hs).1 rfl rfl ?_
  rintro rfl
  rfl

theorem tokens_checkMode (rules : Rules) (t : Token) (operand : Expr) (s : State) :
    ((checkMode rules t operand).run s).2.tokens = s.tokens := by
  unfold checkMode
  split
  · rfl
  · dsimp only
    split <;> rfl

theorem abreast_checkMode {rules rules' : Rules} (href : rules'.ref = rules.ref)
    (ht : t ∈ w.source.tokens) (hne : t.kind ≠ .endOfText) (operand : Expr) :
    Abreast w true (checkMode rules t operand) (checkMode rules' t operand) id anything := by
  intro s s' hs h
  refine abreastAt_keep h (along_checkMode rules ht operand s hs).1 (tokens_checkMode rules t _ s)
    (tokens_checkMode rules' t _ s') ?_
  rintro rfl
  unfold checkMode
  rw [href]
  split
  · rfl
  · dsimp only
    split
    · rfl
    · have hplace := (w.apart t ht).place_eq (w.ending.token_of_ne hne)
      have hadd := ending_add w.ending s
      simp only [addDiagnostic]
      rw [← hadd, hplace]

/-! ## Loops -/

/-- A turn of the loop over separators, as a parser. -/
theorem whileNext_run_of_kind {separator : TokenKind} {body : Parser (Option (List α))}
    (ha : s.ahead = t :: rest) (ht : t.kind = separator) :
    (whileNext separator body).run s =
      (advance >>= fun _ => body >>= fun
        | none => pure ([], true)
        | some items => whileNext separator body >>= fun more =>
          pure (items ++ more.1, more.2)).run s := by
  rw [whileNext_cons ha, if_pos ht]
  have hturn : advance.run s = (s.advance.current, s.advance) := rfl
  simp only [Parser.run_bind, hturn]
  cases (body.run s.advance).1 with
  | none => rfl
  | some items => rfl

theorem abreast_whileNext {separator : TokenKind} {body body' : Parser (Option (List α))}
    (hbody : Abreast w again body body' id fun r => ∀ items ∈ r, ∀ a ∈ items, P a) :
    Abreast w again (whileNext separator body) (whileNext separator body') id
      fun r => ∀ a ∈ r.1, P a := by
  intro s s' hs h
  have hnone : ∀ a ∈ ([] : List α), P a := fun a ha => absurd ha List.not_mem_nil
  induction s using State.left_induction generalizing s' with
  | _ s ih =>
    cases ha : s.ahead with
    | nil =>
      have hp : (whileNext separator body).run s = _ := whileNext_nil ha
      refine abreastAt_look h (by rw [hp]) (by rw [hp]; exact hnone) ?_
      rw [hp, whileNext_nil (h.ahead_nil ha)]
      rfl
    | cons t rest =>
      have ha' := h.ahead_cons ha
      by_cases ht : t.kind = separator
      · refine AbreastAt.congr ?_ (whileNext_run_of_kind ha ht) (whileNext_run_of_kind ha' ht)
        refine (abreast_advance s s' hs h).bind fun _ r hr => ?_
        have hitems := hbody s.advance r hs.advance hr
        refine hitems.bind fun hall r hr => ?_
        have hlt := Nat.lt_of_le_of_lt (body.left_le s.advance) (State.left_advance_lt ha)
        have hwithin := hitems.run.within hs.advance
        show AbreastAt w again (match (body.run s.advance).1 with
          | none => pure ([], true)
          | some items => whileNext separator body >>= fun more => pure (items ++ more.1, more.2))
          (match (body.run s.advance).1 with
          | none => pure ([], true)
          | some items => whileNext separator body' >>= fun more => pure (items ++ more.1, more.2))
          id (fun r => ∀ a ∈ r.1, P a) (body.run s.advance).2 r
        cases hone : (body.run s.advance).1 with
        | none => exact abreast_same (a := ([], true)) hnone _ r hwithin hr
        | some items =>
          have hmore := ih _ hlt r hwithin hr
          refine hmore.bind fun hrest r hr =>
            abreast_same (List.forall_mem_append.2 ⟨hall items hone, hrest⟩) _ r
              (hmore.run.within hwithin) hr
      · have ht' : ¬(w.ending.token t).kind = separator := ht
        have hp : (whileNext separator body).run s = _ := (whileNext_cons ha).trans (if_neg ht)
        refine abreastAt_look h (by rw [hp]) (by rw [hp]; exact hnone) ?_
        rw [hp, whileNext_cons ha', if_neg ht']
        rfl

/-- Skipping behind some open marks, as a parser. -/
def skipMarks (opening closing : TokenKind) (depth : Nat) : Parser Nat :=
  ⟨fun s => (skipNestedRun opening closing depth s).1,
    fun s => (skipNestedRun opening closing depth s).2⟩

theorem abreast_skipMarks (opening closing : TokenKind) (depth : Nat) :
    Abreast w again (skipMarks opening closing depth) (skipMarks opening closing depth) id
      anything := by
  intro s s' hs h
  induction s using State.left_induction generalizing s' depth with
  | _ s ih =>
    have hstay : (skipMarks opening closing depth).run s = (depth, s) →
        (skipMarks opening closing depth).run s' = (depth, s') →
        AbreastAt w again (skipMarks opening closing depth) (skipMarks opening closing depth) id
          anything s s' := by
      intro hp hq
      refine abreastAt_look h (by rw [hp]) trivial ?_
      rw [hp, hq]
      rfl
    cases depth with
    | zero => exact hstay skipNestedRun_zero skipNestedRun_zero
    | succ depth =>
      cases ha : s.ahead with
      | nil => exact hstay (skipNestedRun_nil ha) (skipNestedRun_nil (h.ahead_nil ha))
      | cons t rest =>
        have ha' := h.ahead_cons ha
        by_cases ht : t.kind = .endOfText
        · exact hstay ((skipNestedRun_cons ha).trans (if_pos ht))
            ((skipNestedRun_cons ha').trans (if_pos ht))
        · let more := if t.kind = opening then depth + 2 else if t.kind = closing then depth
            else depth + 1
          refine AbreastAt.congr (m := advance >>= fun _ => skipMarks opening closing more)
            (n := advance >>= fun _ => skipMarks opening closing more) ?_
            ((skipNestedRun_cons ha).trans (if_neg ht))
            ((skipNestedRun_cons ha').trans (if_neg ht))
          exact (abreast_advance s s' hs h).bind fun _ r hr =>
            ih _ (State.left_advance_lt ha) more r hs.advance hr

theorem abreast_skipNested (opening closing : TokenKind) :
    Abreast w again (skipNested opening closing) (skipNested opening closing) id anything :=
  abreast_skipMarks opening closing 1

theorem along_skipNested (opening closing : TokenKind) :
    Along src again (skipNested opening closing) anything :=
  (abreast_skipNested (w := .still src false false) opening closing).along

theorem abreast_skipLine (line : Nat) :
    Abreast w again (skipLine line) (skipLine line) id anything := by
  intro s s' hs h
  induction s using State.left_induction generalizing s' with
  | _ s ih =>
    have hstay : (skipLineRun line s).1 = s → (skipLineRun line s').1 = s' →
        AbreastAt w again (skipLine line) (skipLine line) id anything s s' := by
      intro hp hq
      exact abreastAt_look h hp trivial (congrArg ((), ·) hq)
    cases ha : s.ahead with
    | nil => exact hstay (skipLineRun_nil ha) (skipLineRun_nil (h.ahead_nil ha))
    | cons t rest =>
      have ha' := h.ahead_cons ha
      have hcond : (w.ending.token t).place.line = line ∧ (w.ending.token t).kind ≠ .endOfText ↔
          t.place.line = line ∧ t.kind ≠ .endOfText := by
        rw [Ending.token_line, Ending.token_kind]
      by_cases ht : t.place.line = line ∧ t.kind ≠ .endOfText
      · refine AbreastAt.congr (m := advance >>= fun _ => skipLine line)
          (n := advance >>= fun _ => skipLine line) ?_
          (congrArg ((), ·) ((skipLineRun_cons ha).trans (if_pos ht)))
          (congrArg ((), ·) ((skipLineRun_cons ha').trans (if_pos (hcond.2 ht))))
        exact (abreast_advance s s' hs h).bind fun _ r hr =>
          ih _ (State.left_advance_lt ha) r hs.advance hr
      · exact hstay ((skipLineRun_cons ha).trans (if_neg ht))
          ((skipLineRun_cons ha').trans (if_neg fun h => ht (hcond.1 h)))

/-- A turn of the loop over items, as a parser. -/
theorem untilKind_run_of_turn {stop : TokenKind → Bool} {item : Parser (List α × Bool)}
    (hk : stop s.current.kind = false)
    (hgo : ¬((item.run s).1.2 = true ∨ (item.run s).2.ahead = [])) :
    (untilKind stop item).run s =
      (item >>= fun r => advance >>= fun _ => untilKind stop item >>= fun more =>
        pure (r.1 ++ more)).run s := by
  rw [untilKind_turn hk, if_neg hgo]
  rfl

theorem abreast_untilKind {stop : TokenKind → Bool} {item item' : Parser (List α × Bool)}
    (hitem : Abreast w again item item' (fun r => (r.1.map F, r.2)) fun r => ∀ a ∈ r.1, P a) :
    Abreast w again (untilKind stop item) (untilKind stop item') (List.map F)
      fun as => ∀ a ∈ as, P a := by
  intro s s' hs h
  induction s using State.left_induction generalizing s' with
  | _ s ih =>
    cases hk : stop s.current.kind with
    | true =>
      have hk' : stop s'.current.kind = true := by rw [h.current]; exact hk
      have hp : (untilKind stop item).run s = _ := untilKind_stop hk
      refine abreastAt_look h (by rw [hp]) (by rw [hp]; exact fun a ha => nomatch ha) ?_
      rw [hp, untilKind_stop hk']
      rfl
    | false =>
      have hk' : stop s'.current.kind = false := by rw [h.current]; exact hk
      have hturn := hitem s s' hs h
      by_cases hgo : (item.run s).1.2 = true ∨ (item.run s).2.ahead = []
      · -- the last turn
        have hp : (untilKind stop item).run s = ((item.run s).1.1, (item.run s).2) := by
          rw [untilKind_turn hk, if_pos hgo]
        refine ⟨by rw [hp]; exact hturn.run, by rw [hp]; exact hturn.result, ?_⟩
        rw [hp]
        refine hturn.agree.imp_right fun ⟨hresult, hlinked⟩ => ?_
        have hgo' : (item'.run s').1.2 = true ∨ (item'.run s').2.ahead = [] := by
          rw [hresult]
          exact hgo.imp_right hlinked.ahead_nil
        rw [untilKind_turn hk', if_pos hgo']
        exact ⟨congrArg Prod.fst hresult, hlinked⟩
      · obtain ⟨t, rest, ha⟩ : ∃ t rest, (item.run s).2.ahead = t :: rest :=
          List.exists_cons_of_ne_nil fun hnil => hgo (.inr hnil)
        have hlt := Nat.lt_of_lt_of_le (State.left_advance_lt ha) (item.left_le s)
        have hwithin := hturn.run.within hs
        have hrest : (∀ a ∈ (item.run s).1.1, P a) → ∀ r, w.Linked (item.run s).2 r →
            AbreastAt w again
              (advance >>= fun _ => untilKind stop item >>= fun more =>
                pure ((item.run s).1.1 ++ more))
              (advance >>= fun _ => untilKind stop item' >>= fun more =>
                pure ((item.run s).1.1.map F ++ more)) (List.map F) (fun as => ∀ a ∈ as, P a)
              (item.run s).2 r := by
          intro hall r hr
          refine (abreast_advance _ r hwithin hr).bind fun _ r hr => ?_
          have hloop := ih _ hlt r hwithin.advance hr
          exact hloop.bind fun hmore r hr => abreast_pure List.map_append.symm
            (List.forall_mem_append.2 ⟨hall, hmore⟩) _ r (hloop.run.within hwithin.advance) hr
        have hwhole : AbreastAt w again
            (item >>= fun r => advance >>= fun _ => untilKind stop item >>= fun more =>
              pure (r.1 ++ more))
            (item' >>= fun r => advance >>= fun _ => untilKind stop item' >>= fun more =>
              pure (r.1 ++ more)) (List.map F) (fun as => ∀ a ∈ as, P a) s s' :=
          hturn.bind hrest
        have hp := untilKind_run_of_turn hk hgo
        refine ⟨by rw [hp]; exact hwhole.run, by rw [hp]; exact hwhole.result, ?_⟩
        rw [hp]
        rcases hturn.agree with ⟨hlossy, hlost⟩ | ⟨hresult, hlinked⟩
        · exact .inl ⟨hlossy,
            (hrest hturn.result _ (linked_state _)).run.reported hlost⟩
        · have hgo' : ¬((item'.run s').1.2 = true ∨ (item'.run s').2.ahead = []) := by
            rw [hresult, hlinked.ahead, List.map_eq_nil_iff]
            exact hgo
          rw [untilKind_run_of_turn hk' hgo']
          exact hwhole.agree

/-- A turn of the loop over operators, as a parser. -/
theorem operators_run_of_level {sub : Nat → Parser Expr} {least : Nat} {left : Expr}
    (ha : s.ahead = t :: rest) (ht : !left.isMissing ∧ t.kind ≠ .endOfText ∧ least < level t.kind) :
    (operators sub least left).run s =
      (advance >>= fun _ => operatorTail sub left >>= operators sub least).run s := by
  rw [operators_cons ha, if_pos ht]
  rfl

theorem abreast_operators {sub sub' : Nat → Parser Expr} {least : Nat} {R : Expr → Prop}
    (htail : ∀ left, R left → ∀ s s', s.Within w.source → w.Linked s s' →
      s.current.kind ≠ .endOfText → least < level s.current.kind →
      AbreastAt w again (operatorTail sub left) (operatorTail sub' left) id R s s')
    {left : Expr} (hleft : R left) :
    Abreast w again (operators sub least left) (operators sub' least left) id R := by
  intro s s' hs h
  induction s using State.left_induction generalizing s' left with
  | _ s ih =>
    cases ha : s.ahead with
    | nil =>
      have hp : (operators sub least left).run s = _ := operators_nil ha
      refine abreastAt_look h (by rw [hp]) (by rw [hp]; exact hleft) ?_
      rw [hp, operators_nil (h.ahead_nil ha)]
      rfl
    | cons t rest =>
      have ha' := h.ahead_cons ha
      by_cases ht : !left.isMissing ∧ t.kind ≠ .endOfText ∧ least < level t.kind
      · refine AbreastAt.congr ?_ (operators_run_of_level ha ht) (operators_run_of_level ha' ht)
        refine (abreast_advance s s' hs h).bind fun _ r hr => ?_
        have hcurrent : s.advance.current = t := by rw [State.advance_of_cons ha]
        have hstep := htail left hleft s.advance r hs.advance hr (hcurrent ▸ ht.2.1)
          (hcurrent ▸ ht.2.2)
        have hlt := Nat.lt_of_le_of_lt ((operatorTail sub left).left_le s.advance)
          (State.left_advance_lt ha)
        exact hstep.bind fun hnew r hr => ih _ hlt hnew r (hstep.run.within hs.advance) hr
      · have ht' : ¬(!left.isMissing ∧ (w.ending.token t).kind ≠ .endOfText ∧
            least < level (w.ending.token t).kind) := ht
        have hp : (operators sub least left).run s = _ := (operators_cons ha).trans (if_neg ht)
        refine abreastAt_look h (by rw [hp]) (by rw [hp]; exact hleft) ?_
        rw [hp, operators_cons ha', if_neg ht']
        rfl

end Rules

end Grammar

end Asm6510
