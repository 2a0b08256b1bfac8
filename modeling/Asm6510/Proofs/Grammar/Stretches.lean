import Asm6510.Proofs.Grammar.Matching
import Asm6510.Proofs.Grammar.Quiet

/-!
# What values take from the tokens

Some tokens give a text its structure: a statement starts with them, or a block starts or ends
there. No value has a place for them. A value that is malformed can take one all the same, and then
it says so.

* `TokenKind.isStructural`: the kinds of these tokens.
* `Stretch`: a property of all tokens of a stretch, and names among them in order.
* `Amiss`: why a value took a token that has no place in it.
* `At`, `Due`: nothing was taken amiss up to the current token, or up to the one before it.

That expressions keep to this is shown in `Asm6510.Proofs.Grammar.Values`, for directives in
`Asm6510.Proofs.Grammar.Directives`.
-/

namespace Asm6510.TokenKind

/-- Kinds of tokens that statements start with. -/
def isHead : TokenKind → Bool
  | label => true
  | mnemonic _ => true
  | programCounter => true
  | directive _ => true
  | _ => false

def isBrace : TokenKind → Bool
  | leftBrace => true
  | rightBrace => true
  | _ => false

/-- Kinds of tokens that give a text its structure. -/
def isStructural (kind : TokenKind) : Bool :=
  kind.isHead || kind.isBrace

theorem isStructural_of_isName {kind : TokenKind} (h : kind.isName = true) :
    kind.isStructural = false := by
  cases kind with
  | identifier | function | constant => rfl
  | _ => cases h

theorem isStructural_of_isBrace {kind : TokenKind} (h : kind.isBrace = true) :
    kind.isStructural = true := by
  rw [isStructural, h, Bool.or_true]

theorem isStructural_of_isHead {kind : TokenKind} (h : kind.isHead = true) :
    kind.isStructural = true := by
  rw [isStructural, h, Bool.true_or]

end Asm6510.TokenKind

namespace Asm6510.Grammar

/-! ## Stretches -/

/-- Every token from `tokens` up to `rest` satisfies `P`, which also sees the tokens behind it, and
the names stand among them in order. -/
structure Stretch (P : Token → List Token → Prop) (names tokens rest : List Token) : Prop where
  taken : ∃ front, tokens = front ++ rest ∧ names.Sublist front
  each : ∀ t behind, t :: behind <:+ tokens → rest <:+ behind → P t behind

namespace Stretch

variable {P Q : Token → List Token → Prop} {names names' tokens rest rest' : List Token} {t : Token}

theorem suffix (h : Stretch P names tokens rest) : rest <:+ tokens := by
  obtain ⟨front, he, -⟩ := h.taken
  exact ⟨front, he.symm⟩

theorem refl (tokens : List Token) : Stretch P [] tokens tokens := by
  refine ⟨⟨[], rfl, List.nil_sublist _⟩, fun t behind h h' => ?_⟩
  have := h.length_le
  have := h'.length_le
  simp only [List.length_cons] at *
  omega

theorem trans (h : Stretch P names tokens rest) (h' : Stretch P names' rest rest') :
    Stretch P (names ++ names') tokens rest' := by
  obtain ⟨front, rfl, hnames⟩ := h.taken
  obtain ⟨front', rfl, hnames'⟩ := h'.taken
  refine ⟨⟨front ++ front', by simp, hnames.append hnames'⟩, fun t behind ht hrest => ?_⟩
  -- the token stands in the first stretch, or in the second one
  rcases List.suffix_or_suffix_of_suffix h.suffix ht with hs | hs
  · rcases List.suffix_cons_iff.1 hs with hs | hs
    · exact h'.each t behind (hs ▸ List.suffix_rfl) hrest
    · exact h.each t behind ht hs
  · exact h'.each t behind hs hrest

theorem mono (h : Stretch P names tokens rest) (hPQ : ∀ t behind, P t behind → Q t behind) :
    Stretch Q names tokens rest :=
  ⟨h.taken, fun t behind ht hrest => hPQ t behind (h.each t behind ht hrest)⟩

theorem names_of_sublist (h : Stretch P names tokens rest) (hsub : names'.Sublist names) :
    Stretch P names' tokens rest := by
  obtain ⟨front, he, hnames⟩ := h.taken
  exact ⟨⟨front, he, hsub.trans hnames⟩, h.each⟩

/-- One token, which may be a name. -/
theorem single (h : P t rest) (hnames : names.Sublist [t]) : Stretch P names (t :: rest) rest := by
  refine ⟨⟨[t], rfl, hnames⟩, fun u behind hu hrest => ?_⟩
  rcases List.suffix_cons_iff.1 hu with he | he
  · cases he
    exact h
  · have := he.length_le
    have := hrest.length_le
    simp only [List.length_cons] at *
    omega

theorem snoc (h : Stretch P names tokens (t :: rest)) (ht : P t rest) :
    Stretch P names tokens rest := by
  have := h.trans (single ht (List.nil_sublist _))
  rwa [List.append_nil] at this

/-- The last token may be left out. -/
theorem drop (h : Stretch P [] tokens rest) (ht : t :: rest <:+ tokens) :
    Stretch P [] tokens (t :: rest) := by
  refine ⟨?_, fun u behind hu hrest => h.each u behind hu ((List.suffix_cons t rest).trans hrest)⟩
  obtain ⟨front, hfront⟩ := ht
  exact ⟨front, hfront.symm, List.nil_sublist _⟩

end Stretch

/-! ## Tokens without a place -/

/-- An error of the grammar is reported at a place. -/
def Reported (ds : List Diagnostic) (place : Place) : Prop :=
  ∃ message, Diagnostic.atPlace .error message place .grammar ∈ ds

def DepthReported (ds : List Diagnostic) : Prop :=
  ∃ (limit : Nat) (place : Place), Diagnostic.atPlace .error
    ("Maximum nesting depth of " ++ Text.decimal limit ++ " exceeded") place .grammar ∈ ds

/-- Kinds of tokens that a value has to stand behind. -/
def expectsValue (kind : TokenKind) : Bool :=
  lowest < level kind || isPrefixOperator kind || kind == .leftBracket || kind == .comma ||
    kind == .colon

/-- Why a value took the token `t`, with the tokens `behind` after it, that has no place in it:
an error is reported at this token, or the bound of the nesting was met, and the token stands on a
line that was left out or where a value should have begun. -/
inductive Amiss (src : Source) (ds : List Diagnostic) (t : Token) (behind : List Token) : Prop
  | reported (h : Reported ds t.place)
  | cut {p : Token} (hsrc : p :: t :: behind <:+ src.tokens)
      (hp : p.place.line = t.place.line ∨ expectsValue p.kind = true) (hds : DepthReported ds)

/-- A token of a value: one with a place in it, or one taken amiss. -/
def InValue (src : Source) (ds : List Diagnostic) (t : Token) (behind : List Token) : Prop :=
  t.kind.isStructural = true → Amiss src ds t behind

section Messages

variable {src : Source} {ds ds' : List Diagnostic} {t : Token} {behind : List Token}

theorem Reported.mono {place : Place} (h : Reported ds place) (hds : ds ⊆ ds') :
    Reported ds' place := by
  obtain ⟨message, hm⟩ := h
  exact ⟨message, hds hm⟩

theorem DepthReported.mono (h : DepthReported ds) (hds : ds ⊆ ds') : DepthReported ds' := by
  obtain ⟨limit, place, hm⟩ := h
  exact ⟨limit, place, hds hm⟩

theorem Amiss.mono (h : Amiss src ds t behind) (hds : ds ⊆ ds') : Amiss src ds' t behind := by
  cases h with
  | reported h => exact .reported (h.mono hds)
  | cut hsrc hp h => exact .cut hsrc hp (h.mono hds)

theorem InValue.mono (h : InValue src ds t behind) (hds : ds ⊆ ds') : InValue src ds' t behind :=
  fun ht => (h ht).mono hds

theorem inValue_of_not_structural (h : t.kind.isStructural = false) : InValue src ds t behind :=
  fun ht => absurd ht (by rw [h]; exact Bool.false_ne_true)

end Messages

/-! ## The next token -/

section Next

variable {src : Source} {s : State}

theorem EndsOnce.ends {tokens : List Token} (h : EndsOnce tokens) : Ends tokens := by
  obtain ⟨before, last, htokens, hlast, -⟩ := h
  exact ⟨before, last, htokens, hlast⟩

/-- At the end of the text nothing is ahead; elsewhere what is to be read is what is ahead. -/
theorem State.Within.next_cases (hs : s.Within src) (he : EndsOnce src.tokens) :
    s.current.kind = .endOfText ∧ s.ahead = [] ∨
      s.current.kind ≠ .endOfText ∧ s.next = s.ahead ∧ s.ahead ≠ [] := by
  cases ha : s.ahead with
  | nil => exact .inl ⟨(hs.kind_eq_iff he).2 ha, rfl⟩
  | cons t rest =>
    refine .inr ⟨fun hk => ?_, State.next_of_cons ha, List.cons_ne_nil t rest⟩
    rw [(hs.kind_eq_iff he).1 hk] at ha
    cases ha

/-- Before the end of the text, it is ahead. -/
theorem State.Within.exists_end (hs : s.Within src) (he : EndsOnce src.tokens)
    (hk : s.current.kind ≠ .endOfText) : ∃ t ∈ s.ahead, t.kind = .endOfText := by
  obtain ⟨before, last, htokens, hlast, -⟩ := he.suffix hs
  have hmem : last ∈ s.current :: s.ahead := by
    rw [htokens]
    exact List.mem_append_right _ List.mem_cons_self
  rcases List.mem_cons.1 hmem with rfl | hmem
  · exact absurd hlast hk
  · exact ⟨last, hmem, hlast⟩

theorem State.current_advance_eq (s : State) : s.advance.current = s.peek := by
  cases ha : s.ahead with
  | nil => rw [State.advance_of_nil ha, State.peek_of_nil ha]
  | cons t rest => rw [State.advance_of_cons ha, State.peek_of_cons ha]

/-- Moving on takes the next token, unless it is the end of the text. -/
theorem State.Within.next_advance (hs : s.Within src) (he : EndsOnce src.tokens) :
    s.peek.kind = .endOfText ∧ s.advance.next = s.next ∨
      s.peek.kind ≠ .endOfText ∧ s.next = s.peek :: s.advance.next := by
  have hnext : s.next = s.advance.tokens := rfl
  rw [← s.current_advance_eq]
  rcases hs.advance.next_cases he with ⟨hk, ha⟩ | ⟨hk, hn, -⟩
  · exact .inl ⟨hk, by rw [State.next_of_nil ha, hnext]⟩
  · exact .inr ⟨hk, by rw [hnext, State.tokens, hn]⟩

/-- Moving on to a token before the end of the text takes it. -/
theorem State.Within.next_eq_cons (hs : s.Within src) (he : EndsOnce src.tokens)
    (hk : s.peek.kind ≠ .endOfText) : s.next = s.advance.current :: s.advance.next := by
  rcases hs.next_advance he with ⟨hend, -⟩ | ⟨-, hn⟩
  · exact absurd hend hk
  · rw [hn, s.current_advance_eq]

/-- Before the end of the text, the current token and what is to be read are the tokens. -/
theorem State.Within.tokens_eq (hs : s.Within src) (he : EndsOnce src.tokens)
    (hk : s.current.kind ≠ .endOfText) : s.tokens = s.current :: s.next := by
  rcases hs.next_cases he with ⟨hk', -⟩ | ⟨-, hn, -⟩
  · exact absurd hk' hk
  · rw [hn, State.tokens]

end Next

/-! ## Where a parse stands -/

/-- Messages are silenced only once the bound of the nesting is reported. -/
def State.Honest (s : State) : Prop :=
  s.unwinding = true ∨ s.depthReported = true → DepthReported s.diagnostics

/-- The parse took the tokens up to the current one, and structural ones only amiss. -/
structure At (src : Source) (names tokens : List Token) (s : State) : Prop where
  within : s.Within src
  honest : s.Honest
  stretch : Stretch (InValue src s.diagnostics) names tokens s.next

/-- As `At`, but a current token that is structural has still to be accounted for. It stands where
a value should. -/
structure Due (src : Source) (names tokens : List Token) (s : State) : Prop where
  within : s.Within src
  honest : s.Honest
  settled : s.current.kind.isStructural = false →
    Stretch (InValue src s.diagnostics) names tokens s.next
  owed : s.current.kind.isStructural = true →
    Stretch (InValue src s.diagnostics) names tokens s.tokens ∧
      ∃ p, p :: s.tokens <:+ src.tokens ∧
        (p.place.line = s.current.place.line ∨ expectsValue p.kind = true)

/-- Only messages were added, and flags were set. -/
structure State.Grows (s s' : State) : Prop where
  current_eq : s'.current = s.current
  ahead_eq : s'.ahead = s.ahead
  diagnostics_subset : s.diagnostics ⊆ s'.diagnostics
  honest : s.Honest → s'.Honest

section Growing

variable {src : Source} {s s' : State}

theorem State.Grows.tokens_eq (h : s.Grows s') : s'.tokens = s.tokens := by
  rw [State.tokens, State.tokens, h.current_eq, h.ahead_eq]

theorem State.Grows.within (h : s.Grows s') (hs : s.Within src) : s'.Within src := by
  rwa [State.Within, h.tokens_eq]

theorem State.Grows.next_eq (h : s.Grows s') : s'.next = s.next := by
  cases ha : s.ahead with
  | nil => rw [next_of_nil ha, next_of_nil (h.ahead_eq.trans ha), h.tokens_eq]
  | cons t rest => rw [next_of_cons ha, next_of_cons (h.ahead_eq.trans ha)]

theorem State.Grows.refl (s : State) : s.Grows s :=
  ⟨rfl, rfl, fun _ h => h, id⟩

theorem State.grows_add (s : State) (d : Diagnostic) : s.Grows (s.add d) :=
  ⟨rfl, rfl, List.subset_append_left _ _,
    fun h hflag => (h hflag).mono (List.subset_append_left _ _)⟩

theorem State.grows_reportAt (s : State) (t : Token) (message : String) :
    s.Grows ((reportAt t message).run s).2 := by
  show s.Grows (if s.unwinding then s else _)
  split
  · exact .refl s
  · exact s.grows_add _

/-- Behind a report at a token, the error is there or the bound of the nesting was met. -/
theorem State.Honest.reported (h : s.Honest) (t : Token) (message : String) :
    Reported ((reportAt t message).run s).2.diagnostics t.place ∨
      DepthReported ((reportAt t message).run s).2.diagnostics := by
  show Reported (if s.unwinding then s else _).diagnostics _ ∨
    DepthReported (if s.unwinding then s else _).diagnostics
  cases hu : s.unwinding with
  | true => exact .inr (h (.inl hu))
  | false => exact .inl ⟨message, List.mem_append_right _ List.mem_cons_self⟩

theorem State.Honest.depthReported (h : s.Honest) (rules : Rules) (place : Place) :
    DepthReported ((reportDepth rules place).run s).2.diagnostics := by
  show DepthReported (if s.depthReported then s else _).diagnostics
  cases hd : s.depthReported with
  | true => exact h (.inr hd)
  | false => exact ⟨rules.limit, place, List.mem_append_right _ List.mem_cons_self⟩

theorem State.grows_reportDepth (s : State) (rules : Rules) (place : Place) :
    s.Grows ((reportDepth rules place).run s).2 := by
  show s.Grows (if s.depthReported then s else _)
  split
  · exact .refl s
  · refine ⟨rfl, rfl, List.subset_append_left _ _, fun _ _ => ?_⟩
    exact ⟨rules.limit, place, List.mem_append_right _ List.mem_cons_self⟩

theorem State.grows_resume (s : State) : s.Grows { s with unwinding := false } :=
  ⟨rfl, rfl, fun _ h => h, fun h hflag => h (.inr (hflag.resolve_left Bool.false_ne_true))⟩

theorem State.grows_noteUnbounded (s : State) : s.Grows (noteUnbounded.run s).2 :=
  ⟨rfl, rfl, fun _ h => h, id⟩

/-- Moving on leaves the messages and the flags as they are. -/
theorem State.Moved.honest (hm : s.Moved s') (h : s.Honest) : s'.Honest := by
  rw [hm]
  exact h

theorem State.Honest.advance (h : s.Honest) : s.advance.Honest :=
  s.moved_advance.honest h

theorem State.diagnostics_advance (s : State) : s.advance.diagnostics = s.diagnostics := by
  rw [State.moved_advance s]

end Growing

section States

variable {src : Source} {names tokens : List Token} {s s' : State}

theorem At.grows (h : At src names tokens s) (hg : s.Grows s') : At src names tokens s' := by
  refine ⟨hg.within h.within, hg.honest h.honest, ?_⟩
  rw [hg.next_eq]
  exact h.stretch.mono fun _ _ ht => ht.mono hg.diagnostics_subset

theorem At.onto (h : At src names tokens s) (he : EndsOnce src.tokens)
    (hk : s.peek.kind.isStructural = false) : At src names tokens s.advance := by
  refine ⟨h.within.advance, h.honest.advance, ?_⟩
  rw [s.diagnostics_advance]
  rcases h.within.next_advance he with ⟨-, hn⟩ | ⟨-, hn⟩
  · rw [hn]
    exact h.stretch
  · exact (hn ▸ h.stretch).snoc (inValue_of_not_structural hk)

theorem At.name (h : At src names tokens s) (he : EndsOnce src.tokens)
    (hk : s.peek.kind.isName = true) :
    At src (names ++ [s.advance.current]) tokens s.advance := by
  refine ⟨h.within.advance, h.honest.advance, ?_⟩
  rw [s.diagnostics_advance, s.current_advance_eq]
  rcases h.within.next_advance he with ⟨hend, -⟩ | ⟨-, hn⟩
  · rw [hend] at hk
    cases hk
  · have hname : InValue src s.diagnostics s.peek s.advance.next :=
      inValue_of_not_structural (TokenKind.isStructural_of_isName hk)
    exact (hn ▸ h.stretch).trans (.single hname (List.Sublist.refl _))

theorem Due.at (h : Due src names tokens s) (hk : s.current.kind.isStructural = false) :
    At src names tokens s :=
  ⟨h.within, h.honest, h.settled hk⟩

/-- Moving on to where a value should be. -/
theorem At.due (h : At src names tokens s) (he : EndsOnce src.tokens)
    (hp : s.peek.place.line = s.current.place.line ∨ expectsValue s.current.kind = true) :
    Due src names tokens s.advance := by
  refine ⟨h.within.advance, h.honest.advance, fun hk => ?_, fun hk => ?_⟩
  · rw [s.current_advance_eq] at hk
    exact (h.onto he hk).stretch
  · rw [s.diagnostics_advance]
    refine ⟨h.stretch, s.current, ?_, ?_⟩
    · -- a structural token is not the end of the text, so there was one to move to
      have hne : s.ahead ≠ [] := by
        intro ha
        rw [State.advance_of_nil ha, (h.within.kind_eq_iff he).2 ha] at hk
        cases hk
      rw [State.tokens_advance hne]
      exact h.within
    · rw [s.current_advance_eq]
      exact hp.imp Eq.symm id

/-- A message at the current token, or about the bound of the nesting, accounts for it. -/
theorem Due.settle (h : Due src names tokens s) (he : EndsOnce src.tokens) (hg : s.Grows s')
    (hm : Reported s'.diagnostics s.current.place ∨ DepthReported s'.diagnostics) :
    At src names tokens s' := by
  cases hk : s.current.kind.isStructural with
  | false => exact (h.at hk).grows hg
  | true =>
    refine ⟨hg.within h.within, hg.honest h.honest, ?_⟩
    obtain ⟨hstretch, p, hp, hbefore⟩ := h.owed hk
    have hend : s.current.kind ≠ .endOfText := by
      intro hend
      rw [hend] at hk
      cases hk
    have htokens := h.within.tokens_eq he hend
    rw [hg.next_eq]
    rw [htokens] at hstretch hp
    have hamiss : Amiss src s'.diagnostics s.current s.next :=
      hm.elim .reported fun hdepth => .cut hp hbefore hdepth
    exact (hstretch.mono fun _ _ ht => ht.mono hg.diagnostics_subset).snoc fun _ => hamiss

end States

/-! ## Parsers of values -/

/-- The parser ends with nothing taken amiss if it starts so. -/
def Keeps (src : Source) {α : Type} (p : Parser α) : Prop :=
  ∀ names tokens, Ensures (At src names tokens) p fun _ => At src names tokens

/-- The parser accounts for the token that it starts at. -/
def Settles (src : Source) {α : Type} (p : Parser α) : Prop :=
  ∀ names tokens, Ensures (Due src names tokens) p fun _ => At src names tokens

section Parsers

variable {α : Type} {src : Source} {names tokens : List Token}

theorem keeps_pure (a : α) : Keeps src (pure a) :=
  fun _ _ => Ensures.pure fun _ hs => hs

theorem keeps_of_grows {p : Parser α} (hp : ∀ s : State, s.Grows (p.run s).2) : Keeps src p :=
  fun _ _ s hs => hs.grows (hp s)

theorem keeps_reportAt (t : Token) (message : String) : Keeps src (reportAt t message) :=
  keeps_of_grows fun s => s.grows_reportAt t message

theorem keeps_reportHere (message : String) : Keeps src (reportHere message) :=
  keeps_of_grows fun s => s.grows_reportAt s.current message

theorem keeps_reportNext (message : String) : Keeps src (reportNext message) :=
  keeps_of_grows fun s => s.grows_reportAt s.peek message

theorem Keeps.bind {β : Type} {p : Parser α} {f : α → Parser β} (hp : Keeps src p)
    (hf : ∀ a, Keeps src (f a)) : Keeps src (p >>= f) :=
  fun names tokens => (hp names tokens).bind fun a => hf a names tokens

theorem Settles.bind {β : Type} {p : Parser α} {f : α → Parser β} (hp : Settles src p)
    (hf : ∀ a, Keeps src (f a)) : Settles src (p >>= f) :=
  fun names tokens => (hp names tokens).bind fun a => hf a names tokens

variable (he : EndsOnce src.tokens)
include he

theorem settles_reportHere (message : String) : Settles src (reportHere message) :=
  fun _ _ s hs => hs.settle he (s.grows_reportAt s.current message)
    (hs.honest.reported s.current message)

/-- A loop over items behind a separator. -/
theorem keeps_whileNext {separator : TokenKind} (hsep : separator.isStructural = false)
    {body : Parser (Option (List α))}
    (hbody : ∀ names tokens, Ensures (fun s => s.current.kind = separator ∧ At src names tokens s)
      body fun _ => At src names tokens) : Keeps src (whileNext separator body) := by
  intro names tokens
  refine (ensures_whileNext (I := fun _ => At src names tokens) (D := fun _ => At src names tokens)
    (fun acc => ?_) []).post fun r s hs => ?_
  · refine ((hbody names tokens).pre ?_).post fun r s hs => ?_
    · rintro s' ⟨s, hs, -, hk, rfl⟩
      exact ⟨s.current_advance_eq ▸ hk, hs.onto he (hk ▸ hsep)⟩
    · cases r with
      | none => exact hs
      | some items => exact hs
  · simpa using hs

theorem ensures_skipLine (line : Nat) :
    Ensures (fun s => s.current.place.line = line ∧ DepthReported s.diagnostics ∧
      At src names tokens s) (skipLine line) fun _ => At src names tokens := by
  intro s
  show _ → At src names tokens (skipLineRun line s).1
  induction s using State.left_induction with
  | _ s ih =>
    rintro ⟨hline, hdepth, hs⟩
    cases ha : s.ahead with
    | nil =>
      rw [skipLineRun_nil ha]
      exact hs
    | cons t rest =>
      rw [skipLineRun_cons ha]
      split
      · rename_i ht
        have hpeek := State.peek_of_cons ha
        have hdue : Due src names tokens s.advance :=
          hs.due he (.inl (by rw [hpeek, ht.1, hline]))
        have hdepth' : DepthReported s.advance.diagnostics := by rwa [s.diagnostics_advance]
        refine ih _ (State.left_advance_lt ha) ⟨?_, hdepth', ?_⟩
        · rw [s.current_advance_eq, hpeek, ht.1]
        · exact hdue.settle he (.refl _) (.inr hdepth')
      · exact hs

theorem settles_depthExceeded (rules : Rules) : Settles src (depthExceeded rules) := by
  intro names tokens s hs
  have hdepth := hs.honest.depthReported rules s.current.place
  have hgrows := s.grows_reportDepth rules s.current.place
  let s' : State := { ((reportDepth rules s.current.place).run s).2 with unwinding := true }
  have hgrows' : s.Grows s' :=
    ⟨hgrows.current_eq, hgrows.ahead_eq, hgrows.diagnostics_subset, fun _ _ => hdepth⟩
  have hat : At src names tokens s' := hs.settle he hgrows' (.inr hdepth)
  have hline : s'.current.place.line = s.current.place.line := by rw [hgrows'.current_eq]
  exact ensures_skipLine he s.current.place.line s' ⟨hline, hdepth, hat⟩

end Parsers

end Asm6510.Grammar
