import Asm6510.Proofs.Grammar.Structure
import Asm6510.Proofs.Grammar.Values

/-!
# The tokens of directives

One lemma for each parser of directives: which tokens the directive took, and which of them are its
names.

* `Begun`: before the tokens of a statement behind its first one.
* `Past`: behind the tokens of a statement outside of its block.
* `Enclosed`: behind a block.
* `Listed`: behind statements, which account for all tokens before.
* `Directed`: behind a directive.

Main statement: `ensures_directive`, a directive accounts for the tokens that it takes.
-/

namespace Asm6510.Grammar

variable {src : Source} {first : Token} {names tokens inner : List Token} {s s' : State} {t : Token}
  {stop : TokenKind → Bool}

/-- What a parser adds to the messages stays there. -/
theorem Along.diagnostics_subset {α : Type} {p : Parser α} {Q : α → Prop}
    (h : Along src true p Q) (hs : s.Within src) : s.diagnostics ⊆ (p.run s).2.diagnostics := by
  have hrun := (h s hs).1
  exact List.IsPrefix.subset hrun.diagnostics_prefix

/-! ## Where a statement stands -/

/-- Before the tokens of a statement behind its first one, which is the current one. -/
structure Begun (src : Source) (tokens : List Token) (s : State) : Prop where
  within : s.Within src
  honest : s.Honest
  next_eq : s.next = tokens

/-- Behind the tokens of the statement that starts at `first`, outside of its block. -/
structure Past (src : Source) (first : Token) (names tokens : List Token) (s : State) : Prop where
  within : s.Within src
  honest : s.Honest
  stretch : Stretch (InStatement src s.diagnostics first) names tokens s.next

/-- What a block holds: statements, or nothing where the bound of the nesting refused it. -/
inductive Inside (src : Source) (ds : List Diagnostic) :
    List Statement → (inner close : List Token) → Prop
  | statements {body : List Statement} {inner close : List Token}
      (h : Items src ds endsBlock body inner close) : Inside src ds body inner close
  | refused {inner : List Token} (h : DepthReported ds) :
      Inside src ds [] inner (fromMatch .leftBrace .rightBrace 0 inner)

/-- Behind a block with the tokens `inner` in it and behind it. -/
structure Enclosed (src : Source) (inner : List Token) (b : Braces) (s : State) : Prop where
  within : s.Within src
  honest : s.Honest
  inside : ∃ close, Inside src s.diagnostics b.body inner close ∧ Closes b.closing close s.next

/-- Behind some statements. -/
structure Listed (src : Source) (stop : TokenKind → Bool) (sts : List Statement)
    (tokens : List Token) (s : State) : Prop where
  within : s.Within src
  honest : s.Honest
  items : Items src s.diagnostics stop sts tokens s.next

theorem Begun.at (h : Begun src tokens s) : At src [] tokens s :=
  ⟨h.within, h.honest, h.next_eq ▸ Stretch.refl _⟩

theorem Begun.grows (h : Begun src tokens s) (hg : s.Grows s') : Begun src tokens s' :=
  ⟨hg.within h.within, hg.honest h.honest, hg.next_eq.trans h.next_eq⟩

/-- Moving onto the next token, which is not the end of the text. -/
theorem Begun.onto (h : Begun src tokens s) (he : EndsOnce src.tokens)
    (hk : s.peek.kind ≠ .endOfText) :
    tokens = s.advance.current :: s.advance.next ∧ Begun src s.advance.next s.advance := by
  refine ⟨?_, h.within.advance, h.honest.advance, rfl⟩
  rw [← h.next_eq]
  exact h.within.next_eq_cons he hk

theorem Begun.name {name : Token} (h : Begun src tokens s) (hk : name.kind.isName = true) :
    At src [name] (name :: tokens) s := by
  refine ⟨h.within, h.honest, h.next_eq ▸ .single ?_ (List.Sublist.refl _)⟩
  exact inValue_of_not_structural (TokenKind.isStructural_of_isName hk)

theorem At.past (h : At src names tokens s) : Past src first names tokens s :=
  ⟨h.within, h.honest, h.stretch.mono fun _ _ ht => ht.inStatement⟩

/-- Where the current token has a place in a value, a value may begin. -/
theorem At.ready (h : At src names tokens s) (hk : s.current.kind.isStructural = false) :
    Due src names tokens s := by
  refine ⟨h.within, h.honest, fun _ => h.stretch, fun hk' => ?_⟩
  rw [hk] at hk'
  cases hk'

theorem Past.grows (h : Past src first names tokens s) (hg : s.Grows s') :
    Past src first names tokens s' := by
  refine ⟨hg.within h.within, hg.honest h.honest, ?_⟩
  rw [hg.next_eq]
  exact h.stretch.mono fun _ _ ht => ht.mono hg.diagnostics_subset

theorem Past.listed {st : Option Statement} (h : Past src t names tokens s)
    (hstop : stop t.kind = false) (hend : t.kind ≠ .endOfText) (hplain : Plain t st names) :
    Listed src stop st.toList (t :: tokens) s := by
  refine ⟨h.within, h.honest, ?_⟩
  have hitems := Items.plain hstop hend hplain h.stretch .done
  rwa [List.append_nil] at hitems

theorem Enclosed.listed {dir : Option Directive} {b : Braces} (h : Enclosed src inner b s)
    (hdir : ∀ d ∈ dir, d.form ≠ .enumeration)
    (hheader : Header src s.diagnostics dir b.opening tokens inner) :
    Listed src stop [.braced dir b.opening b.body b.closing] tokens s := by
  refine ⟨h.within, h.honest, ?_⟩
  obtain ⟨close, hinside, hclose⟩ := h.inside
  generalize b.body = body at *
  cases hinside with
  | statements hbody => exact .braced hheader hdir hbody hclose .done
  | refused hdepth => exact .sealed hheader (.refused hdir hdepth) hclose .done

/-- The end of a block, seen from its last token. -/
theorem State.Within.closes (hs : s.Within src) (he : EndsOnce src.tokens)
    (hk : endsBlock s.current.kind = true) : Closes s.current s.tokens s.next := by
  by_cases hend : s.current.kind = .endOfText
  · have ha := (hs.kind_eq_iff he).1 hend
    rw [State.next_of_nil ha, State.tokens, ha]
    exact .ended hend
  · rw [hs.tokens_eq he hend]
    refine .brace ?_
    simpa [endsBlock, hend] using hk

/-- Skipping from an opening mark ends on its partner, or right before the end of the text. -/
theorem Begun.skipped (h : Begun src inner s) (he : EndsOnce src.tokens)
    (opening : TokenKind) {closing : TokenKind} (hclosing : closing ≠ .endOfText)
    (hk : s.current.kind ≠ .endOfText) :
    ((skipNested opening closing).run s).2.Within src ∧
      ((skipNested opening closing).run s).2.Honest ∧
      if ((skipNested opening closing).run s).1 = 0 then
        ((skipNested opening closing).run s).2.current ::
            ((skipNested opening closing).run s).2.next =
          fromMatch opening closing 0 inner ∧
        ((skipNested opening closing).run s).2.current.kind = closing
      else
        ((skipNested opening closing).run s).2.next = fromMatch opening closing 0 inner ∧
        ((skipNested opening closing).run s).2.peek.kind = .endOfText := by
  have hskip := skipNestedRun_fromMatch opening closing 0 s
  have hr : (skipNested opening closing).run s = (skipNestedRun opening closing (0 + 1) s).1 := rfl
  rw [← hr] at hskip
  have hrun : Run src true s ((skipNested opening closing).run s).2 :=
    (along_skipNested opening closing s h.within).1
  have hwithin := hrun.within h.within
  clear hr hrun
  generalize (skipNested opening closing).run s = r at *
  obtain ⟨hmoved, hskip⟩ := hskip
  have hahead : s.ahead = inner := by
    rcases h.within.next_cases he with ⟨hend, -⟩ | ⟨-, hn, -⟩
    · exact absurd hend hk
    · rw [← hn, h.next_eq]
  rw [hahead] at hskip
  refine ⟨hwithin, hmoved.honest h.honest, ?_⟩
  split
  · rename_i hzero
    rw [if_pos hzero] at hskip
    obtain ⟨htokens, hclose⟩ := hskip
    rw [hwithin.tokens_eq he (hclose ▸ hclosing)] at htokens
    exact ⟨htokens, hclose⟩
  · rename_i hopen
    rw [if_neg hopen] at hskip
    obtain ⟨hrest, hlast⟩ := hskip
    cases ha : r.2.ahead with
    | nil =>
      have hmem : ∃ t ∈ inner, t.kind = .endOfText := by
        rw [← hahead]
        exact h.within.exists_end he hk
      exact absurd (hrest.symm.trans ha) (fromMatch_ne_nil hmem)
    | cons u rest =>
      rw [State.next_of_cons ha, State.peek_of_cons ha, ← ha]
      exact ⟨hrest, hlast u (by rw [ha]; rfl)⟩

/-! ## Assumptions about parts -/

/-- A parser of values. -/
structure ReadsValue (src : Source) (expr : Parser Expr) : Prop where
  along : Along src true expr anything
  settles : Settles src expr

/-- A parser of blocks. -/
structure ReadsBlock (src : Source) (block : Token → Parser Braces) : Prop where
  along : ∀ t ∈ src.tokens, Along src true (block t) anything
  encloses : ∀ {opening : Token} {inner : List Token}, opening.kind = .leftBrace →
    Ensures (fun s => s.current = opening ∧ Begun src inner s) (block opening)
      fun b s => b.opening = opening ∧ Enclosed src inner b s

/-- What a directive at `t` gives: a directive without a block, one with a block of statements, or
an enumeration with its members. -/
inductive Directed (src : Source) (t : Token) (tokens : List Token) : Statement → State → Prop
  | plain {d : Directive} {s : State} (hd : d.token = t) (h : Past src t d.headerNames tokens s) :
      Directed src t tokens (.directive d) s
  | braced {d : Directive} {b : Braces} {inner : List Token} {s : State} (hd : d.token = t)
      (hform : d.form ≠ .enumeration) (hopening : b.opening.kind = .leftBrace)
      (hheader : Stretch (InStatement src s.diagnostics t) d.headerNames tokens
        (b.opening :: inner))
      (h : Enclosed src inner b s) : Directed src t tokens (.ofDirective d (some b)) s
  | members {d : Directive} {opening closing : Token} {inner close : List Token} {s : State}
      (hd : d.token = t) (hopening : opening.kind = .leftBrace)
      (hheader : Stretch (InStatement src s.diagnostics t) d.headerNames tokens (opening :: inner))
      (hsealed : Sealed src s.diagnostics (some d) inner close)
      (hclose : Closes closing close s.next) (hs : s.Within src) (hhonest : s.Honest) :
      Directed src t tokens (.directiveBlock d opening [] closing) s

theorem Directed.listed {st : Statement} (h : Directed src t tokens st s)
    (hstop : stop t.kind = false) (hhead : t.kind.isHead = true) (hbrace : t.kind.isBrace = false) :
    Listed src stop [st] (t :: tokens) s := by
  have hend : t.kind ≠ .endOfText := by
    intro hend
    rw [hend] at hhead
    cases hhead
  cases h with
  | plain hd h => exact h.listed hstop hend (.directive hbrace hd)
  | braced hd hform hopening hheader h =>
    subst hd
    rw [Statement.ofDirective_some]
    refine h.listed (fun d hd => ?_) (.directive hhead hopening hheader)
    cases hd
    exact hform
  | members hd hopening hheader hsealed hclose hs hhonest =>
    subst hd
    exact ⟨hs, hhonest, .sealed (.directive hhead hopening hheader) hsealed hclose .done⟩

/-- A directive with nothing but a name, which may be missing, and a value. -/
theorem Directed.simple {name : Option Token} {value : Expr} (h : Past src t name.toList tokens s) :
    Directed src t tokens (.directive ⟨t, name, [], value⟩) s := by
  refine .plain rfl ?_
  have hnames : (⟨t, name, [], value⟩ : Directive).headerNames = name.toList := by
    simp [Directive.headerNames]
  rwa [hnames]

theorem headerNames_mk {name : Option Token} {parameters : List Token} {value : Expr}
    (h : DirectiveForm.ofWord (directiveWord t) ≠ .enumeration) :
    (⟨t, name, parameters, value⟩ : Directive).headerNames = name.toList ++ parameters := by
  rw [Directive.headerNames, Directive.form, if_neg h]

/-! ## Parts of directives -/

section Parts

variable (he : EndsOnce src.tokens)
include he

/-- The name in a header stands right behind the directive. -/
theorem ensures_headerName (what : String) (t : Token) :
    Ensures (Begun src tokens) (headerName what t) fun name s =>
      match name with
      | none => At src [] tokens s
      | some name =>
        name.kind.isName = true ∧ ∃ rest, tokens = name :: rest ∧ Begun src rest s := by
  refine Ensures.peek fun next => ?_
  split
  · rename_i hname
    refine Ensures.advance (M := fun name s => name.kind.isName = true ∧
      ∃ rest, tokens = name :: rest ∧ Begun src rest s) ?_ fun name => Ensures.pure fun s hs => hs
    rintro s ⟨rfl, hs⟩
    have hend : s.peek.kind ≠ .endOfText := by
      intro hend
      rw [hend] at hname
      cases hname
    exact ⟨s.current_advance_eq ▸ hname, _, hs.onto he hend⟩
  · refine ((keeps_reportAt next _ [] tokens).bind fun _ => Ensures.pure fun s hs => hs).pre ?_
    exact fun s hs => hs.2.at

theorem ensures_moreNames {separator : TokenKind} (hsep : separator.isStructural = false)
    (mark : String) :
    Ensures (At src names tokens) (moreNames separator mark)
      fun more s => At src (names ++ more) tokens s := by
  refine Ensures.bind (ensures_whileNext (I := fun acc => At src (names ++ acc) tokens)
    (D := fun acc => At src (names ++ acc) tokens) (fun acc => ?_) []
    |>.pre fun s hs => by rwa [List.append_nil]) fun r => Ensures.pure fun s hs => by simpa using hs
  refine Ensures.pre (P := At src (names ++ acc) tokens) ?_ ?_
  · refine Ensures.peek fun next => ?_
    split
    · rename_i hname
      refine Ensures.advance (M := fun name => At src (names ++ (acc ++ [name])) tokens) ?_
        fun name => Ensures.pure fun s hs => hs
      intro s hs
      rw [← List.append_assoc]
      exact hs.2.name he (hs.1 ▸ hname)
    · refine ((keeps_reportAt next _ (names ++ acc) tokens).bind fun _ =>
        Ensures.pure fun s hs => hs).pre fun s hs => hs.2
  · rintro s' ⟨s, hs, -, hk, rfl⟩
    exact hs.onto he (hk ▸ hsep)

theorem ensures_separatedNames {separator : TokenKind} (hsep : separator.isStructural = false)
    (mark : String) :
    Ensures (At src names tokens) (separatedNames separator mark)
      fun more s => At src (names ++ more) tokens s := by
  refine Ensures.peek fun next => ?_
  split
  · rename_i hname
    refine Ensures.advance (M := fun name => At src (names ++ [name]) tokens) ?_ fun name => ?_
    · exact fun s hs => hs.2.name he (hs.1 ▸ hname)
    · refine (ensures_moreNames he hsep mark).bind fun more => Ensures.pure fun s hs => ?_
      rwa [List.append_assoc, List.singleton_append] at hs
  · exact Ensures.pure fun s hs => by rw [List.append_nil]; exact hs.2

theorem ensures_parameterList :
    Ensures (At src names tokens) parameterList fun more s => At src (names ++ more) tokens s := by
  refine (ensures_separatedNames he rfl ",").bind fun more => ?_
  refine Ensures.ifNext ?_ ?_
  · exact Ensures.advance_pure fun s hs => hs.2.onto he (by rw [hs.1]; rfl)
  · exact (keeps_reportNext _ _ _).bind fun _ => Ensures.pure fun s hs => hs

theorem keeps_importKind : Keeps src importKind := by
  intro names tokens
  refine Ensures.ifNext ?_ (Ensures.pure fun s hs => hs)
  refine Ensures.advance (M := fun _ => At src names tokens) ?_ fun t => ?_
  · exact fun s hs => hs.2.onto he (by rw [hs.1]; rfl)
  · dsimp only
    split
    · exact Ensures.pure fun s hs => hs
    · exact (keeps_reportAt t _ names tokens).bind fun _ => Ensures.pure fun s hs => hs

/-! ## Blocks of directives -/

variable {block : Token → Parser Braces}

/-- Behind the header of a directive and the block that it may have. -/
def After (src : Source) (first : Token) (names tokens : List Token) : Option Braces → State → Prop
  | none, s => Past src first names tokens s
  | some b, s => b.opening.kind = .leftBrace ∧ ∃ inner,
      Stretch (InStatement src s.diagnostics first) names tokens (b.opening :: inner) ∧
        Enclosed src inner b s

theorem ensures_optionalBlock (hblock : ReadsBlock src block) :
    Ensures (Past src first names tokens) (optionalBlock block) (After src first names tokens) := by
  refine Ensures.ifNext ?_ (Ensures.pure fun s hs => hs)
  rintro s ⟨hk, hs⟩
  have hopening : s.advance.current.kind = .leftBrace := by rw [s.current_advance_eq, hk]
  have hwithin := hs.within.advance
  have hbegun : Begun src s.advance.next s.advance := ⟨hwithin, hs.honest.advance, rfl⟩
  obtain ⟨hb, henclosed⟩ := hblock.encloses hopening s.advance ⟨rfl, hbegun⟩
  have hgrown := (hblock.along _ (State.current_mem hwithin)).diagnostics_subset hwithin
  rw [s.diagnostics_advance] at hgrown
  have hnext : s.next = s.advance.current :: s.advance.next :=
    hs.within.next_eq_cons he (by rw [hk]; exact TokenKind.noConfusion)
  have hstretch := hs.stretch.mono fun _ _ ht => ht.mono hgrown
  rw [hnext] at hstretch
  refine ⟨hb ▸ hopening, s.advance.next, ?_, henclosed⟩
  show Stretch _ names tokens (((block s.advance.current).run s.advance).1.opening :: _)
  rw [hb]
  exact hstretch

theorem ensures_requiredBlock (hblock : ReadsBlock src block) (t : Token) :
    Ensures (Past src first names tokens) (requiredBlock block t)
      (After src first names tokens) := by
  refine Ensures.ifNext ((ensures_optionalBlock he hblock).pre fun s hs => hs.2) ?_
  intro s hs
  exact hs.grows (s.grows_reportAt s.peek _)

end Parts

/-! ## Directives -/

section Directives

variable {t : Token} {expr : Parser Expr} {block : Token → Parser Braces}
  {members : List (Token × Option Expr)}

theorem After.directed {d : Directive} {b : Option Braces}
    (h : After src t d.headerNames tokens b s)
    (hd : d.token = t) (hform : d.form ≠ .enumeration) :
    Directed src t tokens (.ofDirective d b) s := by
  cases b with
  | none => exact .plain hd h
  | some b =>
    obtain ⟨hopening, inner, hheader, henclosed⟩ := h
    exact .braced hd hform hopening hheader henclosed

variable (he : EndsOnce src.tokens)
include he

theorem ensures_body (hblock : ReadsBlock src block) (value : Expr)
    (hform : DirectiveForm.ofWord (directiveWord t) ≠ .enumeration) :
    Ensures (Past src t [] tokens)
      (do
        let body ← optionalBlock block
        return Statement.ofDirective ⟨t, none, [], value⟩ body)
      (Directed src t tokens) := by
  refine (ensures_optionalBlock he hblock).bind fun b => Ensures.pure fun s hs => ?_
  refine After.directed ?_ rfl hform
  rwa [headerNames_mk hform]

theorem ensures_namedBody (hblock : ReadsBlock src block) (name : Token) (parameters : List Token)
    (hform : DirectiveForm.ofWord (directiveWord t) ≠ .enumeration) :
    Ensures (At src (name :: parameters) tokens)
      (do
        let body ← requiredBlock block t
        return Statement.ofDirective ⟨t, some name, parameters, .missing⟩ body)
      (Directed src t tokens) := by
  refine Ensures.bind (M := After src t (name :: parameters) tokens)
    ((ensures_requiredBlock he hblock t).pre fun s hs => hs.past) fun b =>
      Ensures.pure fun s hs => ?_
  refine After.directed ?_ rfl hform
  rwa [headerNames_mk hform]

theorem ensures_genericDirective (hexpr : ReadsValue src expr) (hblock : ReadsBlock src block)
    (hform : DirectiveForm.ofWord (directiveWord t) ≠ .enumeration) :
    Ensures (Begun src tokens) (genericDirective expr block t) (Directed src t tokens) := by
  have hbody : ∀ value, Ensures (At src [] tokens) _ (Directed src t tokens) := fun value =>
    (ensures_body he hblock value hform).pre fun s hs => hs.past
  refine Ensures.pre (P := At src [] tokens) ?_ fun s hs => hs.at
  refine Ensures.ifValue ?_ ?_
  · dsimp only
    rw [if_pos rfl]
    refine Ensures.advance (M := fun first s => s.current = first ∧ Due src [] tokens s) ?_
      fun first => ?_
    · exact fun s hs => ⟨rfl, hs.2.due he (.inl hs.1)⟩
    · split
      · rename_i hequal
        refine Ensures.advance (M := fun _ => Due src [] tokens) ?_ fun _ => ?_
        · intro s hs
          have hk : s.current.kind = .equal := by rw [hs.1, hequal]
          exact (hs.2.at (by rw [hk]; rfl)).due he (.inr (by rw [hk]; rfl))
        · exact (hexpr.settles [] tokens).bind hbody
      · exact ((hexpr.settles [] tokens).bind hbody).pre fun s hs => hs.2
  · exact Ensures.bind (M := fun _ => At src [] tokens) (Ensures.pure fun s hs => hs) hbody

/-- Behind the comma at the end of the values of a data directive. -/
structure Trailing (src : Source) (tokens : List Token) (s : State) : Prop where
  within : s.Within src
  honest : s.Honest
  comma : ∃ comma, comma.kind = .comma ∧
    Stretch (InValue src s.diagnostics) [] tokens (comma :: s.tokens)

omit he in
theorem Trailing.past (h : Trailing src tokens s) (he : EndsOnce src.tokens)
    (hhead : t.kind.isHead = true) (hsrc : t :: tokens <:+ src.tokens)
    (hform : DirectiveForm.ofWord (directiveWord t) = .data) : Past src t [] tokens s := by
  refine ⟨h.within, h.honest, ?_⟩
  obtain ⟨comma, hcomma, hstretch⟩ := h.comma
  have hplain : ∀ behind, InStatement src s.diagnostics t comma behind := by
    intro behind hk
    rw [hcomma] at hk
    cases hk
  have hbehind := (hstretch.mono fun _ _ ht => ht.inStatement).snoc (hplain _)
  rcases h.within.next_cases he with ⟨-, ha⟩ | ⟨hk, -, -⟩
  · rwa [State.next_of_nil ha]
  · have htokens := h.within.tokens_eq he hk
    rw [htokens] at hstretch hbehind
    exact hbehind.snoc fun _ => .trailing hhead hsrc hform hcomma hstretch

theorem ensures_dataDirective (hexpr : ReadsValue src expr) (hhead : t.kind.isHead = true)
    (hsrc : t :: tokens <:+ src.tokens)
    (hform : DirectiveForm.ofWord (directiveWord t) = .data) :
    Ensures (Begun src tokens) (dataDirective expr t) (Directed src t tokens) := by
  refine Ensures.pre (P := At src [] tokens) ?_ fun s hs => hs.at
  refine Ensures.ifValue ?_ (Ensures.pure fun s hs => Directed.simple hs.past)
  refine Ensures.advance (M := fun _ => Due src [] tokens) ?_ fun _ => ?_
  · exact fun s hs => hs.2.due he (.inl hs.1)
  · refine (hexpr.settles [] tokens).bind fun first => ?_
    refine Ensures.bind (ensures_whileNext (I := fun _ => At src [] tokens)
      (D := fun _ => Trailing src tokens) (fun acc => ?_) []) fun r => Ensures.pure fun s hs => ?_
    · refine Ensures.advance (M := fun _ s => Due src [] tokens s ∧ Trailing src tokens s) ?_
        fun next => ?_
      · rintro s' ⟨s, hs, -, hk, rfl⟩
        have honto := hs.onto he (by rw [hk]; rfl)
        have hcurrent : s.advance.current.kind = .comma := by rw [s.current_advance_eq, hk]
        refine ⟨honto.due he (.inr (by rw [hcurrent]; rfl)), honto.within.advance,
          honto.honest.advance, s.advance.current, hcurrent, ?_⟩
        have hnext : s.next = s.advance.current :: s.advance.next :=
          hs.within.next_eq_cons he (by rw [hk]; exact TokenKind.noConfusion)
        rw [s.advance.diagnostics_advance, s.diagnostics_advance]
        exact hnext ▸ hs.stretch
      · split
        · exact Ensures.pure fun s hs => hs.2
        · refine ((hexpr.settles [] tokens).bind fun e => ?_).pre fun s hs => hs.1
          exact Ensures.pure fun s hs => hs
    · refine Directed.simple ?_
      split at hs
      · exact hs.past he hhead hsrc hform
      · exact hs.past

theorem ensures_namedDirective (hexpr : ReadsValue src expr) :
    Ensures (Begun src tokens) (namedDirective expr t) (Directed src t tokens) := by
  refine Ensures.pre (P := At src [] tokens) ?_ fun s hs => hs.at
  refine Ensures.peek fun next => ?_
  split
  · rename_i hname
    refine Ensures.advance (M := fun name => At src [name] tokens) ?_ fun name => ?_
    · exact fun s hs => hs.2.name he (hs.1 ▸ hname)
    · refine Ensures.ifNext ?_ (Ensures.pure fun s hs => Directed.simple hs.past)
      refine Ensures.advance
        (M := fun _ s => s.current.kind = .equal ∧ At src [name] tokens s) ?_ fun _ => ?_
      · exact fun s hs => ⟨by rw [s.current_advance_eq, hs.1], hs.2.onto he (by rw [hs.1]; rfl)⟩
      · refine Ensures.peek fun first => ?_
        split
        · exact Ensures.pure fun s hs => Directed.simple hs.2.2.past
        · refine Ensures.advance (M := fun _ => Due src [name] tokens) ?_ fun _ => ?_
          · exact fun s hs => hs.2.2.due he (.inr (by rw [hs.2.1]; rfl))
          · exact (hexpr.settles [name] tokens).bind fun value =>
              Ensures.pure fun s hs => Directed.simple hs.past
  · refine ((keeps_reportAt next _ [] tokens).bind fun _ => ?_).pre fun s hs => hs.2
    exact Ensures.pure fun s hs => Directed.simple hs.past

theorem ensures_defineDirective :
    Ensures (Begun src tokens) (defineDirective t) (Directed src t tokens) := by
  refine Ensures.pre (P := At src [] tokens) ?_ fun s hs => hs.at
  refine Ensures.peek fun next => ?_
  split
  · rename_i hname
    refine Ensures.advance (M := fun name => At src [name] tokens) ?_ fun name =>
      Ensures.pure fun s hs => Directed.simple hs.past
    exact fun s hs => hs.2.name he (hs.1 ▸ hname)
  · refine ((keeps_reportAt next _ [] tokens).bind fun _ => ?_).pre fun s hs => hs.2
    exact Ensures.pure fun s hs => Directed.simple hs.past

/-- A string as the last part of a directive, whose absence is reported. -/
theorem ensures_string (message : String) (value : Token → Expr) :
    Ensures (At src [] tokens)
      (do
        if ← nextIs .string then
          let s ← advance
          return Statement.directive ⟨t, none, [], value s⟩
        else
          reportNext message
          return Statement.directive ⟨t, none, [], .missing⟩)
      (Directed src t tokens) := by
  refine Ensures.ifNext ?_ ?_
  · refine Ensures.advance (M := fun _ => At src [] tokens) ?_ fun name =>
      Ensures.pure fun s hs => Directed.simple hs.past
    exact fun s hs => hs.2.onto he (by rw [hs.1]; rfl)
  · exact (keeps_reportNext _ [] tokens).bind fun _ =>
      Ensures.pure fun s hs => Directed.simple hs.past

theorem ensures_encodingDirective :
    Ensures (Begun src tokens) (encodingDirective t) (Directed src t tokens) :=
  (ensures_string he _ stringLiteral).pre fun _ hs => hs.at

theorem ensures_importDirective :
    Ensures (Begun src tokens) (importDirective t) (Directed src t tokens) := by
  refine Ensures.pre (P := At src [] tokens) ?_ fun s hs => hs.at
  refine (keeps_importKind he [] tokens).bind fun kind => ?_
  exact ensures_string he _ fun s => .array t (kind ++ [stringLiteral s])

theorem ensures_callableDirective (hblock : ReadsBlock src block) (what : String)
    (hform : DirectiveForm.ofWord (directiveWord t) ≠ .enumeration) :
    Ensures (Begun src tokens) (callableDirective block what t) (Directed src t tokens) := by
  refine (ensures_headerName he what t).bind fun name => ?_
  cases name with
  | none => exact Ensures.pure fun s hs => Directed.simple hs.past
  | some name =>
    have hbody : ∀ parameters, Ensures (At src (name :: parameters) tokens) _ _ :=
      fun parameters => ensures_namedBody he hblock name parameters hform
    refine Ensures.pre (P := At src [name] tokens) ?_ ?_
    · refine Ensures.ifNext ?_ ?_
      · dsimp only
        rw [if_pos rfl]
        refine Ensures.advance (M := fun _ => At src [name] tokens) ?_ fun _ => ?_
        · exact fun s hs => hs.2.onto he (by rw [hs.1]; rfl)
        · exact (ensures_parameterList he).bind hbody
      · exact Ensures.bind (M := fun parameters => At src (name :: parameters) tokens)
          (Ensures.pure fun s hs => hs) hbody
    · rintro s ⟨hname, rest, rfl, hs⟩
      exact hs.name hname

theorem ensures_pseudocommandDirective (hblock : ReadsBlock src block)
    (hform : DirectiveForm.ofWord (directiveWord t) ≠ .enumeration) :
    Ensures (Begun src tokens) (pseudocommandDirective block t) (Directed src t tokens) := by
  refine (ensures_headerName he _ t).bind fun name => ?_
  cases name with
  | none => exact Ensures.pure fun s hs => Directed.simple hs.past
  | some name =>
    refine Ensures.pre (P := At src [name] tokens) ?_ ?_
    · refine (ensures_separatedNames he rfl ":").bind fun parameters => ?_
      have hbody : Ensures (At src (name :: parameters) tokens) _ (Directed src t tokens) :=
        ensures_namedBody he hblock name parameters hform
      have hplain : Ensures (At src (name :: parameters) tokens)
          (do
            reportNext "Expected '\x7b' after parameter list"
            return Statement.directive ⟨t, some name, parameters, .missing⟩)
          (Directed src t tokens) := by
        refine (keeps_reportNext _ _ tokens).bind fun _ => Ensures.pure fun s hs => ?_
        refine .plain rfl ?_
        rw [headerNames_mk hform]
        exact hs.past
      refine Ensures.bind (M := fun _ => At src (name :: parameters) tokens) ?_ fun opened => ?_
      · exact fun s hs => hs
      · split
        · exact hplain
        · exact hbody
    · rintro s ⟨hname, rest, rfl, hs⟩
      exact hs.name hname

theorem ensures_namespaceDirective (hblock : ReadsBlock src block)
    (hform : DirectiveForm.ofWord (directiveWord t) ≠ .enumeration) :
    Ensures (Begun src tokens) (namespaceDirective block t) (Directed src t tokens) := by
  refine (ensures_headerName he _ t).bind fun name => ?_
  cases name with
  | none => exact Ensures.pure fun s hs => Directed.simple hs.past
  | some name =>
    refine Ensures.pre (ensures_namedBody he hblock name [] hform) ?_
    rintro s ⟨hname, rest, rfl, hs⟩
    exact hs.name hname

theorem ensures_ifDirective (hexpr : ReadsValue src expr) (hblock : ReadsBlock src block)
    (hform : DirectiveForm.ofWord (directiveWord t) ≠ .enumeration) :
    Ensures (Begun src tokens) (ifDirective expr block t) (Directed src t tokens) := by
  have hbody : ∀ value, Ensures (At src [] tokens) _ (Directed src t tokens) := fun value =>
    (ensures_body he hblock value hform).pre fun s hs => hs.past
  refine Ensures.pre (P := At src [] tokens) ?_ fun s hs => hs.at
  refine Ensures.ifNext ?_ ?_
  · dsimp only
    rw [if_pos rfl]
    refine Ensures.advance (M := fun _ => Due src [] tokens) ?_ fun _ => ?_
    · intro s hs
      refine (hs.2.onto he (by rw [hs.1]; rfl)).ready ?_
      rw [s.current_advance_eq, hs.1]
      rfl
    · exact (hexpr.settles [] tokens).bind hbody
  · exact Ensures.bind (M := fun _ => At src [] tokens) (Ensures.pure fun s hs => hs) hbody

/-- The header of a loop is skipped from its opening mark to the partner of that. -/
theorem ensures_loopHeader {opening : Token} (hopening : opening.kind = .leftParen)
    (hhead : t.kind.isHead = true) (hsrc : t :: opening :: inner <:+ src.tokens)
    (hform : DirectiveForm.ofWord (directiveWord t) = .loop) :
    Ensures (fun s => s.current.kind = .leftParen ∧ Begun src inner s)
      (skipNested .leftParen .rightParen) fun _ => Past src t [] (opening :: inner) := by
  rintro s ⟨hk, hs⟩
  have hne : s.current.kind ≠ .endOfText := by rw [hk]; decide
  have hskip := hs.skipped he .leftParen (show TokenKind.rightParen ≠ .endOfText by decide) hne
  generalize (skipNested .leftParen .rightParen).run s = r at hskip ⊢
  obtain ⟨hwithin, hhonest, hmatch⟩ := hskip
  have hsuffix := fromMatch_suffix .leftParen .rightParen 0 inner
  -- what is skipped ends behind the partner, or before the end of the text
  have hend : r.2.next <:+ inner ∧ ∀ u behind, u :: behind <:+ inner → r.2.next <:+ behind →
      fromMatch .leftParen .rightParen 0 inner <:+ u :: behind := by
    split at hmatch
    · obtain ⟨htokens, -⟩ := hmatch
      rw [← htokens] at hsuffix ⊢
      refine ⟨(List.suffix_cons _ _).trans hsuffix, fun u behind hu hbehind => ?_⟩
      refine List.suffix_of_suffix_length_le hsuffix hu ?_
      simpa using hbehind.length_le
    · obtain ⟨hnext, -⟩ := hmatch
      rw [hnext]
      exact ⟨hsuffix, fun u behind _ hbehind => hbehind.trans (List.suffix_cons u behind)⟩
  refine ⟨hwithin, hhonest, ?_, fun u behind hu hbehind hstructural => ?_⟩
  · obtain ⟨front, hfront⟩ := hend.1
    exact ⟨opening :: front, by rw [List.cons_append, hfront], List.nil_sublist _⟩
  · rcases List.suffix_cons_iff.1 hu with hu | hu
    · cases hu
      rw [hopening] at hstructural
      cases hstructural
    · exact .header hhead hsrc hform hopening hu (hend.2 u behind hu hbehind)

theorem ensures_forDirective (hblock : ReadsBlock src block) (hhead : t.kind.isHead = true)
    (hsrc : t :: tokens <:+ src.tokens)
    (hform : DirectiveForm.ofWord (directiveWord t) = .loop) :
    Ensures (Begun src tokens) (forDirective block t) (Directed src t tokens) := by
  have hform' : DirectiveForm.ofWord (directiveWord t) ≠ .enumeration := by rw [hform]; decide
  have hbody : Ensures (Past src t [] tokens) _ (Directed src t tokens) :=
    ensures_body he hblock .missing hform'
  refine Ensures.ifNext ?_ (hbody.pre fun s hs => hs.at.past)
  rintro s ⟨hk, hs⟩
  have hopening : s.advance.current.kind = .leftParen := by rw [s.current_advance_eq, hk]
  obtain ⟨htokens, hbegun⟩ := hs.onto he (by rw [hk]; decide)
  have hsrc' := htokens ▸ hsrc
  have hpast := ensures_loopHeader he hopening hhead hsrc' hform s.advance ⟨hopening, hbegun⟩
  exact hbody _ (htokens ▸ hpast)

/-! ## Enumerations -/

/-- Before the current token in the block of an enumeration, with the members so far. -/
structure Gathered (src : Source) (inner : List Token) (members : List (Token × Option Expr))
    (s : State) : Prop where
  within : s.Within src
  honest : s.Honest
  stretch : Stretch (InMembers src s.diagnostics) (members.map (·.1)) inner s.tokens

/-- Behind the current token, the loop goes on at the next one, or ends at the end of the text. -/
theorem gathered_turn (hs : s.Within src) (hhonest : s.Honest)
    (h : Stretch (InMembers src s.diagnostics) (members.map (·.1)) inner s.next) :
    if s.ahead = [] then Gathered src inner members s ∧ endsBlock s.current.kind = true
    else Gathered src inner members s.advance := by
  split
  · rename_i ha
    rw [State.next_of_nil ha] at h
    exact ⟨⟨hs, hhonest, h⟩, by rw [(hs.kind_eq_iff he).2 ha]; rfl⟩
  · refine ⟨hs.advance, hhonest.advance, ?_⟩
    rw [s.diagnostics_advance]
    exact h

omit he in
theorem Gathered.name (h : Gathered src inner members s) (he : EndsOnce src.tokens)
    (hname : s.current.kind.isName = true) (value : Option Expr) :
    Stretch (InMembers src s.diagnostics) ((members ++ [(s.current, value)]).map (·.1)) inner
      s.next := by
  have hend : s.current.kind ≠ .endOfText := by
    intro hend
    rw [hend] at hname
    cases hname
  have hstretch := h.stretch
  rw [h.within.tokens_eq he hend] at hstretch
  rw [List.map_append]
  refine hstretch.trans (.single ?_ (List.Sublist.refl _))
  exact (inValue_of_not_structural (TokenKind.isStructural_of_isName hname)).inMembers

/-- A member with a value, which may have stopped on the end of the block. -/
theorem Gathered.value (hexpr : ReadsValue src expr) (h : Gathered src inner members s)
    (hname : s.current.kind.isName = true) (hequal : s.peek.kind = .equal) (value : Option Expr) :
    let s' := (expr.run s.advance.advance).2
    if endsBlock s'.current.kind = true ∨ s'.ahead = [] then
      Gathered src inner (members ++ [(s.current, value)]) s' ∧ endsBlock s'.current.kind = true
    else Gathered src inner (members ++ [(s.current, value)]) s'.advance := by
  intro s'
  have hequal' : s.advance.current.kind = .equal := by rw [s.current_advance_eq, hequal]
  have hnext : s.next = s.advance.current :: s.advance.next :=
    h.within.next_eq_cons he (by rw [hequal]; exact TokenKind.noConfusion)
  have hbegun : Begun src s.advance.next s.advance := ⟨h.within.advance, h.honest.advance, rfl⟩
  have hdue : Due src [] s.advance.next s.advance.advance :=
    hbegun.at.due he (.inr (by rw [hequal']; rfl))
  have hat : At src [] s.advance.next s' := hexpr.settles [] _ _ hdue
  have hrun : Run src true s.advance.advance s' := (hexpr.along _ hdue.within).1
  have hgrown : s.diagnostics ⊆ s'.diagnostics := by
    have hsubset := hexpr.along.diagnostics_subset hdue.within
    rwa [s.advance.diagnostics_advance, s.diagnostics_advance] at hsubset
  -- the members up to the equals sign
  have hfront : Stretch (InMembers src s'.diagnostics)
      ((members ++ [(s.current, value)]).map (·.1)) inner s.advance.next := by
    have hstretch := (h.name he hname value).mono fun _ _ ht => ht.mono hgrown
    rw [hnext] at hstretch
    refine hstretch.snoc fun hk => ?_
    rw [hequal'] at hk
    cases hk
  have hvalue := hat.stretch.mono fun _ _ ht => ht.inMembers
  cases hk : endsBlock s'.current.kind with
  | false =>
    have hall := hfront.trans hvalue
    rw [List.append_nil] at hall
    simpa [hk] using gathered_turn he hat.within hat.honest hall
  | true =>
    rw [if_pos (.inl rfl)]
    refine ⟨⟨hat.within, hat.honest, ?_⟩, rfl⟩
    have htokens : s'.tokens <:+ s.advance.next := hrun.suffix
    have hrest : Stretch (InMembers src s'.diagnostics) [] s.advance.next s'.tokens := by
      by_cases hend : s'.current.kind = .endOfText
      · rw [← State.next_of_nil ((hat.within.kind_eq_iff he).1 hend)]
        exact hvalue
      · rw [hat.within.tokens_eq he hend] at htokens ⊢
        exact hvalue.drop htokens
    have hall := hfront.trans hrest
    rwa [List.append_nil] at hall

theorem ensures_enumMember (hexpr : ReadsValue src expr) (members : List (Token × Option Expr)) :
    Ensures (fun s => endsBlock s.current.kind = false ∧ Gathered src inner members s)
      (enumMember expr) fun r s =>
        if r.2 = true ∨ s.ahead = [] then
          Gathered src inner (members ++ r.1) s ∧ endsBlock s.current.kind = true
        else Gathered src inner (members ++ r.1) s.advance := by
  refine Ensures.current fun t => ?_
  -- tokens that are no member
  have hother : ∀ s s' : State, endsBlock s.current.kind = false ∧ Gathered src inner members s →
      s.Grows s' → InMembers src s'.diagnostics s.current s.next →
      if s'.ahead = [] then
        Gathered src inner (members ++ []) s' ∧ endsBlock s'.current.kind = true
      else Gathered src inner (members ++ []) s'.advance := by
    rintro s s' ⟨hk, hs⟩ hg ht
    have hend : s.current.kind ≠ .endOfText := by
      intro hend
      rw [hend] at hk
      cases hk
    rw [List.append_nil]
    refine gathered_turn he (hg.within hs.within) (hg.honest hs.honest) ?_
    have hstretch := hs.stretch.mono fun _ _ ht => ht.mono hg.diagnostics_subset
    rw [hs.within.tokens_eq he hend] at hstretch
    rw [hg.next_eq]
    exact hstretch.snoc ht
  split
  · rename_i hname
    refine Ensures.ifNext ?_ ?_
    · rintro s ⟨hequal, rfl, hk, hs⟩
      exact hs.value he hexpr hname hequal _
    · rintro s ⟨rfl, hk, hs⟩
      simpa using gathered_turn he hs.within hs.honest (hs.name he hname none)
  · split
    · rename_i hcomma
      rintro s ⟨rfl, hs⟩
      have ht : InMembers src s.diagnostics s.current s.next := by
        intro hk
        rw [hcomma] at hk
        cases hk
      simpa using hother s s hs (.refl s) ht
    · rintro s ⟨rfl, hs⟩
      have ht := hs.2.honest.reported s.current
        ("Unexpected token '" ++ s.current.literal ++ "' in expression")
      have hbrace : s.current.kind ≠ .rightBrace := by
        intro hbrace
        have hk := hs.1
        rw [hbrace] at hk
        cases hk
      have hmore := hother s ((reportHere _).run s).2 hs (s.grows_reportAt s.current _)
        fun _ => .inl ⟨hbrace, ht⟩
      simpa using hmore

theorem ensures_members (hexpr : ReadsValue src expr) :
    Ensures (Gathered src inner []) (untilKind endsBlock (enumMember expr)) fun members s =>
      Gathered src inner members s ∧ endsBlock s.current.kind = true := by
  exact ensures_untilKind (I := Gathered src inner)
    (D := fun members s => Gathered src inner members s ∧ endsBlock s.current.kind = true)
    (fun _ _ hk hs => ⟨hs, hk⟩) (ensures_enumMember he hexpr) []

theorem ensures_enumDirective (hexpr : ReadsValue src expr) (hsrc : t :: tokens <:+ src.tokens)
    (hform : DirectiveForm.ofWord (directiveWord t) = .enumeration) :
    Ensures (Begun src tokens) (enumDirective expr t) (Directed src t tokens) := by
  refine (ensures_headerName he _ t).bind fun name => ?_
  cases name with
  | none => exact Ensures.pure fun s hs => Directed.simple hs.past
  | some name =>
    refine Ensures.ifNext ?_ ?_
    · rintro s ⟨hk, hname, rest, rfl, hs⟩
      have hopening : s.advance.current.kind = .leftBrace := by rw [s.current_advance_eq, hk]
      obtain ⟨hrest, hbegun⟩ := hs.onto he (by rw [hk]; decide)
      have hstart : Gathered src s.advance.next [] s.advance.advance :=
        ⟨hbegun.within.advance, hbegun.honest.advance, Stretch.refl _⟩
      obtain ⟨hmembers, hend⟩ := ensures_members he hexpr _ hstart
      refine .members rfl hopening ?_ (.members hform (hrest ▸ hsrc) hopening hmembers.stretch)
        (hmembers.within.closes he hend) hmembers.within hmembers.honest
      rw [Directive.headerNames, Directive.form, if_pos hform, hrest]
      refine .single (fun hk => ?_) (List.Sublist.refl _)
      rw [TokenKind.isStructural_of_isName hname] at hk
      cases hk
    · refine Ensures.pre (P := At src [name] tokens) ?_ ?_
      · exact (keeps_reportNext _ _ tokens).bind fun _ =>
          Ensures.pure fun s hs => Directed.simple hs.past
      · rintro s ⟨hname, rest, rfl, hs⟩
        exact hs.name hname

theorem ensures_directive (hexpr : ReadsValue src expr) (hblock : ReadsBlock src block)
    (hhead : t.kind.isHead = true) (hsrc : t :: tokens <:+ src.tokens) :
    Ensures (Begun src tokens) (directive expr block t) (Directed src t tokens) := by
  unfold directive
  split
  · exact ensures_encodingDirective he
  · exact ensures_defineDirective he
  · exact ensures_importDirective he
  · rename_i hform
    exact ensures_callableDirective he hblock _ (by rw [hform]; simp)
  · rename_i hform
    exact ensures_pseudocommandDirective he hblock (by rw [hform]; decide)
  · rename_i hform
    exact ensures_namespaceDirective he hblock (by rw [hform]; decide)
  · rename_i hform
    exact ensures_enumDirective he hexpr hsrc hform
  · rename_i hform
    exact ensures_dataDirective he hexpr hhead hsrc hform
  · rename_i hform
    exact ensures_forDirective he hblock hhead hsrc hform
  · rename_i hform
    exact ensures_ifDirective he hexpr hblock (by rw [hform]; decide)
  · exact ensures_namedDirective he hexpr
  · rename_i hform
    exact ensures_genericDirective he hexpr hblock (by rw [hform]; decide)

end Directives

end Asm6510.Grammar
