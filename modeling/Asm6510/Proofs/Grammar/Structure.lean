import Asm6510.Proofs.Grammar.Stretches

/-!
# Statements and the tokens they take

* `Stray`: why a statement took a structural token that starts nothing and opens or ends no block.
* `Items`: statements, the tokens that they start at, and the tokens behind them. Every token in
  between belongs to one statement, in the order of the text.

`Items` says nothing about how the statements were found; `Asm6510.Proofs.Grammar.Statements` shows
that those of a parse are of this form. It composes (`Items.append`) and is kept by more messages
(`Items.mono`).
-/

namespace Asm6510

/-! ## Trees of statements -/

namespace Statement

/-- Statements between braces, which may be the block of a directive. -/
def braced : Option Directive → (opening : Token) → (body : List Statement) → (closing : Token) →
    Statement
  | none, opening, body, closing => block opening body closing
  | some d, opening, body, closing => directiveBlock d opening body closing

/-- The token that a label, an instruction or a directive starts with. -/
def head? : Statement → Option Token
  | label t => some t
  | instruction t _ => some t
  | directive d => some d.token
  | directiveBlock d _ _ _ => some d.token
  | block _ _ _ => none
  | expression _ _ => none

theorem preorder_braced (dir : Option Directive) (opening closing : Token) (body : List Statement) :
    preorder (braced dir opening body closing) =
      braced dir opening body closing :: preorders body := by
  cases dir with
  | none => rw [braced, preorder]
  | some d => rw [braced, preorder]

theorem ofDirective_some (d : Directive) (b : Braces) :
    ofDirective d (some b) = braced (some d) b.opening b.body b.closing :=
  rfl

end Statement

/-- The names that stand between a directive and its block. The members of an enumeration stand in
the block. -/
def Directive.headerNames (d : Directive) : List Token :=
  d.name.toList ++ if d.form = .enumeration then [] else d.parameters

namespace Grammar

variable {src : Source} {ds ds' : List Diagnostic}

/-! ## Structural tokens without a role -/

/-- A token in the block of an enumeration: one with a place there, one that is reported, or one
that a value took amiss. -/
def InMembers (src : Source) (ds : List Diagnostic) (t : Token) (behind : List Token) : Prop :=
  t.kind.isStructural = true →
    t.kind ≠ .rightBrace ∧ (Reported ds t.place ∨ DepthReported ds) ∨ Amiss src ds t behind

/-- Why the statement that starts at `first` took the structural token `t`, with the tokens `behind`
after it, though `t` starts nothing and opens or ends no block. -/
inductive Stray (src : Source) (ds : List Diagnostic) (first t : Token) (behind : List Token) : Prop
  /-- A value took it. -/
  | amiss (h : Amiss src ds t behind)
  /-- It stands behind the comma at the end of the values of a data directive. -/
  | trailing {comma : Token} {values : List Token} (hhead : first.kind.isHead = true)
      (hsrc : first :: values <:+ src.tokens)
      (hform : DirectiveForm.ofWord (directiveWord first) = .data) (hcomma : comma.kind = .comma)
      (hvalues : Stretch (InValue src ds) [] values (comma :: t :: behind))
  /-- It stands in the header of a loop, which is skipped. -/
  | header {opening : Token} {inner : List Token} (hhead : first.kind.isHead = true)
      (hsrc : first :: opening :: inner <:+ src.tokens)
      (hform : DirectiveForm.ofWord (directiveWord first) = .loop)
      (hopening : opening.kind = .leftParen) (ht : t :: behind <:+ inner)
      (hmatch : fromMatch .leftParen .rightParen 0 inner <:+ t :: behind)
  /-- It stands in the block of an enumeration, where no blocks are. -/
  | member {name opening : Token} {inner : List Token} (hhead : first.kind.isHead = true)
      (hsrc : first :: name :: opening :: inner <:+ src.tokens)
      (hform : DirectiveForm.ofWord (directiveWord first) = .enumeration)
      (hopening : opening.kind = .leftBrace)
      (hinner : Stretch (InMembers src ds) [] inner (t :: behind)) (ht : t.kind ≠ .rightBrace)
      (hm : Reported ds t.place ∨ DepthReported ds)

/-- A token of the statement that starts at `first`, behind that and outside of its block. -/
def InStatement (src : Source) (ds : List Diagnostic) (first t : Token) (behind : List Token) :
    Prop :=
  t.kind.isStructural = true → Stray src ds first t behind

section Messages

variable {first t : Token} {behind : List Token}

theorem InMembers.mono (h : InMembers src ds t behind) (hds : ds ⊆ ds') :
    InMembers src ds' t behind := by
  intro ht
  rcases h ht with ⟨hk, hm⟩ | hm
  · exact .inl ⟨hk, hm.imp (·.mono hds) (·.mono hds)⟩
  · exact .inr (hm.mono hds)

theorem Stray.mono (h : Stray src ds first t behind) (hds : ds ⊆ ds') :
    Stray src ds' first t behind := by
  cases h with
  | amiss h => exact .amiss (h.mono hds)
  | trailing hhead hsrc hform hcomma hvalues =>
    exact .trailing hhead hsrc hform hcomma (hvalues.mono fun _ _ hv => hv.mono hds)
  | header hhead hsrc hform hopening ht hmatch =>
    exact .header hhead hsrc hform hopening ht hmatch
  | member hhead hsrc hform hopening hinner ht hm =>
    exact .member hhead hsrc hform hopening (hinner.mono fun _ _ hv => hv.mono hds) ht
      (hm.imp (·.mono hds) (·.mono hds))

theorem InStatement.mono (h : InStatement src ds first t behind) (hds : ds ⊆ ds') :
    InStatement src ds' first t behind :=
  fun ht => (h ht).mono hds

theorem InValue.inStatement (h : InValue src ds t behind) : InStatement src ds first t behind :=
  fun ht => .amiss (h ht)

theorem InValue.inMembers (h : InValue src ds t behind) : InMembers src ds t behind :=
  fun ht => .inr (h ht)

end Messages

/-! ## Statements -/

/-- The statement without a block that the token `t` starts, if it starts one, and its names. -/
inductive Plain (t : Token) : Option Statement → List Token → Prop
  | nothing (hhead : t.kind.isHead = false) (hopen : t.kind ≠ .leftBrace) : Plain t none []
  | label (hk : t.kind = .label) : Plain t (some (.label t)) []
  | instruction {cls : MnemonicClass} (hk : t.kind = .mnemonic cls) (e : Expr) :
      Plain t (some (.instruction t e)) []
  | directive (hbrace : t.kind.isBrace = false) {d : Directive} (hd : d.token = t) :
      Plain t (some (.directive d)) d.headerNames
  | expression (hk : t.kind.isStructural = false) (e : Expr) : Plain t (some (.expression t e)) []

/-- The tokens of a block from its first one on: those of the directive that it belongs to, if it
belongs to one, the opening brace, and what stands in it and behind it. -/
inductive Header (src : Source) (ds : List Diagnostic) :
    Option Directive → (opening : Token) → (tokens inner : List Token) → Prop
  | bare {opening : Token} {inner : List Token} (hopening : opening.kind = .leftBrace) :
      Header src ds none opening (opening :: inner) inner
  | directive {d : Directive} {opening : Token} {rest inner : List Token}
      (hd : d.token.kind.isHead = true) (hopening : opening.kind = .leftBrace)
      (hrest : Stretch (InStatement src ds d.token) d.headerNames rest (opening :: inner)) :
      Header src ds (some d) opening (d.token :: rest) inner

/-- The end of a block: its closing brace, or the end of the text, which stays. -/
inductive Closes (closing : Token) : (tokens behind : List Token) → Prop
  | brace {behind : List Token} (h : closing.kind = .rightBrace) :
      Closes closing (closing :: behind) behind
  | ended (h : closing.kind = .endOfText) : Closes closing [closing] [closing]

/-- Blocks that hold no statements: one that the bound of the nesting refused, which ends at the
partner of its opening brace, or that of an enumeration, which holds its members. -/
inductive Sealed (src : Source) (ds : List Diagnostic) :
    Option Directive → (inner close : List Token) → Prop
  | refused {dir : Option Directive} {inner : List Token}
      (hdir : ∀ d ∈ dir, d.form ≠ .enumeration) (hm : DepthReported ds) :
      Sealed src ds dir inner (fromMatch .leftBrace .rightBrace 0 inner)
  | members {d : Directive} {name opening : Token} {inner close : List Token}
      (hd : d.form = .enumeration) (hsrc : d.token :: name :: opening :: inner <:+ src.tokens)
      (hopening : opening.kind = .leftBrace)
      (h : Stretch (InMembers src ds) d.parameters inner close) : Sealed src ds (some d) inner close

/-- The statements start at the first token of `tokens` and end before the first one of `last`. No
statement starts at a token that `stop` tells. -/
inductive Items (src : Source) (ds : List Diagnostic) :
    (stop : TokenKind → Bool) → List Statement → (tokens last : List Token) → Prop
  | done {stop : TokenKind → Bool} {tokens : List Token} : Items src ds stop [] tokens tokens
  | plain {stop : TokenKind → Bool} {t : Token} {st : Option Statement} {sts : List Statement}
      {names rest behind last : List Token} (hstop : stop t.kind = false)
      (hend : t.kind ≠ .endOfText) (hplain : Plain t st names)
      (hrest : Stretch (InStatement src ds t) names rest behind)
      (hmore : Items src ds stop sts behind last) :
      Items src ds stop (st.toList ++ sts) (t :: rest) last
  | braced {stop : TokenKind → Bool} {dir : Option Directive} {opening closing : Token}
      {body sts : List Statement} {tokens inner close behind last : List Token}
      (hheader : Header src ds dir opening tokens inner) (hdir : ∀ d ∈ dir, d.form ≠ .enumeration)
      (hbody : Items src ds endsBlock body inner close) (hclose : Closes closing close behind)
      (hmore : Items src ds stop sts behind last) :
      Items src ds stop (Statement.braced dir opening body closing :: sts) tokens last
  | sealed {stop : TokenKind → Bool} {dir : Option Directive} {opening closing : Token}
      {sts : List Statement} {tokens inner close behind last : List Token}
      (hheader : Header src ds dir opening tokens inner)
      (hsealed : Sealed src ds dir inner close) (hclose : Closes closing close behind)
      (hmore : Items src ds stop sts behind last) :
      Items src ds stop (Statement.braced dir opening [] closing :: sts) tokens last

section Items

variable {stop : TokenKind → Bool} {dir : Option Directive} {opening closing t : Token}
  {sts sts' : List Statement} {tokens inner close behind last last' : List Token}

theorem Header.mono (h : Header src ds dir opening tokens inner) (hds : ds ⊆ ds') :
    Header src ds' dir opening tokens inner := by
  cases h with
  | bare hopening => exact .bare hopening
  | directive hd hopening hrest =>
    exact .directive hd hopening (hrest.mono fun _ _ ht => ht.mono hds)

theorem Header.opening_kind (h : Header src ds dir opening tokens inner) :
    opening.kind = .leftBrace := by
  cases h with
  | bare hopening => exact hopening
  | directive _ hopening _ => exact hopening

theorem Header.suffix (h : Header src ds dir opening tokens inner) :
    opening :: inner <:+ tokens := by
  cases h with
  | bare => exact List.suffix_rfl
  | directive _ _ hrest => exact hrest.suffix.trans (List.suffix_cons _ _)

theorem Sealed.mono (h : Sealed src ds dir inner close) (hds : ds ⊆ ds') :
    Sealed src ds' dir inner close := by
  cases h with
  | refused hdir hm => exact .refused hdir (hm.mono hds)
  | members hd hsrc hopening h => exact .members hd hsrc hopening (h.mono fun _ _ ht => ht.mono hds)

theorem Sealed.suffix (h : Sealed src ds dir inner close) : close <:+ inner := by
  cases h with
  | refused => exact fromMatch_suffix _ _ _ _
  | members _ _ _ h => exact h.suffix

theorem Closes.suffix (h : Closes closing close behind) : behind <:+ close := by
  cases h with
  | brace => exact List.suffix_cons _ _
  | ended => exact List.suffix_rfl

theorem Closes.ne_nil (h : Closes closing close behind) : close ≠ [] := by
  cases h <;> exact List.cons_ne_nil _ _

theorem Items.mono (h : Items src ds stop sts tokens last) (hds : ds ⊆ ds') :
    Items src ds' stop sts tokens last := by
  induction h with
  | done => exact .done
  | plain hstop hend hplain hrest _ ih =>
    exact .plain hstop hend hplain (hrest.mono fun _ _ ht => ht.mono hds) ih
  | braced hheader hdir _ hclose _ ihbody ih =>
    exact .braced (hheader.mono hds) hdir ihbody hclose ih
  | sealed hheader hsealed hclose _ ih =>
    exact .sealed (hheader.mono hds) (hsealed.mono hds) hclose ih

theorem Items.append (h : Items src ds stop sts tokens last)
    (h' : Items src ds stop sts' last last') : Items src ds stop (sts ++ sts') tokens last' := by
  induction h with
  | done => exact h'
  | plain hstop hend hplain hrest _ ih =>
    rw [List.append_assoc]
    exact .plain hstop hend hplain hrest (ih h')
  | braced hheader hdir hbody hclose _ _ ih => exact .braced hheader hdir hbody hclose (ih h')
  | sealed hheader hsealed hclose _ ih => exact .sealed hheader hsealed hclose (ih h')

theorem Items.suffix (h : Items src ds stop sts tokens last) : last <:+ tokens := by
  induction h with
  | done => exact List.suffix_rfl
  | plain _ _ _ hrest _ ih => exact (ih.trans hrest.suffix).trans (List.suffix_cons _ _)
  | braced hheader _ _ hclose _ ihbody ih =>
    have hinner := (List.suffix_cons _ _).trans hheader.suffix
    exact ((ih.trans hclose.suffix).trans ihbody).trans hinner
  | sealed hheader hsealed hclose _ ih =>
    have hinner := (List.suffix_cons _ _).trans hheader.suffix
    exact ((ih.trans hclose.suffix).trans hsealed.suffix).trans hinner

end Items

end Grammar

end Asm6510
