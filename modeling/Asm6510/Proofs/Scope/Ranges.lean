import Asm6510.Analysis.Basic
import Asm6510.Proofs.Grammar.Stream
import Mathlib

/-!
# The ranges of scopes

* `Scope.FitsBlock`: a scope has the range of its block, and what belongs to it lies in that range.
* `Scope.Apart`: the children of a scope follow one another in the text.
* `Scope.Gains`: what statements add to a scope stands between two positions.

Main statement: `parse_scope_ranges`, the scopes of a program are nested as their ranges are,
whatever was reported. The positions come from the order of the tokens: statements take their
tokens one after the other (`Items`), so what they define stands between their first token and the
token behind them (`Items.gains`).
-/

namespace Asm6510

open Grammar

/-! ## Order of positions -/

/-- Positions are ordered by line, then by character. -/
instance : LinearOrder Position :=
  LinearOrder.lift' (fun p => toLex (p.line, p.character)) fun p q h => by
    cases p
    cases q
    simpa using h

namespace Position

variable {p q : Position}

theorem lt_iff : p < q ↔ p.line < q.line ∨ p.line = q.line ∧ p.character < q.character :=
  Prod.Lex.toLex_lt_toLex

theorem le_iff : p ≤ q ↔ p.line < q.line ∨ p.line = q.line ∧ p.character ≤ q.character :=
  Prod.Lex.toLex_le_toLex

theorem line_le (h : p ≤ q) : p.line ≤ q.line := by
  rw [le_iff] at h
  omega

end Position

theorem Place.toPosition_lt {p q : Place} (h : p.before q = true) :
    p.toPosition < q.toPosition := by
  rw [before_iff] at h
  rw [Position.lt_iff, toPosition, toPosition]
  dsimp only
  omega

theorem Place.toPosition_le_behind (p : Place) :
    p.toPosition ≤ ⟨(p.line : Int) - 1, p.column⟩ := by
  rw [Position.le_iff, toPosition]
  dsimp only
  omega

/-- A token of one character ends no later than the next one starts. -/
theorem Place.behind_le_toPosition {p q : Place} (h : p.before q = true) :
    ⟨(p.line : Int) - 1, p.column⟩ ≤ q.toPosition := by
  rw [before_iff] at h
  rw [Position.le_iff, toPosition]
  dsimp only
  omega

def Range.Within (r outer : Range) : Prop :=
  outer.start ≤ r.start ∧ r.stop ≤ outer.stop

/-- A position lies in a range, whose end belongs to it. -/
def Range.Holds (r : Range) (p : Position) : Prop :=
  r.start ≤ p ∧ p ≤ r.stop

namespace Grammar

def Increasing (tokens : List Token) : Prop :=
  tokens.Pairwise fun t u => t.place.before u.place = true

/-- The position of the first token. -/
def startOf : List Token → Position
  | [] => ⟨0, 0⟩
  | t :: _ => t.place.toPosition

section Increasing

variable {P : Token → List Token → Prop} {tokens front rest names : List Token} {t u name : Token}

theorem Increasing.suffix (h : Increasing tokens) (hs : rest <:+ tokens) : Increasing rest :=
  h.sublist hs.sublist

theorem startOf_lt_of_mem (h : Increasing (t :: rest)) (hu : u ∈ rest) :
    startOf (t :: rest) < u.place.toPosition :=
  Place.toPosition_lt ((List.pairwise_cons.1 h).1 u hu)

theorem lt_startOf (h : Increasing (front ++ rest)) (hne : rest ≠ []) (hu : u ∈ front) :
    u.place.toPosition < startOf rest := by
  obtain ⟨v, vs, rfl⟩ := List.exists_cons_of_ne_nil hne
  exact Place.toPosition_lt ((List.pairwise_append.1 h).2.2 u hu v List.mem_cons_self)

theorem startOf_le (h : Increasing tokens) (hs : rest <:+ tokens) (hne : rest ≠ []) :
    startOf tokens ≤ startOf rest := by
  obtain ⟨front, rfl⟩ := hs
  cases front with
  | nil => exact le_rfl
  | cons t front => exact (lt_startOf h hne List.mem_cons_self).le

/-- The first of the names in a stretch stands before the others, all stand before its end. -/
theorem Stretch.names_between (h : Stretch P (name :: names) front rest)
    (hinc : Increasing (t :: front)) (hne : rest ≠ []) :
    startOf (t :: front) < name.place.toPosition ∧ name.place.toPosition < startOf rest ∧
      ∀ p ∈ names, name.place.toPosition ≤ p.place.toPosition ∧
        p.place.toPosition < startOf rest := by
  obtain ⟨taken, rfl, hsub⟩ := h.taken
  have hmem : ∀ p ∈ name :: names, p ∈ taken := fun p hp => hsub.subset hp
  have hfront : Increasing (taken ++ rest) := hinc.suffix (List.suffix_cons t _)
  have hnames : Increasing (name :: names) :=
    (List.pairwise_append.1 hfront).1.sublist hsub
  refine ⟨startOf_lt_of_mem hinc (List.mem_append_left _ (hmem name List.mem_cons_self)),
    lt_startOf hfront hne (hmem name List.mem_cons_self), fun p hp => ⟨?_, ?_⟩⟩
  · exact (startOf_lt_of_mem hnames hp).le
  · exact lt_startOf hfront hne (hmem p (List.mem_cons_of_mem _ hp))

end Increasing

end Grammar

/-! ## Named blocks -/

namespace Statement

/-- The name and the closing token of a block with a name. -/
def namedBlock? : Statement → Option (Token × Token)
  | directiveBlock d _ _ closing => d.name.map fun name => (name, closing)
  | _ => none

/-- The names and the closing tokens of blocks with names, nested ones included. -/
def namedBlocks (sts : List Statement) : List (Token × Token) :=
  (preorders sts).filterMap namedBlock?

theorem namedBlocks_append (xs ys : List Statement) :
    namedBlocks (xs ++ ys) = namedBlocks xs ++ namedBlocks ys := by
  rw [namedBlocks, preorders_append, List.filterMap_append, namedBlocks, namedBlocks]

theorem namedBlocks_braced (dir : Option Directive) (opening closing : Token)
    (body sts : List Statement) :
    namedBlocks (braced dir opening body closing :: sts) =
      (dir.bind Directive.name).toList.map (fun name => (name, closing)) ++
        (namedBlocks body ++ namedBlocks sts) := by
  rw [namedBlocks, preorders, preorder_braced, List.filterMap_append, ← namedBlocks,
    List.filterMap_cons]
  cases dir with
  | none => rfl
  | some d =>
    cases hname : d.name with
    | none => simp [braced, namedBlock?, hname, namedBlocks]
    | some name => simp [braced, namedBlock?, hname, namedBlocks]

end Statement

/-! ## Scopes and ranges -/

namespace Scope

/-- The scope of the block with a name and a closing token: it starts at the name. If the block is
open it ends there as well. Otherwise it ends behind the closing brace, and its children and symbols
lie in between. -/
structure FitsBlock (c : Scope) (name closing : Token) : Prop where
  name_eq : c.name = name.literal
  start_eq : c.range.start = name.place.toPosition
  stop_eq : c.range.stop = if closing.kind = .endOfText then c.range.start
    else ⟨(closing.place.line : Int) - 1, closing.place.column⟩
  children_within : closing.kind ≠ .endOfText → ∀ child ∈ c.children, child.range.Within c.range
  symbols_within : closing.kind ≠ .endOfText → ∀ e ∈ c.symbols.entries, c.range.Holds e.2.position

/-- The scope of a block without closing brace. -/
def LeftOpen (blocks : List (Token × Token)) (c : Scope) : Prop :=
  ∃ b ∈ blocks, c.FitsBlock b.1 b.2 ∧ b.2.kind = .endOfText

/-- The children of a scope follow one another in the text. -/
def Apart (c : Scope) : Prop :=
  c.children.Pairwise fun x y => x.range.stop < y.range.start

/-- A scope and all scopes in it are scopes of some of the blocks. -/
def Nested (blocks : List (Token × Token)) (c : Scope) : Prop :=
  ∀ path d, c.at? path = some d → (∃ b ∈ blocks, d.FitsBlock b.1 b.2) ∧ d.Apart

/-- The range of a scope lies between two positions, behind the first one. -/
def Between (lo hi : Position) (c : Scope) : Prop :=
  lo < c.range.start ∧ c.range.start ≤ c.range.stop ∧ c.range.stop ≤ hi

/-- A scope with further symbols, which stand between two positions. -/
structure Declares (lo hi : Position) (s s' : Scope) : Prop where
  name : s'.name = s.name
  range : s'.range = s.range
  children : s'.children = s.children
  symbols : ∀ e ∈ s'.symbols.entries,
    e ∈ s.symbols.entries ∨ lo ≤ e.2.position ∧ e.2.position < hi

/-- A scope with further symbols and children, which stand between two positions. -/
structure Gains (blocks : List (Token × Token)) (lo hi : Position) (s s' : Scope) : Prop where
  name : s'.name = s.name
  range : s'.range = s.range
  symbols : ∀ e ∈ s'.symbols.entries,
    e ∈ s.symbols.entries ∨ lo ≤ e.2.position ∧ e.2.position < hi
  children : ∃ new, s'.children = s.children ++ new ∧
    new.Pairwise (fun x y => x.range.stop < y.range.start) ∧
    ∀ c ∈ new, c.Between lo hi ∧ c.Nested blocks

section Gains

variable {blocks : List (Token × Token)} {lo mid hi lo' hi' : Position} {s s' s'' child : Scope}

theorem Between.mono {c : Scope} (h : c.Between lo hi) (hlo : lo' ≤ lo) (hhi : hi ≤ hi') :
    c.Between lo' hi' :=
  ⟨hlo.trans_lt h.1, h.2.1, h.2.2.trans hhi⟩

theorem Declares.refl (s : Scope) : Declares lo hi s s :=
  ⟨rfl, rfl, rfl, fun _ he => .inl he⟩

theorem Declares.trans (h : Declares lo hi s s') (h' : Declares lo hi s' s'') :
    Declares lo hi s s'' := by
  refine ⟨h'.name.trans h.name, h'.range.trans h.range, h'.children.trans h.children, ?_⟩
  intro e he
  rcases h'.symbols e he with hold | hnew
  · exact h.symbols e hold
  · exact .inr hnew

theorem Declares.gains (h : Declares lo hi s s') : Gains blocks lo hi s s' :=
  ⟨h.name, h.range, h.symbols,
    [], by rw [h.children, List.append_nil], .nil, fun _ hc => absurd hc List.not_mem_nil⟩

theorem Gains.refl (s : Scope) : Gains blocks lo hi s s :=
  (Declares.refl s).gains

theorem Gains.mono (h : Gains blocks lo hi s s') (hlo : lo' ≤ lo) (hhi : hi ≤ hi') :
    Gains blocks lo' hi' s s' := by
  obtain ⟨new, hnew, hapart, hall⟩ := h.children
  refine ⟨h.name, h.range, fun e he => ?_, new, hnew, hapart, fun c hc => ?_⟩
  · exact (h.symbols e he).imp_right fun hp => ⟨hlo.trans hp.1, hp.2.trans_le hhi⟩
  · exact ⟨(hall c hc).1.mono hlo hhi, (hall c hc).2⟩

theorem Gains.trans (h : Gains blocks lo mid s s') (h' : Gains blocks mid hi s' s'')
    (hlo : lo ≤ mid) (hhi : mid ≤ hi) : Gains blocks lo hi s s'' := by
  obtain ⟨xs, hxs, hxsApart, hxsAll⟩ := h.children
  obtain ⟨ys, hys, hysApart, hysAll⟩ := h'.children
  refine ⟨h'.name.trans h.name, h'.range.trans h.range, fun e he => ?_, xs ++ ys, ?_, ?_, ?_⟩
  · rcases h'.symbols e he with hold | hnew
    · exact (h.symbols e hold).imp_right fun hp => ⟨hp.1, hp.2.trans_le hhi⟩
    · exact .inr ⟨hlo.trans hnew.1, hnew.2⟩
  · rw [hys, hxs, List.append_assoc]
  · refine List.pairwise_append.2 ⟨hxsApart, hysApart, fun x hx y hy => ?_⟩
    exact (hxsAll x hx).1.2.2.trans_lt (hysAll y hy).1.1
  · intro c hc
    rcases List.mem_append.1 hc with hc | hc
    · exact ⟨(hxsAll c hc).1.mono le_rfl hhi, (hxsAll c hc).2⟩
    · exact ⟨(hysAll c hc).1.mono hlo le_rfl, (hysAll c hc).2⟩

/-- Symbols may stand anywhere among what follows. -/
theorem Declares.trans_gains (h : Declares lo hi s s') (h' : Gains blocks lo hi s' s'') :
    Gains blocks lo hi s s'' := by
  obtain ⟨new, hnew, hapart, hall⟩ := h'.children
  refine ⟨h'.name.trans h.name, h'.range.trans h.range, fun e he => ?_, new, ?_, hapart, hall⟩
  · rcases h'.symbols e he with hold | hp
    · exact h.symbols e hold
    · exact .inr hp
  · rw [hnew, h.children]

theorem gains_attach (s : Scope) (hbetween : child.Between lo hi) (hnested : child.Nested blocks) :
    Gains blocks lo hi s (s.attach child) := by
  refine ⟨rfl, rfl, fun _ he => .inl he, [_], rfl, List.pairwise_singleton _ _, ?_⟩
  intro c hc
  rw [List.mem_singleton] at hc
  subst hc
  split
  · -- the document of a scope plays no part
    refine ⟨hbetween, fun path d hd => ?_⟩
    cases path with
    | nil =>
      cases hd
      obtain ⟨⟨b, hb, hfits⟩, hapart⟩ := hnested [] child rfl
      exact ⟨⟨b, hb, hfits.name_eq, hfits.start_eq, hfits.stop_eq, hfits.children_within,
        hfits.symbols_within⟩, hapart⟩
    | cons i path => exact hnested (i :: path) d hd
  · exact ⟨hbetween, hnested⟩

end Gains

end Scope

/-! ## Definitions of statements -/

theorem Table.mem_putEntry {α : Type} {key : String} {entry : α} {es : List (String × α)}
    {e : String × α} (h : e ∈ putEntry key entry es) : e ∈ es ∨ e = (key, entry) := by
  induction es with
  | nil => exact .inr (List.mem_singleton.1 h)
  | cons x es ih =>
    obtain ⟨k, x⟩ := x
    rw [putEntry] at h
    split at h
    · rcases List.mem_cons.1 h with h | h
      · exact .inr h
      · exact .inl (List.mem_cons_of_mem _ h)
    · rcases List.mem_cons.1 h with h | h
      · exact .inl (h ▸ List.mem_cons_self)
      · exact (ih h).imp_left (List.mem_cons_of_mem _)

namespace Draft

open Scope

variable {blocks : List (Token × Token)} {lo mid stop hi : Position}

theorem declares_define (d : Draft) {symbol : Symbol} (hlo : lo ≤ symbol.position)
    (hhi : symbol.position < hi) : Declares lo hi d.scope (d.define symbol).scope := by
  unfold define Scope.declare
  cases d.scope.symbols.get? symbol.key with
  | some first => exact .refl _
  | none =>
    refine ⟨rfl, rfl, rfl, fun e he => ?_⟩
    rcases Table.mem_putEntry he with he | rfl
    · exact .inl he
    · exact .inr ⟨hlo, hhi⟩

theorem declares_foldl (symbols : List Symbol) (d : Draft)
    (h : ∀ s ∈ symbols, lo ≤ s.position ∧ s.position < hi) :
    Declares lo hi d.scope (symbols.foldl define d).scope := by
  induction symbols generalizing d with
  | nil => exact .refl _
  | cons s symbols ih =>
    obtain ⟨hs, hmore⟩ := List.forall_mem_cons.1 h
    exact (d.declares_define hs.1 hs.2).trans (ih _ hmore)

theorem statements_append (d : Draft) (xs ys : List Statement) :
    d.statements (xs ++ ys) = (d.statements xs).statements ys := by
  induction xs generalizing d with
  | nil => rw [List.nil_append, statements]
  | cons x xs ih => rw [List.cons_append, statements, statements, ih]

/-- A directive without a scope defines its name or nothing. -/
theorem plainDirective_cases (d : Draft) (dir : Directive) :
    d.plainDirective dir = d ∨ ∃ name ∈ dir.name, ∃ symbol : Symbol,
      symbol.position = name.place.toPosition ∧ d.plainDirective dir = d.define symbol := by
  unfold plainDirective
  cases dir.name with
  | none => exact .inl rfl
  | some name =>
    dsimp only
    split
    · split
      · exact .inl rfl
      · exact .inr ⟨name, rfl, _, rfl, rfl⟩
    · exact .inr ⟨name, rfl, _, rfl, rfl⟩
    · exact .inr ⟨name, rfl, _, rfl, rfl⟩
    · exact .inl rfl

/-- A directive with a block leaves the block to the scope around it, or defines its name without
the block, or opens a scope: for its parameters or members, and for the block unless these stand
there. -/
theorem directiveBlock_cases (d : Draft) (dir : Directive) (opening closing : Token)
    (body : List Statement) :
    d.statement (.directiveBlock dir opening body closing) = d.statements body ∨
    d.statement (.directiveBlock dir opening body closing) = d.plainDirective dir ∨
    ∃ name ∈ dir.name, ∃ (symbol : Symbol) (symbols : List Symbol) (inner : List Statement),
      symbol.position = name.place.toPosition ∧
      (∀ s ∈ symbols, ∃ t ∈ dir.parameters, s.position = t.place.toPosition) ∧
      (inner = body ∨ inner = []) ∧
      d.statement (.directiveBlock dir opening body closing) =
        (d.define symbol).attach (((d.define symbol).openChild name closing symbols).statements
          inner) := by
  rw [statement]
  cases dir.name with
  | none => exact .inl rfl
  | some name =>
    dsimp only
    cases DefinitionForm.ofWord dir.word with
    | callable kind =>
      refine .inr (.inr ⟨name, rfl, Symbol.ofCallable kind name dir.parameters, _, body, rfl, ?_,
        .inl rfl, rfl⟩)
      intro s hs
      obtain ⟨t, ht, rfl⟩ := List.mem_map.1 hs
      exact ⟨t, ht, rfl⟩
    | scope =>
      exact .inr (.inr ⟨name, rfl, Symbol.ofToken .scope name none, [], body, rfl, by simp,
        .inl rfl, rfl⟩)
    | enumeration =>
      refine .inr (.inr ⟨name, rfl, Symbol.ofToken .scope name none, Enumeration.symbols dir, [],
        rfl, ?_, .inr rfl, ?_⟩)
      · intro s hs
        obtain ⟨m, hm, rfl⟩ := List.mem_map.1 hs
        exact ⟨m.1, List.fst_mem_of_mem_zipIdx hm, rfl⟩
      · rw [statements]
    | nothing => exact .inl rfl
    | value | label | define => exact .inr (.inl rfl)

/-- The names of a directive stand where they should, from `lo` up to `mid`. -/
def NamesBetween (dir : Directive) (lo mid : Position) : Prop :=
  ∀ name ∈ dir.name, lo < name.place.toPosition ∧ name.place.toPosition < mid ∧
    ∀ p ∈ dir.parameters, name.place.toPosition ≤ p.place.toPosition ∧ p.place.toPosition < mid

theorem gains_plainDirective (d : Draft) {dir : Directive}
    (hnames : ∀ name ∈ dir.name, lo < name.place.toPosition ∧ name.place.toPosition < hi) :
    Gains blocks lo hi d.scope (d.plainDirective dir).scope := by
  rcases d.plainDirective_cases dir with heq | ⟨name, hname, symbol, hsymbol, heq⟩
  · rw [heq]
    exact .refl _
  · obtain ⟨hlo, hhi⟩ := hnames name hname
    rw [heq]
    exact (d.declares_define (hsymbol ▸ hlo.le) (hsymbol ▸ hhi)).gains

/-- The scope of a named block fits the block, if what it holds stands up to the closing token. -/
theorem fitsBlock_of_gains {uri : String} {name closing : Token} {c : Scope}
    (h : Gains blocks name.place.toPosition stop (childScope uri name closing) c)
    (hclosing : closing.kind ≠ .endOfText → stop = closing.place.toPosition) :
    c.FitsBlock name closing := by
  obtain ⟨new, hnew, -, hall⟩ := h.children
  have hrange : c.range = (childScope uri name closing).range := h.range
  have hstart : c.range.start = name.place.toPosition := by rw [hrange]; rfl
  have hstop : c.range.stop = if closing.kind = .endOfText then c.range.start
      else ⟨(closing.place.line : Int) - 1, closing.place.column⟩ := by
    rw [hstart, hrange]
    rfl
  -- what stands before the closing brace ends before the range does
  have hend : closing.kind ≠ .endOfText → stop ≤ c.range.stop := by
    intro hk
    rw [hclosing hk, hstop, if_neg hk]
    exact closing.place.toPosition_le_behind
  refine ⟨h.name, hstart, hstop, fun hk child hchild => ?_, fun hk e he => ?_⟩
  · rw [hnew] at hchild
    obtain ⟨hlo, -, hhi⟩ := (hall child hchild).1
    exact ⟨hstart ▸ hlo.le, hhi.trans (hend hk)⟩
  · rcases h.symbols e he with hnone | ⟨hlo, hhi⟩
    · cases hnone
    · exact ⟨hstart ▸ hlo, hhi.le.trans (hend hk)⟩

theorem nested_of_gains {uri : String} {name closing : Token} {c : Scope}
    (h : Gains blocks name.place.toPosition stop (childScope uri name closing) c)
    (hclosing : closing.kind ≠ .endOfText → stop = closing.place.toPosition)
    (hblock : (name, closing) ∈ blocks) : c.Nested blocks := by
  obtain ⟨new, hnew, hapart, hall⟩ := h.children
  have hchildren : c.children = new := hnew
  intro path d hd
  cases path with
  | nil =>
    cases hd
    refine ⟨⟨_, hblock, fitsBlock_of_gains h hclosing⟩, ?_⟩
    rw [Apart, hchildren]
    exact hapart
  | cons i path =>
    rw [Scope.at?, Option.bind_eq_some_iff] at hd
    obtain ⟨child, hchild, hd⟩ := hd
    have hmem : child ∈ new := hchildren ▸ List.mem_of_getElem? hchild
    exact (hall child hmem).2 path d hd

/-- A directive with a block. Its names stand up to `mid`, the block from there up to `stop`, where
its closing token is, and the next token is at `hi`. -/
theorem gains_directiveBlock (d : Draft) {dir : Directive} {opening closing : Token}
    {body : List Statement} (hnames : NamesBetween dir lo mid)
    (hbody : ∀ d : Draft, Gains blocks mid stop d.scope (d.statements body).scope)
    (hblocks : ∀ name ∈ dir.name, (name, closing) ∈ blocks) (hlo : lo ≤ mid) (hmid : mid ≤ stop)
    (hstop : stop ≤ hi) (hclosing : closing.kind ≠ .endOfText → stop = closing.place.toPosition ∧
      ⟨(closing.place.line : Int) - 1, closing.place.column⟩ ≤ hi) :
    Gains blocks lo hi d.scope (d.statement (.directiveBlock dir opening body closing)).scope := by
  rcases d.directiveBlock_cases dir opening closing body with
    heq | heq | ⟨name, hname, symbol, symbols, inner, hsymbol, hsymbols, hinner, heq⟩
  · rw [heq]
    exact (hbody d).mono hlo hstop
  · rw [heq]
    refine (d.gains_plainDirective fun name hname => ?_).mono le_rfl (hmid.trans hstop)
    exact ⟨(hnames name hname).1, (hnames name hname).2.1⟩
  · obtain ⟨hfirst, hlast, hparameters⟩ := hnames name hname
    have hends : name.place.toPosition < hi := hlast.trans_le (hmid.trans hstop)
    have hopen : Gains blocks name.place.toPosition mid
        (childScope (d.define symbol).scope.uri name closing)
        ((d.define symbol).openChild name closing symbols).scope := by
      refine (declares_foldl symbols ⟨childScope (d.define symbol).scope.uri name closing, _⟩
        fun s hs => ?_).gains
      obtain ⟨p, hp, hposition⟩ := hsymbols s hs
      rw [hposition]
      exact hparameters p hp
    have hrest : ∀ d : Draft, Gains blocks mid stop d.scope (d.statements inner).scope := by
      rcases hinner with rfl | rfl
      · exact hbody
      · exact fun d => by rw [statements]; exact .refl _
    have hchild := hopen.trans (hrest _) hlast.le hmid
    have hfits := fitsBlock_of_gains hchild fun hk => (hclosing hk).1
    have hbetween : Scope.Between lo hi
        (((d.define symbol).openChild name closing symbols).statements inner).scope := by
      rw [Scope.Between, hfits.stop_eq, hfits.start_eq]
      refine ⟨hfirst, ?_⟩
      split
      · exact ⟨le_rfl, hends.le⟩
      · rename_i hk
        obtain ⟨hat, hbehind⟩ := hclosing hk
        have hbefore := hlast.le.trans hmid
        rw [hat] at hbefore
        exact ⟨hbefore.trans closing.place.toPosition_le_behind, hbehind⟩
    rw [heq]
    exact (d.declares_define (hsymbol ▸ hfirst.le) (hsymbol ▸ hends)).trans_gains
      (gains_attach _ hbetween (nested_of_gains hchild (fun hk => (hclosing hk).1)
        (hblocks name hname)))

end Draft

/-! ## The scopes of a program -/

namespace Grammar

open Scope Draft

variable {src : Source} {ds : List Diagnostic} {blocks : List (Token × Token)}

section Items

variable {dir : Directive} {opening closing : Token} {sts : List Statement}
  {tokens inner close behind last : List Token}

/-- The names that stand in a block without statements: the members of an enumeration. -/
theorem Sealed.stretch (h : Sealed src ds (some dir) inner close) :
    Stretch (fun _ _ => True) (if dir.form = .enumeration then dir.parameters else []) inner
      close := by
  cases h with
  | refused hdir _ =>
    rw [if_neg (hdir dir rfl)]
    obtain ⟨front, hfront⟩ := fromMatch_suffix .leftBrace .rightBrace 0 inner
    exact ⟨⟨front, hfront.symm, List.nil_sublist _⟩, fun _ _ _ _ => trivial⟩
  | members hd _ _ h =>
    rw [if_pos hd]
    exact h.mono fun _ _ _ => trivial

theorem namesBetween_of_stretch {P : Token → List Token → Prop} {t : Token}
    (h : Stretch P (dir.name.toList ++ dir.parameters) tokens last)
    (hinc : Increasing (t :: tokens)) (hne : last ≠ []) :
    NamesBetween dir (startOf (t :: tokens)) (startOf last) := by
  intro name hname
  rw [Option.mem_def.1 hname] at h
  exact h.names_between hinc hne

theorem Header.namesBetween (h : Header src ds (some dir) opening tokens inner)
    (hform : dir.form ≠ .enumeration) (hinc : Increasing tokens) (hne : inner ≠ []) :
    NamesBetween dir (startOf tokens) (startOf inner) := by
  cases h with
  | directive hd hopening hrest =>
    rw [Directive.headerNames, if_neg hform] at hrest
    have hopened : Stretch (fun _ _ => True) (dir.name.toList ++ dir.parameters) _ inner :=
      (hrest.mono fun _ _ _ => trivial).snoc trivial
    exact namesBetween_of_stretch hopened hinc hne

/-- The names of a directive without statements in its block stand before the end of the block. -/
theorem Header.namesBetween_sealed (h : Header src ds (some dir) opening tokens inner)
    (hsealed : Sealed src ds (some dir) inner close) (hinc : Increasing tokens) (hne : close ≠ []) :
    NamesBetween dir (startOf tokens) (startOf close) := by
  cases h with
  | directive hd hopening hrest =>
    have hopened : Stretch (fun _ _ => True) dir.headerNames _ inner :=
      (hrest.mono fun _ _ _ => trivial).snoc trivial
    have hall := hopened.trans hsealed.stretch
    rw [Directive.headerNames] at hall
    split at hall
    · exact namesBetween_of_stretch (by simpa using hall) hinc hne
    · exact namesBetween_of_stretch (by simpa using hall) hinc hne

/-- A closed block ends at its closing brace, before the next token. -/
theorem Closes.closing_at (h : Closes closing close behind) (hinc : Increasing close)
    (hne : behind ≠ []) (hk : closing.kind ≠ .endOfText) :
    startOf close = closing.place.toPosition ∧
      ⟨(closing.place.line : Int) - 1, closing.place.column⟩ ≤ startOf behind := by
  cases h with
  | brace =>
    obtain ⟨t, rest, rfl⟩ := List.exists_cons_of_ne_nil hne
    exact ⟨rfl, Place.behind_le_toPosition ((List.pairwise_cons.1 hinc).1 t List.mem_cons_self)⟩
  | ended hend => exact absurd hend hk

theorem Plain.gains {t : Token} {st : Option Statement} {names rest : List Token}
    {P : Token → List Token → Prop} (h : Plain t st names) (hrest : Stretch P names rest behind)
    (hinc : Increasing (t :: rest)) (hne : behind ≠ []) (d : Draft) :
    Gains blocks (startOf (t :: rest)) (startOf behind) d.scope (d.statements st.toList).scope := by
  have hbehind : t.place.toPosition < startOf behind := by
    obtain ⟨front, rfl, -⟩ := hrest.taken
    have hfront : Increasing ((t :: front) ++ behind) := hinc
    exact lt_startOf hfront hne List.mem_cons_self
  cases h with
  | nothing => exact .refl _
  | label =>
    simp only [Option.toList_some, Draft.statements, Draft.statement]
    split
    · exact .refl _
    · exact Declares.gains (d.declares_define (le_refl t.place.toPosition) hbehind)
  | instruction | expression =>
    simp only [Option.toList_some, Draft.statements, Draft.statement]
    exact .refl _
  | directive _ hd =>
    simp only [Option.toList_some, Draft.statements, Draft.statement]
    refine d.gains_plainDirective fun name hname => ?_
    rw [Directive.headerNames, Option.mem_def.1 hname] at hrest
    obtain ⟨hlo, hhi, -⟩ := hrest.names_between hinc hne
    exact ⟨hlo, hhi⟩

/-- What a block defines stands from the first token of its header on. Its names stand up to `mid`,
and what its statements define from there on. -/
theorem Header.gains {dir : Option Directive} {body : List Statement} {mid : Position}
    (h : Header src ds dir opening tokens inner) (hinc : Increasing tokens)
    (hsuffix : close <:+ inner) (hclose : Closes closing close behind) (hne : behind ≠ [])
    (hnames : ∀ dd ∈ dir, NamesBetween dd (startOf tokens) mid)
    (hlo : startOf tokens ≤ mid) (hmid : mid ≤ startOf close)
    (hbody : ∀ d : Draft, Gains blocks mid (startOf close) d.scope (d.statements body).scope)
    (hblocks : ∀ name ∈ dir.bind Directive.name, (name, closing) ∈ blocks) (d : Draft) :
    Gains blocks (startOf tokens) (startOf behind) d.scope
      (d.statement (.braced dir opening body closing)).scope := by
  have hincClose : Increasing close :=
    hinc.suffix (hsuffix.trans ((List.suffix_cons _ _).trans h.suffix))
  have hstop : startOf close ≤ startOf behind := startOf_le hincClose hclose.suffix hne
  cases dir with
  | none =>
    rw [Statement.braced, Draft.statement]
    exact (hbody d).mono hlo hstop
  | some dd =>
    exact d.gains_directiveBlock (hnames dd rfl) hbody hblocks hlo hmid hstop
      (hclose.closing_at hincClose hne)

/-- What statements define stands from their first token on and before the token behind them. -/
theorem Items.gains {stop : TokenKind → Bool} (h : Items src ds stop sts tokens last)
    (hinc : Increasing tokens) (hlast : last ≠ []) (hblocks : Statement.namedBlocks sts ⊆ blocks)
    (d : Draft) :
    Gains blocks (startOf tokens) (startOf last) d.scope (d.statements sts).scope := by
  induction h generalizing d with
  | done =>
    rw [Draft.statements]
    exact .refl _
  | @plain stop t st sts names rest behind last _ _ hplain hrest hmore ih =>
    rw [Statement.namedBlocks_append] at hblocks
    have hne : behind ≠ [] := hmore.suffix.ne_nil hlast
    have hbehind : behind <:+ t :: rest := hrest.suffix.trans (List.suffix_cons t rest)
    have hincBehind := hinc.suffix hbehind
    rw [d.statements_append]
    exact (hplain.gains hrest hinc hne d).trans
      (ih hincBehind hlast (List.append_subset.1 hblocks).2 _) (startOf_le hinc hbehind hne)
      (startOf_le hincBehind hmore.suffix hlast)
  | @braced stop dir opening closing body sts tokens inner close behind last hheader hdir hbody
      hclose hmore ihbody ih =>
    rw [Statement.namedBlocks_braced, List.append_subset, List.append_subset] at hblocks
    obtain ⟨hname, hinside, hsts⟩ := hblocks
    have hne : behind ≠ [] := hmore.suffix.ne_nil hlast
    have hinner : inner <:+ tokens := (List.suffix_cons _ _).trans hheader.suffix
    have hbehind : behind <:+ tokens := hclose.suffix.trans (hbody.suffix.trans hinner)
    have hincInner := hinc.suffix hinner
    have hincBehind := hinc.suffix hbehind
    have hinnerNe : inner ≠ [] := hbody.suffix.ne_nil hclose.ne_nil
    have hblock := hheader.gains hinc hbody.suffix hclose hne
      (fun dd hdd => by subst hdd; exact hheader.namesBetween (hdir dd rfl) hinc hinnerNe)
      (startOf_le hinc hinner hinnerNe) (startOf_le hincInner hbody.suffix hclose.ne_nil)
      (ihbody hincInner hclose.ne_nil hinside)
      (fun name hmem => hname (by simpa using hmem)) d
    rw [Draft.statements]
    exact hblock.trans (ih hincBehind hlast hsts _) (startOf_le hinc hbehind hne)
      (startOf_le hincBehind hmore.suffix hlast)
  | @sealed stop dir opening closing sts tokens inner close behind last hheader hsealed hclose hmore
      ih =>
    rw [Statement.namedBlocks_braced, List.append_subset, List.append_subset] at hblocks
    obtain ⟨hname, -, hsts⟩ := hblocks
    have hne : behind ≠ [] := hmore.suffix.ne_nil hlast
    have hclosed : close <:+ tokens :=
      hsealed.suffix.trans ((List.suffix_cons _ _).trans hheader.suffix)
    have hbehind : behind <:+ tokens := hclose.suffix.trans hclosed
    have hincBehind := hinc.suffix hbehind
    have hblock := hheader.gains hinc hsealed.suffix hclose hne
      (fun dd hdd => by
        subst hdd
        exact hheader.namesBetween_sealed hsealed hinc hclose.ne_nil)
      (startOf_le hinc hclosed hclose.ne_nil) le_rfl
      (fun d => by rw [Draft.statements]; exact .refl _)
      (fun name hmem => hname (by simpa using hmem)) d
    rw [Draft.statements]
    exact hblock.trans (ih hincBehind hlast hsts _) (startOf_le hinc hbehind hne)
      (startOf_le hincBehind hmore.suffix hlast)

end Items

end Grammar

open Scope

theorem parse_startOf_line {ref : Option Reference} {lexLimit limit : Int} {text : String}
    {parsed : Parsed} (h : parse ref lexLimit limit text = .ok parsed) {rest : List Token}
    (hrest : rest <:+ parsed.stream) (hne : rest ≠ []) :
    0 ≤ (startOf rest).line ∧ (startOf rest).line < lineCount text := by
  obtain ⟨t, rest, rfl⟩ := List.exists_cons_of_ne_nil hne
  obtain ⟨hfirst, hlast, -⟩ := parse_place h (hrest.subset List.mem_cons_self)
  rw [startOf, Place.toPosition, lineCount]
  dsimp only
  omega

/-- Every scope below one whose children are nested is the scope of a block, and its own children
are apart. -/
theorem Scope.below_of_nested {s c : Scope} {blocks : List (Token × Token)} {path : List Nat}
    (h : ∀ child ∈ s.children, child.Nested blocks) (hpath : path ≠ [])
    (hc : s.at? path = some c) : (∃ b ∈ blocks, c.FitsBlock b.1 b.2) ∧ c.Apart := by
  obtain ⟨i, path, rfl⟩ := List.exists_cons_of_ne_nil hpath
  rw [Scope.at?, Option.bind_eq_some_iff] at hc
  obtain ⟨child, hchild, hc⟩ := hc
  exact h child (List.mem_of_getElem? hchild) path c hc

/-- The children of the scope of a document follow one another, and they and all scopes in them are
scopes of named blocks. -/
theorem parse_nested {ref : Option Reference} {lexLimit limit : Int} {text : String}
    {parsed : Parsed} (h : parse ref lexLimit limit text = .ok parsed) (uri : String)
    (lines : Int) :
    (Scope.ofProgram uri lines parsed.program).1.Apart ∧
      ∀ c ∈ (Scope.ofProgram uri lines parsed.program).1.children,
        c.Nested (Statement.namedBlocks parsed.program.statements) := by
  obtain ⟨overflow, last, -, hitems⟩ := parse_items h
  have hgains := hitems.gains (parse_increasing h) (List.cons_ne_nil _ _) (List.Subset.refl _)
    ⟨Scope.root uri lines, []⟩
  obtain ⟨new, hnew, hapart, hall⟩ := hgains.children
  have hchildren : (Scope.ofProgram uri lines parsed.program).1.children = new := hnew
  rw [Apart, hchildren]
  exact ⟨hapart, fun c hc => (hall c hc).2⟩

/-- **Scopes are nested as their ranges are.** Whatever a parse reports, every scope below that of
the document is the scope of a named block of the program: it has the range of the block, the one
point of its name if the block is open, and if the block is closed, its children and symbols lie in
that range. The children of every scope follow one another, and those of the document lie in its
lines. -/
theorem parse_scope_ranges {ref : Option Reference} {lexLimit limit : Int} {text : String}
    {parsed : Parsed} (h : parse ref lexLimit limit text = .ok parsed) (uri : String)
    (lines : Int) :
    (∀ path c, path ≠ [] → (Scope.ofProgram uri lines parsed.program).1.at? path = some c →
      ∃ b ∈ Statement.namedBlocks parsed.program.statements, c.FitsBlock b.1 b.2) ∧
    (∀ path c, (Scope.ofProgram uri lines parsed.program).1.at? path = some c → c.Apart) ∧
    (lines = lineCount text → ∀ c ∈ (Scope.ofProgram uri lines parsed.program).1.children,
      (Scope.ofProgram uri lines parsed.program).1.range.containsLine c.range.start.line = true ∧
      (Scope.ofProgram uri lines parsed.program).1.range.containsLine c.range.stop.line =
        true) := by
  obtain ⟨overflow, last, -, hitems⟩ := parse_items h
  have hgains := hitems.gains (parse_increasing h) (List.cons_ne_nil _ _) (List.Subset.refl _)
    ⟨Scope.root uri lines, []⟩
  have hroot : (Scope.ofProgram uri lines parsed.program).1 =
      (Draft.statements ⟨Scope.root uri lines, []⟩ parsed.program.statements).scope := rfl
  obtain ⟨new, hnew, hapart, hall⟩ := hgains.children
  rw [← hroot] at hnew hgains
  have hchildren : (Scope.ofProgram uri lines parsed.program).1.children = new := hnew
  have hbelow : ∀ i path c, (Scope.ofProgram uri lines parsed.program).1.at? (i :: path) = some c →
      (∃ b ∈ Statement.namedBlocks parsed.program.statements, c.FitsBlock b.1 b.2) ∧ c.Apart := by
    intro i path c hc
    rw [Scope.at?, Option.bind_eq_some_iff] at hc
    obtain ⟨child, hchild, hc⟩ := hc
    have hmem : child ∈ new := hchildren ▸ List.mem_of_getElem? hchild
    exact (hall child hmem).2 path c hc
  refine ⟨fun path c hpath hc => ?_, fun path c hc => ?_, fun hlines c hc => ?_⟩
  · obtain ⟨i, path, rfl⟩ := List.exists_cons_of_ne_nil hpath
    exact (hbelow i path c hc).1
  · cases path with
    | nil =>
      cases hc
      rw [Apart, hchildren]
      exact hapart
    | cons i path => exact (hbelow i path c hc).2
  · obtain ⟨hlo, hrange, hhi⟩ := (hall c (hchildren ▸ hc)).1
    have hstream : parsed.stream ≠ [] := hitems.suffix.ne_nil (List.cons_ne_nil _ _)
    obtain ⟨hfirst, -⟩ := parse_startOf_line h List.suffix_rfl hstream
    obtain ⟨-, hend⟩ := parse_startOf_line h hitems.suffix (List.cons_ne_nil _ _)
    have hstart := Position.line_le hlo.le
    have hmiddle := Position.line_le hrange
    have hstop := Position.line_le hhi
    have hlines' : (Scope.ofProgram uri lines parsed.program).1.range =
        ⟨⟨0, 0⟩, ⟨max (lines - 1) 0, 0⟩⟩ := hgains.range
    rw [hlines', Range.containsLine, Range.containsLine]
    simp only [Bool.and_eq_true, decide_eq_true_eq]
    omega

/-- The scopes of a macro in a namespace. -/
theorem parse_scope_ranges_nested :
    ∃ parsed, parse none 128 128 nestedText = .ok parsed ∧
      ((Scope.ofProgram "" 1 parsed.program).1.at? [0, 0]).map
          (fun c => (c.name, c.range)) = some ("m", ⟨⟨0, 20⟩, ⟨0, 28⟩⟩) ∧
      (∀ path c, path ≠ [] → (Scope.ofProgram "" 1 parsed.program).1.at? path = some c →
        ∃ b ∈ Statement.namedBlocks parsed.program.statements, c.FitsBlock b.1 b.2) ∧
      (∀ path c, (Scope.ofProgram "" 1 parsed.program).1.at? path = some c → c.Apart) ∧
      ∀ c ∈ (Scope.ofProgram "" 1 parsed.program).1.children,
        (Scope.ofProgram "" 1 parsed.program).1.range.containsLine c.range.start.line = true ∧
        (Scope.ofProgram "" 1 parsed.program).1.range.containsLine c.range.stop.line = true := by
  obtain ⟨parsed, hparsed, hscope⟩ : ∃ parsed, parse none 128 128 nestedText = .ok parsed ∧
      ((Scope.ofProgram "" 1 parsed.program).1.at? [0, 0]).map
        (fun c => (c.name, c.range)) = some ("m", ⟨⟨0, 20⟩, ⟨0, 28⟩⟩) :=
    exists_parsed_of_session 13 (by cbv) (by decide) (by decide +kernel)
  obtain ⟨hfits, hapart, hlines⟩ := parse_scope_ranges hparsed "" 1
  exact ⟨parsed, hparsed, hscope, hfits, hapart, hlines (by decide +kernel)⟩

end Asm6510
