import Asm6510.Proofs.Scope.Bodies
import Asm6510.Proofs.Scope.Outlines
import Asm6510.Proofs.Token.LineComment
import Asm6510.Proofs.Token.Wholes
import Asm6510.Proofs.Usage.Comments
import Mathlib

/-!
# The ranges of outline entries

An editor takes an entry of an outline only if the range of the name (`OutlineEntry.selection`) lies
in the range of the entry.

* `Token.NamesClosing`: a name that ends before the closing token of its block.
* `Scope.opened?`: the scope that an entry opens.

Main statement: `outline_selection_iff`. The entry of a symbol always has the range of its name
in it, also if the block of the symbol is left open, as its range is drawn out to the end of the
name. The entry of a scope without a symbol is not drawn out: it has the range of its name in it
exactly if the block is closed (`outline_selection_outside`).
-/

namespace Asm6510

open Grammar Outline

/-! ## Ranges -/

theorem Range.Within.refl (r : Range) : r.Within r :=
  ⟨le_rfl, le_rfl⟩

theorem Position.before_iff {p q : Position} : p.before q = true ↔ p < q := by
  rw [lt_iff, before]
  simp

theorem Outline.le_later (p q : Position) : q ≤ later p q := by
  rw [later]
  split
  · exact le_rfl
  · next h => exact not_lt.1 fun hlt => h (Position.before_iff.2 hlt)

theorem Range.start_lt_span {start : Position} {length : Int} (h : 0 < length) :
    start < (span start length).stop := by
  rw [Position.lt_iff, span]
  dsimp only
  omega

/-! ## Names and closing tokens -/

/-- A name with characters, of which none is a line feed, that ends before a closing token starts
unless the block is left open. -/
structure Token.NamesClosing (name closing : Token) : Prop where
  nonempty : 0 < name.literal.length
  ends : closing.kind ≠ .endOfText →
    (Range.span name.place.toPosition name.literal.length).stop ≤ closing.place.toPosition

section Tokens

variable {before ahead : List Char} {ts : List Token} {t u : Token}

theorem Place.toPosition_le {p q : Place} (h : p.UpTo q) : p.toPosition ≤ q.toPosition := by
  rcases h with rfl | hbefore
  · exact le_rfl
  · exact (toPosition_lt hbefore).le

/-- A token ends before those behind it start. -/
theorem Laid.pairwise_stop {left : List Char} (h : Laid before ahead ts left) :
    ts.Pairwise fun t u => t.stop.UpTo u.place := by
  induction ts generalizing before ahead with
  | nil => exact List.Pairwise.nil
  | cons t ts ih =>
    obtain ⟨gap, behind, -, -, hplace, -, -, hts⟩ := h
    refine List.Pairwise.cons (fun u hu => ?_) (ih hts)
    obtain ⟨cs, hcs⟩ := hts.place_after u hu
    rw [hcs, Token.stop_eq hplace]
    exact Place.upTo_after _ cs

theorem Laid.stop_le {left : List Char} (h : Laid before ahead ts left) (ht : t ∈ ts) (hu : u ∈ ts)
    (hlt : t.place.toPosition < u.place.toPosition) :
    t.stop.toPosition ≤ u.place.toPosition := by
  have hne : t ≠ u := fun heq => lt_irrefl _ (heq ▸ hlt)
  rcases rel_or_rel_of_pairwise h.pairwise_stop ht hu hne with hup | hdown
  · exact Place.toPosition_le hup
  · -- the other order contradicts the places
    have hle := Place.toPosition_le ((Place.upTo_after u.place _).trans hdown)
    exact absurd hlt (not_lt.2 hle)

theorem Spelled.shape_of_mem (h : Spelled before ahead ts) :
    ∀ t ∈ ts, (t.kind = .endOfText ↔ t.spelling = "") ∧ ∃ behind, t.Shape behind := by
  induction ts generalizing before ahead with
  | nil => simp
  | cons t ts ih =>
    obtain ⟨gap, behind, -, -, -, hend, hshape, hts⟩ := h
    exact List.forall_mem_cons.2 ⟨⟨hend, behind, hshape⟩, ih hts⟩

/-- A name has characters, and no line ends in it. -/
theorem Token.Shape.name {behind : List Char} (h : t.Shape behind) (hname : t.kind.isName = true)
    (hend : t.kind = .endOfText ↔ t.spelling = "") :
    0 < t.spelling.length ∧ '\n' ∉ t.spelling.toList := by
  have hkind : ∀ kind : TokenKind, kind.isName = false → t.kind ≠ kind := by
    rintro kind hnot rfl
    rw [hnot] at hname
    cases hname
  refine ⟨?_, ?_⟩
  · rw [← String.length_toList, List.length_pos_iff, ne_eq, String.toList_eq_nil_iff, ← hend]
    exact hkind _ rfl
  · cases h with
    | endOfText kind_eq => exact absurd kind_eq (hkind _ rfl)
    | lineComment kind_eq => exact absurd kind_eq (hkind _ rfl)
    | blockComment kind_eq => exact absurd kind_eq (hkind _ rfl)
    | string kind_eq => exact absurd kind_eq (hkind _ rfl)
    | plain _ unmarked => exact newline_not_mem_of_unmarked unmarked

theorem Token.stop_toPosition (h : '\n' ∉ t.spelling.toList) :
    t.stop.toPosition = (Range.span t.place.toPosition t.spelling.length).stop := by
  rw [stop, Place.after_line _ h, Place.toPosition, Place.toPosition, Range.span,
    ← String.length_toList]
  simp only [Position.mk.injEq, true_and]
  omega

end Tokens

theorem Statement.mem_namedBlocks {sts : List Statement} {b : Token × Token}
    (h : b ∈ namedBlocks sts) :
    ∃ d opening body, directiveBlock d opening body b.2 ∈ preorders sts ∧ d.name = some b.1 := by
  obtain ⟨st, hst, hb⟩ := List.mem_filterMap.1 h
  cases st with
  | directiveBlock d opening body closing =>
    obtain ⟨name, hname, rfl⟩ := Option.map_eq_some_iff.1 hb
    exact ⟨d, opening, body, hst, hname⟩
  | label | instruction | expression | directive | block => cases hb

section Parse

variable {ref : Option Reference} {lexLimit limit : Int} {text : String} {parsed : Parsed}

theorem mem_tokens_of_stream (h : parse ref lexLimit limit text = .ok parsed) {t : Token}
    (ht : t ∈ parsed.stream) : t ∈ (tokenize ref lexLimit text).1 := by
  rw [← parse_tokens h]
  exact List.mem_of_mem_filter ht

theorem parse_namesClosing (h : parse ref lexLimit limit text = .ok parsed) {b : Token × Token}
    (hb : b ∈ Statement.namedBlocks parsed.program.statements) : b.1.NamesClosing b.2 := by
  obtain ⟨d, opening, body, hst, hname⟩ := Statement.mem_namedBlocks hb
  obtain ⟨hfrom, -, hclosing, -⟩ := Statement.AllFrom.preorders (parse_from h) _ hst
  obtain ⟨hmem, hkind⟩ := hfrom.name b.1 hname
  have htoken := mem_tokens_of_stream h hmem
  obtain ⟨hend, behind, hshape⟩ := (tokenize_spelled ref lexLimit text).shape_of_mem b.1 htoken
  obtain ⟨hpos, hline⟩ := hshape.name hkind hend
  have hliteral : b.1.spelling = b.1.literal := by
    refine Lexer.run_literal ref _ (Nesting.stringless_ofLimit lexLimit) b.1 htoken ?_
    intro hnumber
    rw [hnumber] at hkind
    cases hkind
  rw [hliteral] at hpos
  refine ⟨hpos, fun hclosed => ?_⟩
  obtain ⟨overflow, last, -, hitems⟩ := parse_items h
  have hbefore := hitems.namesBefore (parse_increasing h) (List.cons_ne_nil _ _) b hb hclosed
  obtain ⟨left, hlaid⟩ := tokenize_laid ref lexLimit text
  rw [← hliteral, ← Token.stop_toPosition hline]
  exact hlaid.stop_le htoken (mem_tokens_of_stream h hclosing) hbefore

end Parse

/-! ## Entries -/

namespace Scope

/-- The child that an entry opens. -/
def opened? (root : Scope) (x : Subject) : Option Scope :=
  (root.at? x.address).bind fun c => x.opened.bind (c.children[·]?)

variable {blocks : List (Token × Token)} {c : Scope}

/-- The name of a scope lies in its range exactly if its block is closed. -/
theorem FitsBlock.selection_within_iff {name closing : Token} (h : c.FitsBlock name closing)
    (hname : name.NamesClosing closing) :
    (Range.span c.range.start c.name.length).Within c.range ↔ closing.kind ≠ .endOfText := by
  have hpos : (0 : Int) < c.name.length := by
    rw [h.name_eq]
    exact Int.natCast_pos.2 hname.nonempty
  constructor
  · rintro ⟨-, hstop⟩ hopen
    rw [h.stop_eq, if_pos hopen] at hstop
    exact absurd (Range.start_lt_span hpos) (not_lt.2 hstop)
  · intro hclosed
    refine ⟨le_rfl, ?_⟩
    rw [h.stop_eq, if_neg hclosed, h.start_eq, h.name_eq]
    exact (hname.ends hclosed).trans closing.place.toPosition_le_behind

theorem selection_within_iff (hfits : ∃ b ∈ blocks, c.FitsBlock b.1 b.2)
    (hnames : ∀ b ∈ blocks, b.1.NamesClosing b.2) :
    (Range.span c.range.start c.name.length).Within c.range ↔ ¬c.LeftOpen blocks := by
  constructor
  · rintro hwithin ⟨b, hb, hfit, hopen⟩
    exact (hfit.selection_within_iff (hnames b hb)).1 hwithin hopen
  · intro hclosed
    obtain ⟨b, hb, hfit⟩ := hfits
    exact (hfit.selection_within_iff (hnames b hb)).2 fun hopen => hclosed ⟨b, hb, hfit, hopen⟩

/-- The entry of a symbol that opened a scope is drawn out to the end of its name. -/
theorem symbolEntry_within (symbol : Symbol) {part : Part}
    (hstart : part.scope.range.start = symbol.position) :
    (symbolEntry symbol (some part)).selection.Within (symbolEntry symbol (some part)).range := by
  refine ⟨?_, le_later _ _⟩
  rw [symbolEntry]
  exact hstart.le

end Scope

section Parse

variable {ref : Option Reference} {lexLimit limit : Int} {text : String} {parsed : Parsed}

open Scope

/-- **Where the range of a name lies in the range of its entry.** In the outline of any text, every
entry has the range of its name in its own range, unless it stands for a scope without a symbol and
the block of that scope is left open. -/
theorem outline_selection_iff (h : parse ref lexLimit limit text = .ok parsed) (uri : String)
    (lines : Int) :
    ∃ subjects, (Scope.ofProgram uri lines parsed.program).1.Shown subjects ∧
      List.Forall₂ (fun x e => e.selection.Within e.range ↔
        ¬(x.symbol = none ∧ ∃ c, (Scope.ofProgram uri lines parsed.program).1.opened? x = some c ∧
          c.LeftOpen (Statement.namedBlocks parsed.program.statements)))
        subjects (OutlineEntry.preorders (Scope.ofProgram uri lines parsed.program).1.outline) := by
  obtain ⟨-, hnested⟩ := parse_nested h uri lines
  obtain ⟨subjects, hshown⟩ := exists_shown (Scope.ofProgram uri lines parsed.program).1
  refine ⟨subjects, hshown, hshown.stands.imp fun x e hstands => ?_⟩
  cases hstands with
  | symbol hc hsymbol =>
    exact iff_of_true (Range.Within.refl _) fun hnone => Option.some_ne_none _ hnone.1
  | opening hc hsymbol hchild hname hstart =>
    exact iff_of_true (symbolEntry_within _ hstart) fun hnone => Option.some_ne_none _ hnone.1
  | @scope a c child i hc hchild =>
    have hfits := (below_of_nested hnested (List.concat_ne_nil i a) (at?_concat hc hchild)).1
    have hopened : (Scope.ofProgram uri lines parsed.program).1.opened? ⟨a, none, some i⟩ =
        some child := by
      rw [opened?, hc]
      exact hchild
    rw [hopened]
    simp only [true_and, Option.some.injEq, exists_eq_left']
    exact selection_within_iff hfits fun b hb => parse_namesClosing h hb

end Parse

/-- A namespace that is opened once more and left open. -/
def openedAgainText : String :=
  ".namespace n\x7b\x7d\n.namespace n\x7b"

/-- The two entries of the outline of `openedAgainText`, with their ranges and those of their
names. -/
theorem parse_openedAgainText :
    ∃ parsed, parse none 128 128 openedAgainText = .ok parsed ∧
      (Scope.ofProgram "" 2 parsed.program).1.outline.map (fun e => (e.range, e.selection)) =
        [(⟨⟨0, 11⟩, ⟨0, 14⟩⟩, ⟨⟨0, 11⟩, ⟨0, 12⟩⟩), (⟨⟨1, 11⟩, ⟨1, 11⟩⟩, ⟨⟨1, 11⟩, ⟨1, 12⟩⟩)] :=
  exists_parsed_of_session 8 (by cbv) (by decide) (by decide +kernel)

/-- The first entry of the outline of `openedAgainText` is as it should be, the second is the one
of an open block without a symbol. -/
theorem outline_selection_iff_openedAgain :
    ∃ parsed, parse none 128 128 openedAgainText = .ok parsed ∧
      (Scope.ofProgram "" 2 parsed.program).1.outline.length = 2 ∧
      ∃ subjects, (Scope.ofProgram "" 2 parsed.program).1.Shown subjects ∧
        List.Forall₂ (fun x e => e.selection.Within e.range ↔
          ¬(x.symbol = none ∧ ∃ c, (Scope.ofProgram "" 2 parsed.program).1.opened? x = some c ∧
            c.LeftOpen (Statement.namedBlocks parsed.program.statements)))
          subjects (OutlineEntry.preorders (Scope.ofProgram "" 2 parsed.program).1.outline) := by
  obtain ⟨parsed, hparsed, hranges⟩ := parse_openedAgainText
  refine ⟨parsed, hparsed, ?_, outline_selection_iff hparsed "" 2⟩
  simpa using congrArg List.length hranges

/-- The second entry of the outline of `openedAgainText` ends where its name starts. -/
theorem outline_selection_outside :
    ∃ parsed, parse none 128 128 openedAgainText = .ok parsed ∧
      ∃ e ∈ (Scope.ofProgram "" 2 parsed.program).1.outline, ¬e.selection.Within e.range := by
  obtain ⟨parsed, hparsed, hranges⟩ := parse_openedAgainText
  obtain ⟨e, he, hpair⟩ : ∃ e ∈ (Scope.ofProgram "" 2 parsed.program).1.outline,
      (e.range, e.selection) = (⟨⟨1, 11⟩, ⟨1, 11⟩⟩, ⟨⟨1, 11⟩, ⟨1, 12⟩⟩) := by
    rw [← List.mem_map, hranges]
    simp
  obtain ⟨hrange, hselection⟩ := Prod.mk.inj hpair
  refine ⟨parsed, hparsed, e, he, ?_⟩
  rw [hrange, hselection]
  rintro ⟨-, hstop⟩
  rw [Position.le_iff] at hstop
  simp at hstop

end Asm6510
