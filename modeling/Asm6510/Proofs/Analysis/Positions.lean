import Asm6510.Proofs.Analysis.Depth
import Asm6510.Proofs.Token.LineComment
import Asm6510.Proofs.Usage.LineScan
import Asm6510.Proofs.Usage.Passes
import Mathlib

/-!
# Diagnostics point into their text

Each stage reports at a place of the text: at a token, where the lexer refused a push, or at the
name of a definition, which is a token as well.

* `Place.Inside`: the place stands behind some of the characters of a text.
* `Range.PointsInto`: the range starts in a line of the text or at its end, and ends in that line.
* `Lexer.Inside`: reading stands inside the text, and so does the first push that was refused.

Main statement: `analyze_pointsInto`.
-/

namespace Asm6510

open Grammar

/-! ## Places of a text -/

/-- The place stands behind some of the characters of the text. -/
def Place.Inside (p : Place) (text : String) : Prop :=
  ∃ read, read <+: text.toList ∧ p = Place.behind read

/-- A range from a character of a line of the text, or from the end of the line, to a character that
is not before it. Lines are what stands between line feeds. -/
structure Range.PointsInto (r : Range) (text : String) : Prop where
  start : ∃ (line character : Nat) (words : String), (Text.lines text)[line]? = some words ∧
    character ≤ words.length ∧ r.start = ⟨line, character⟩
  line_eq : r.stop.line = r.start.line
  character_le : r.start.character ≤ r.stop.character

theorem place_start_inside (text : String) : Place.start.Inside text :=
  ⟨[], List.nil_prefix, rfl⟩

theorem Place.Inside.span {p : Place} {text : String} (h : p.Inside text) (length : Nat) :
    (Range.span p.toPosition length).PointsInto text := by
  obtain ⟨read, ⟨rest, hread⟩, rfl⟩ := h
  refine ⟨⟨read.count '\n', (lastLine read).length, _, Text.lines_behind hread.symm, ?_, ?_⟩,
    rfl, ?_⟩
  · rw [String.length_ofList, List.length_append]
    exact Nat.le_add_right _ _
  · rw [Place.behind_eq]
    simp [Range.span, Place.toPosition]
  · simp [Range.span]

/-! ## Where pushes are refused -/

/-- Reading stands inside the text, and so does the first push that was refused. -/
structure Lexer.Inside (l : Lexer) (text : String) : Prop where
  read : ∃ read, text.toList = read ++ l.rest ∧ l.place = Place.behind read
  overflow : ∀ p, l.nesting.overflow = some p → p.Inside text

namespace Lexer

variable {ref : Option Reference} {l m : Lexer} {t : Token} {text : String}

theorem inside_ofText (limit : Int) (text : String) : (ofText limit text).Inside text :=
  ⟨⟨[], rfl, rfl⟩, fun _ hp => by cases hp⟩

theorem Inside.place (h : l.Inside text) : l.place.Inside text := by
  obtain ⟨read, hread, hplace⟩ := h.read
  exact ⟨read, ⟨_, hread.symm⟩, hplace⟩

theorem Inside.move (h : l.Inside text) {cs : List Char} (hrest : l.rest = cs ++ m.rest)
    (hplace : m.place = l.place.after cs) (hoverflow : m.nesting.overflow = l.nesting.overflow) :
    m.Inside text := by
  obtain ⟨read, hread, hstart⟩ := h.read
  refine ⟨⟨read ++ cs, by rw [hread, hrest, List.append_assoc], ?_⟩, fun p hp => ?_⟩
  · rw [hplace, hstart, Place.behind_append]
  · exact h.overflow p (hoverflow.symm.trans hp)

/-- A change of the nesting that notes at most the present place. -/
theorem Inside.renest (h : l.Inside text) {n : Nesting}
    (hn : n.overflow = l.nesting.overflow ∨ n.overflow = some l.place) :
    { l with nesting := n }.Inside text := by
  refine ⟨h.read, fun p hp => ?_⟩
  rcases hn with hn | hn
  · exact h.overflow p (hn.symm.trans hp)
  · rw [← Option.some.inj (hn.symm.trans hp)]
    exact h.place

theorem Inside.skipBlanks (h : l.Inside text) : l.skipBlanks.Inside text :=
  h.move l.skipped_append rfl rfl

/-- The edits of a lexeme are made before it and behind it. -/
theorem Inside.emit (h : l.Inside text) {c : Char} {cs : List Char} (hrest : l.rest = c :: cs)
    (x : Lexeme) : (l.emit c cs x).2.Inside text := by
  let spelled := c :: cs.take x.more
  let opened := l.nesting.apply l.place x.opening
  have hopened : { l with nesting := opened }.Inside text :=
    h.renest (l.nesting.overflow_apply l.place x.opening)
  have hspelled : Inside ⟨cs.drop x.more, l.place.after spelled, l.parens, opened⟩ text :=
    hopened.move (m := ⟨cs.drop x.more, l.place.after spelled, l.parens, opened⟩)
      (by rw [hrest, List.cons_append, List.take_append_drop]) rfl rfl
  have hclosed := (hspelled.renest (opened.overflow_apply (l.place.after spelled) x.closing)).renest
    (Nesting.overflow_apply _ (l.place.after spelled) x.following)
  exact hclosed.move (List.take_append_drop x.gap _).symm rfl rfl

theorem Inside.next? (hl : l.Inside text) (h : l.next? ref = some (t, m)) : m.Inside text := by
  fun_induction Lexer.next? ref l with
  | case1 l s hr =>
    obtain ⟨-, rfl⟩ := Prod.mk.inj (Option.some.inj h)
    exact hl.skipBlanks
  | case2 l s c cs hr x hx =>
    rw [← show (s.emit c cs x).2 = m from congrArg Prod.snd (Option.some.inj h)]
    exact hl.skipBlanks.emit hr x
  | case3 l s c cs hr hx ih =>
    have hline : s.rest = [c] ++ cs := hr
    exact ih (hl.skipBlanks.move hline rfl s.nesting.overflow_pop) h
  | case4 l s c cs hr hx hp ih => exact ih (hl.skipBlanks.renest (.inl s.nesting.overflow_pop)) h
  | case5 => cases h
  | case6 l s c cs hr hx hp ih =>
    refine ih (hl.skipBlanks.renest ?_) h
    rw [← s.nesting.overflow_pop]
    exact s.nesting.pop.overflow_push s.place .operand ""
  | case7 => cases h

/-- **What a reading stands at and what it refused are inside the text.** -/
theorem Inside.run (hl : l.Inside text) : (l.run ref).2.Inside text := by
  fun_induction Lexer.run ref l with
  | case1 l hnone => exact hl
  | case2 l t m hnext hend => exact hl.next? hnext
  | case3 l t m hnext hmore ts last hrun ih =>
    rw [hrun] at ih
    exact ih (hl.next? hnext)

end Lexer

/-! ## Messages of the grammar -/

/-- The diagnostic marks some characters from a place inside the text. -/
def Diagnostic.StartsInside (d : Diagnostic) (text : String) : Prop :=
  ∃ (place : Place) (length : Nat), place.Inside text ∧
    d.range = Range.span place.toPosition length

theorem Diagnostic.StartsInside.pointsInto {d : Diagnostic} {text : String}
    (h : d.StartsInside text) : d.range.PointsInto text := by
  obtain ⟨place, length, hplace, hrange⟩ := h
  rw [hrange]
  exact hplace.span length

/-- A run adds messages at the places that its source marks. -/
theorem Grammar.Run.mem_diagnostics {src : Source} {again : Bool} {s s' : State}
    (h : Run src again s s') :
    ∀ d ∈ s'.diagnostics, d ∈ s.diagnostics ∨ ∃ (place : Place) (length : Nat), src.Marks place ∧
      d.range = Range.span place.toPosition length := by
  induction h with
  | refl => exact fun d hd => .inl hd
  | tail _ hstep ih =>
    intro d hd
    cases hstep with
    | move | unwind | resume | unbounded => exact ih d hd
    | report ht _ =>
      rcases List.mem_append.1 hd with hd | hd
      · exact ih d hd
      · rw [List.mem_singleton.1 hd]
        exact .inr ⟨_, _, .inl ⟨_, ht, rfl⟩, rfl⟩
    | fault _ ht operand =>
      rcases List.mem_append.1 hd with hd | hd
      · exact ih d hd
      · rw [List.mem_singleton.1 hd]
        exact .inr ⟨_, _, .inl ⟨_, ht, rfl⟩, rfl⟩
    | depth _ hp limit =>
      rcases List.mem_append.1 hd with hd | hd
      · exact ih d hd
      · rw [List.mem_singleton.1 hd]
        exact .inr ⟨_, _, hp, rfl⟩

section Parse

variable {ref : Option Reference} {lexLimit limit : Int} {text : String} {parsed : Parsed}

theorem tokenize_inside {t : Token} (ht : t ∈ (tokenize ref lexLimit text).1) :
    t.place.Inside text := by
  obtain ⟨left, hlaid⟩ := tokenize_laid ref lexLimit text
  exact hlaid.place_behind t ht

theorem parse_stream_inside (h : parse ref lexLimit limit text = .ok parsed) {t : Token}
    (ht : t ∈ parsed.stream) : t.place.Inside text := by
  rw [Parsed.stream, parse_tokens h] at ht
  exact tokenize_inside (List.mem_filter.1 ht).1

theorem parse_startsInside (h : parse ref lexLimit limit text = .ok parsed) :
    ∀ d ∈ parsed.diagnostics, d.StartsInside text := by
  obtain ⟨first, rest, hstream, -, rfl⟩ := parse_ok h
  intro d hd
  let src : Source := ⟨first :: rest, (tokenize ref lexLimit text).2.nesting.overflow⟩
  have hrun := (along_program ⟨depthBound limit, ref⟩ src (State.start first rest)
    List.suffix_rfl).1
  rcases hrun.mem_diagnostics d hd with hd | ⟨place, length, hplace, hrange⟩
  · cases hd
  · refine ⟨place, length, ?_, hrange⟩
    rcases hplace with ⟨t, ht, rfl⟩ | hoverflow
    · have ht' : t ∈ first :: rest := ht
      rw [← hstream] at ht'
      exact tokenize_inside (List.mem_filter.1 ht').1
    · exact (Lexer.inside_ofText lexLimit text).run.overflow place hoverflow

end Parse

/-! ## Symbols -/

/-- The symbol stands where one of the tokens does. -/
def Symbol.StandsAt (s : Symbol) (tokens : List Token) : Prop :=
  ∃ t ∈ tokens, s.position = t.place.toPosition

section Symbols

variable {tokens : List Token}

theorem Directive.From.plainDefinitions {dir : Directive} (h : dir.From tokens) :
    ∀ s ∈ dir.plainDefinitions, s.StandsAt tokens := by
  unfold Directive.plainDefinitions
  cases hname : dir.name with
  | none => exact fun s hs => absurd hs List.not_mem_nil
  | some name =>
    have hmem : name ∈ tokens := (h.name name hname).1
    dsimp only
    cases DefinitionForm.ofWord dir.word with
    | value kind =>
      dsimp only
      split
      · exact fun s hs => absurd hs List.not_mem_nil
      · exact List.forall_mem_singleton.2 ⟨name, hmem, rfl⟩
    | label | define => exact List.forall_mem_singleton.2 ⟨name, hmem, rfl⟩
    | callable | scope | enumeration | nothing => exact fun s hs => absurd hs List.not_mem_nil

mutual

theorem Statement.definitions_standAt : (st : Statement) → (∀ u ∈ st.preorder, u.From tokens) →
    ∀ s ∈ st.definitions, s.StandsAt tokens
  | .label t => by
    intro h
    rw [Statement.definitions]
    split
    · exact fun s hs => absurd hs List.not_mem_nil
    · exact List.forall_mem_singleton.2 ⟨t, h _ (Statement.mem_preorder_self _), rfl⟩
  | .instruction _ _ => by
    intro _
    rw [Statement.definitions]
    exact fun s hs => absurd hs List.not_mem_nil
  | .expression _ _ => by
    intro _
    rw [Statement.definitions]
    exact fun s hs => absurd hs List.not_mem_nil
  | .directive dir => by
    intro h
    have hdir : dir.From tokens := h _ (Statement.mem_preorder_self _)
    rw [Statement.definitions]
    exact hdir.plainDefinitions
  | .block _ body _ => by
    intro h
    rw [Statement.preorder, List.forall_mem_cons] at h
    rw [Statement.definitions]
    exact Statement.allDefinitions_standAt body h.2
  | .directiveBlock dir opening body closing => by
    intro h
    rw [Statement.preorder, List.forall_mem_cons] at h
    have hdir : dir.From tokens := h.1.1
    have hbody := Statement.allDefinitions_standAt body h.2
    rw [Statement.definitions]
    cases hname : dir.name with
    | none => exact hbody
    | some name =>
      have hmem : name ∈ tokens := (hdir.name name hname).1
      cases DefinitionForm.ofWord dir.word with
      | callable kind =>
        refine List.forall_mem_cons.2 ⟨⟨name, hmem, rfl⟩, List.forall_mem_append.2 ⟨?_, hbody⟩⟩
        intro s hs
        obtain ⟨t, ht, rfl⟩ := List.mem_map.1 hs
        exact ⟨t, (hdir.parameters t ht).1, rfl⟩
      | scope => exact List.forall_mem_cons.2 ⟨⟨name, hmem, rfl⟩, hbody⟩
      | enumeration =>
        refine List.forall_mem_cons.2 ⟨⟨name, hmem, rfl⟩, fun s hs => ?_⟩
        obtain ⟨⟨t, i⟩, ht, rfl⟩ := List.mem_map.1 hs
        exact ⟨t, (hdir.parameters t (List.fst_mem_of_mem_zipIdx ht)).1, rfl⟩
      | nothing => exact hbody
      | value | label | define => exact hdir.plainDefinitions

/-- Every symbol is defined at a token. -/
theorem Statement.allDefinitions_standAt : (sts : List Statement) →
    (∀ u ∈ Statement.preorders sts, u.From tokens) →
    ∀ s ∈ Statement.allDefinitions sts, s.StandsAt tokens
  | [] => by
    intro _
    rw [Statement.allDefinitions]
    exact fun s hs => absurd hs List.not_mem_nil
  | st :: sts => by
    intro h
    rw [Statement.preorders, List.forall_mem_append] at h
    rw [Statement.allDefinitions, List.forall_mem_append]
    exact ⟨Statement.definitions_standAt st h.1, Statement.allDefinitions_standAt sts h.2⟩

end

theorem Symbol.StandsAt.pointsInto {s : Symbol} {text : String} (h : s.StandsAt tokens)
    (hplaces : ∀ t ∈ tokens, t.place.Inside text) : s.nameRange.PointsInto text := by
  obtain ⟨t, ht, hposition⟩ := h
  rw [Symbol.nameRange, hposition]
  exact (hplaces t ht).span _

end Symbols

/-! ## Stored symbols -/

namespace Scope

theorem allSymbols_leaf (name : String) (range : Range) (uri : String) :
    (leaf name range uri).allSymbols = [] := by
  rw [allSymbols_eq, preorder_eq]
  rfl

theorem allSymbols_children (s : Scope) :
    s.allSymbols = s.symbols.entries.map (·.2) ++ s.children.flatMap allSymbols := by
  have hall : s.children.flatMap allSymbols =
      s.children.flatMap fun c => c.preorder.flatMap fun d => d.symbols.entries.map (·.2) :=
    congrArg (List.flatMap · s.children) (funext allSymbols_eq)
  rw [allSymbols_eq, preorder_eq, List.flatMap_cons, hall, preorders_eq, List.flatMap_assoc]

theorem allSymbols_withUri (s : Scope) (uri : String) :
    ({ s with uri } : Scope).allSymbols = s.allSymbols := by
  rw [allSymbols_children, allSymbols_children s]

theorem allSymbols_attach (s child : Scope) :
    (s.attach child).allSymbols = s.allSymbols ++ child.allSymbols := by
  have hlast : ∀ c : Scope, ({ s with children := s.children ++ [c] } : Scope).allSymbols =
      s.allSymbols ++ c.allSymbols := by
    intro c
    rw [allSymbols_children, allSymbols_children s]
    simp
  unfold attach
  dsimp only
  split
  · rw [hlast, allSymbols_withUri]
  · exact hlast child

mutual

theorem allSymbols_reset : (s : Scope) →
    s.reset.allSymbols = s.allSymbols.map fun x => { x with uses := 0 }
  | ⟨name, range, uri, symbols, children⟩ => by
    rw [allSymbols_children, allSymbols_children, List.map_append, reset_symbols, reset,
      allSymbols_resets children, resetEntries, List.map_map, List.map_map]
    rfl

theorem allSymbols_resets : (cs : List Scope) →
    (resets cs).flatMap allSymbols = (cs.flatMap allSymbols).map fun x => { x with uses := 0 }
  | [] => rfl
  | c :: cs => by
    rw [resets, List.flatMap_cons, List.flatMap_cons, List.map_append, allSymbols_reset c,
      allSymbols_resets cs]

end

/-- Counting the references keeps the names and where they are defined. -/
theorem exists_of_mem_count {s : Scope} {refs : List SymbolRef} {x : Symbol}
    (hx : x ∈ (s.count refs).allSymbols) : ∃ y ∈ s.allSymbols, x.nameRange = y.nameRange := by
  have hreset : (s.count refs).reset.allSymbols = s.reset.allSymbols := by
    rw [(recounted_iff _ _).1 (recounted_count s refs)]
  rw [allSymbols_reset, allSymbols_reset] at hreset
  have hmem := List.mem_map_of_mem (f := fun x : Symbol => { x with uses := 0 }) hx
  rw [hreset] at hmem
  obtain ⟨y, hy, heq⟩ := List.mem_map.1 hmem
  exact ⟨y, hy, (congrArg Symbol.nameRange heq).symm⟩

end Scope

/-- **Nothing is stored but what is defined.** -/
theorem Draft.carries_stored :
    Carries fun d d' xs => ∀ s ∈ d'.scope.allSymbols, s ∈ d.scope.allSymbols ∨ s ∈ xs where
  refl d s hs := .inl hs
  trans h h' s hs := by
    rcases h' s hs with hs | hs
    · exact (h s hs).imp_right (List.mem_append_left _)
    · exact .inr (List.mem_append_right _ hs)
  define d symbol := by
    unfold define Scope.declare
    cases hget : d.scope.symbols.get? symbol.key with
    | some first => exact fun s hs => .inl hs
    | none =>
      intro s hs
      dsimp only at hs
      rw [Scope.allSymbols_children, Table.put, Table.putEntry_of_lookup_eq_none hget,
        List.map_append, List.append_assoc] at hs
      rw [Scope.allSymbols_children]
      simp only [List.mem_append, List.map_singleton] at hs ⊢
      grind
  attach {d child name closing xs} h s hs := by
    have hs' : s ∈ (d.scope.attach child.scope).allSymbols := hs
    rw [Scope.allSymbols_attach, List.mem_append] at hs'
    refine hs'.imp_right fun hs => (h s hs).resolve_left ?_
    rw [show (childScope d.scope.uri name closing).allSymbols = [] from Scope.allSymbols_leaf _ _ _]
    exact List.not_mem_nil

theorem Scope.mem_ofProgram {uri : String} {lines : Int} {p : Program} {s : Symbol}
    (hs : s ∈ (Scope.ofProgram uri lines p).1.allSymbols) :
    s ∈ Statement.allDefinitions p.statements := by
  refine (Draft.carries_stored.statements ⟨Scope.root uri lines, []⟩ p.statements s hs).resolve_left
    ?_
  rw [show (Scope.root uri lines).allSymbols = [] from Scope.allSymbols_leaf _ _ _]
  exact List.not_mem_nil

/-! ## The analysis of a document -/

/-- The warnings are at the mnemonics of the program and at the names of its symbols. -/
theorem checkUsage_pointsInto {settings : Settings} {p : Program} {scope : Scope} {text : String}
    {tokens : List Token} (hplaces : ∀ t ∈ tokens, t.place.Inside text)
    (hstatements : ∀ u ∈ Statement.preorders p.statements, u.From tokens)
    (hsymbols : ∀ s ∈ scope.allSymbols, s.StandsAt tokens) :
    ∀ d ∈ (checkUsage settings p scope text).2, d.range.PointsInto text := by
  refine List.forall_mem_append.2 ⟨fun d hd => ?_, fun d hd => ?_⟩
  · split at hd
    · obtain ⟨t, e, hmem, rfl⟩ := exists_of_mem_statementsIllegal _ hd
      have hfrom : t ∈ tokens ∧ e.From tokens := hstatements _ hmem
      exact (hplaces t hfrom.1).span _
    · exact absurd hd List.not_mem_nil
  · split at hd
    · rw [unusedWarnings, filterMap_unusedWarning?] at hd
      obtain ⟨x, hx, rfl⟩ := List.mem_map.1 hd
      obtain ⟨y, hy, hrange⟩ := Scope.exists_of_mem_count (List.mem_filter.1 hx).1
      rw [show x.unused.range = x.nameRange from rfl, hrange]
      exact (hsymbols y hy).pointsInto hplaces
    · exact absurd hd List.not_mem_nil

/-- **Every diagnostic points into its text.** -/
theorem analyze_pointsInto (ref : Option Reference) (settings : Settings) (uri text : String)
    {a : Analysis} (ha : analyze ref settings uri text = .ok a) :
    ∀ d ∈ a.diagnostics, d.range.PointsInto text := by
  cases ref with
  | none =>
    cases ha
    exact List.forall_mem_singleton.2 ((place_start_inside text).span 0)
  | some ref =>
    cases hparsed : parse (some ref) settings.maxDepth settings.maxDepth text with
    | error fault =>
      rw [analyze_of_parse_error hparsed] at ha
      cases ha
    | ok parsed =>
      rw [analyze_of_parse hparsed] at ha
      cases ha
      have hplaces : ∀ t ∈ parsed.stream, t.place.Inside text :=
        fun t => parse_stream_inside hparsed
      have hstatements := Statement.AllFrom.preorders (parse_from hparsed)
      have hdefined := Statement.allDefinitions_standAt parsed.program.statements hstatements
      refine List.forall_mem_append.2 ⟨List.forall_mem_append.2 ⟨?_, ?_⟩, ?_⟩
      · exact fun d hd => (parse_startsInside hparsed d hd).pointsInto
      · intro d hd
        obtain ⟨s, hs, rfl⟩ := Scope.reports_ofProgram hd
        exact (hdefined s hs).pointsInto hplaces
      · exact checkUsage_pointsInto hplaces hstatements
          fun s hs => hdefined s (Scope.mem_ofProgram hs)

/-- A block that is not closed, with a label twice. -/
def openBlock : String := "\x7ba:\na:"

/-- A push that is refused, a second definition and a label without references. -/
theorem analyze_pointsInto_openBlock :
    ∃ a : Analysis,
      analyze (some bareReference) { Settings.standard with maxDepth := 1 } "" openBlock = .ok a ∧
      a.diagnostics.length = 3 ∧ ∀ d ∈ a.diagnostics, d.range.PointsInto openBlock := by
  let shallow : Settings := { Settings.standard with maxDepth := 1 }
  obtain ⟨parsed, hparsed, hlength⟩ : ∃ parsed, parse (some bareReference) 1 1 openBlock =
      .ok parsed ∧ (parsed.analysis shallow "" openBlock).diagnostics.length = 3 :=
    exists_parsed_of_session 4 (by cbv) (by decide) (by decide +kernel)
  have ha : analyze (some bareReference) shallow "" openBlock =
      .ok (parsed.analysis shallow "" openBlock) := analyze_of_parse hparsed
  exact ⟨_, ha, hlength, analyze_pointsInto _ shallow "" openBlock ha⟩

end Asm6510
