import Asm6510.Proofs.Token.ValueTokens

/-!
# Tokens read one after the other

* `Nesting.Roomy`: a value is being read, and there is room for some more contexts.
* `Lexer.Reading`, `LexesTo`: tokens that are read one after the other, up to some text, with the
  stack as it was.
* `lexesTo_standing`, `lexesTo_opening`, `lexesTo_closing`: one token.
* `Lexing.isPlainName`: what a constant can be called.

Main statement: `tokenize_constant`, the tokens of a line that defines a constant.
-/

namespace Asm6510

open Lexing

/-- A kind and a literal. -/
abbrev Piece := TokenKind × String

def Token.piece (t : Token) : Piece :=
  (t.kind, t.literal)

theorem Token.kind_of_piece {t : Token} {kind : TokenKind} {literal : String}
    (h : t.piece = (kind, literal)) : t.kind = kind :=
  congrArg Prod.fst h

theorem Token.literal_of_piece {t : Token} {kind : TokenKind} {literal : String}
    (h : t.piece = (kind, literal)) : t.literal = literal :=
  congrArg Prod.snd h

namespace Nesting

/-- A value is being read, nothing is refused, and there is room for `k` more contexts. -/
structure Roomy (n : Nesting) (k : Nat) : Prop where
  mode : n.top.mode = .directive ∨ n.top.mode = .expression
  refused : n.refused = 0
  room : n.depth + k ≤ n.limit

/-- The stack within parentheses. -/
def opened (n : Nesting) : Nesting :=
  { n with frames := ⟨.expression, ""⟩ :: n.frames }

variable {n : Nesting} {k : Nat}

theorem Roomy.mono {j : Nat} (h : n.Roomy k) (hj : j ≤ k) : n.Roomy j :=
  ⟨h.mode, h.refused, Nat.le_trans (Nat.add_le_add_left hj _) h.room⟩

theorem Roomy.push (h : n.Roomy (k + 1)) (place : Place) (mode : Mode) (directive : String) :
    n.push place mode directive = { n with frames := ⟨mode, directive⟩ :: n.frames } := by
  have hfull : ¬n.isFull = true := by
    have hroom := h.room
    simp only [isFull, decide_eq_true_eq]
    omega
  unfold Nesting.push
  rw [if_neg hfull]

/-- Within parentheses there is room for one context less. -/
theorem Roomy.opened (h : n.Roomy (k + 1)) : n.opened.Roomy k := by
  refine ⟨.inr rfl, h.refused, ?_⟩
  have hroom := h.room
  show n.frames.length + 1 + 1 + k ≤ n.limit
  unfold depth at hroom
  omega

theorem Roomy.pop_opened (h : n.Roomy k) : n.opened.pop = n := by
  unfold Nesting.pop
  rw [if_pos (show n.opened.refused = 0 from h.refused)]
  rfl

end Nesting

namespace Lexer

/-! ## Readings one after the other -/

/-- The tokens are read one after the other. -/
def Reading (ref : Option Reference) (l : Lexer) : List Token → Lexer → Prop
  | [], l' => l' = l
  | t :: ts, l' => ∃ m, l.next? ref = some (t, m) ∧ Reading ref m ts l'

theorem Reading.append {ref : Option Reference} {l m l' : Lexer} {ts us : List Token}
    (h : Reading ref l ts m) (h' : Reading ref m us l') : Reading ref l (ts ++ us) l' := by
  induction ts generalizing l with
  | nil =>
    cases h
    exact h'
  | cons t ts ih =>
    obtain ⟨k, hk, hts⟩ := h
    exact ⟨k, hk, ih hts⟩

/-- Tokens with the given pieces are read up to `tail`, and the stack is the given one there. -/
def LexesTo (ref : Option Reference) (l : Lexer) (ps : List Piece) (tail : List Char)
    (n : Nesting) : Prop :=
  ∃ ts l', Reading ref l ts l' ∧ ts.map Token.piece = ps ∧ l'.rest = tail ∧ l'.nesting = n

theorem lexesTo_nil {ref : Option Reference} {l : Lexer} : LexesTo ref l [] l.rest l.nesting :=
  ⟨[], l, rfl, rfl, rfl, rfl⟩

theorem LexesTo.trans {ref : Option Reference} {l : Lexer} {ps qs : List Piece}
    {mid tail : List Char} {n n' : Nesting} (h : LexesTo ref l ps mid n)
    (h' : ∀ m : Lexer, m.rest = mid → m.nesting = n → LexesTo ref m qs tail n') :
    LexesTo ref l (ps ++ qs) tail n' := by
  obtain ⟨ts, m, hts, rfl, hrest, hnesting⟩ := h
  obtain ⟨us, l', hus, rfl, hrest', hnesting'⟩ := h' m hrest hnesting
  exact ⟨ts ++ us, l', hts.append hus, List.map_append, hrest', hnesting'⟩

/-! ## One token -/

section Steps

variable {ref : Option Reference} {l : Lexer} {b k : Nat} {c : Char} {cs w tail : List Char}

theorem skipBlanks_replicate (hrest : l.rest = List.replicate b ' ' ++ c :: cs)
    (hc : isSkipped l.nesting.top.mode c = false) : l.skipBlanks.rest = c :: cs := by
  show l.rest.dropWhile (isSkipped l.nesting.top.mode) = c :: cs
  rw [hrest, List.dropWhile_append_of_pos fun d hd => ?_]
  · rw [List.dropWhile_cons_of_neg (by rw [hc]; exact Bool.false_ne_true)]
  · rw [List.eq_of_mem_replicate hd]
    rfl

/-- A lexeme of a value starts here, and no comment. -/
theorem actionAt_value {mode : Mode} (parens : Nat)
    (hmode : mode = .directive ∨ mode = .expression) (hopens : opensLexeme c = true)
    (hplain : startsComment c cs.head? = false) :
    actionAt ref mode parens c cs = .emit (value ref c cs) := by
  simp only [opensLexeme, List.contains_eq_mem, List.mem_cons, List.not_mem_nil, or_false,
    Bool.not_eq_true', decide_eq_false_iff_not, not_or] at hopens
  obtain ⟨-, -, -, hline, hsemi, hopening, hclosing, hleft, hright⟩ := hopens
  simp only [startsComment, Bool.and_eq_false_iff, Bool.or_eq_false_iff, beq_eq_false_iff_ne]
    at hplain
  have hslash : ∀ d, d = '/' ∨ d = '*' → ¬(c = '/' ∧ cs.head? = some d) := by
    rintro d hd ⟨hc, hhead⟩
    rcases hplain with hne | ⟨hslash, hstar⟩
    · exact hne hc
    · rcases hd with rfl | rfl
      · exact hslash hhead
      · exact hstar hhead
  rw [actionAt_of_no_slash (hslash '/' (.inl rfl)) (hslash '*' (.inr rfl)),
    if_neg fun h => hsemi h.1]
  rcases hmode with rfl | rfl
  · simp only [modeAction, directiveAction]
    rw [if_neg hline, if_neg hleft, if_neg hright, if_neg hopening]
  · simp only [modeAction, expressionAction]
    rw [if_neg hclosing, if_neg hopening]

theorem isSkipped_of_opensLexeme (mode : Mode) (h : opensLexeme c = true) :
    isSkipped mode c = false := by
  simp only [opensLexeme, List.contains_eq_mem, List.mem_cons, List.not_mem_nil, or_false,
    Bool.not_eq_true', decide_eq_false_iff_not, not_or] at h
  simp [isSkipped, isLineBlank, h]

theorem lexesTo_emit {x : Lexeme} (hrest : l.rest = List.replicate b ' ' ++ c :: cs)
    (hskip : isSkipped l.nesting.top.mode c = false)
    (hx : ∀ parens, actionAt ref l.nesting.top.mode parens c cs = .emit x) :
    LexesTo ref l [(x.kind, x.literalAt c cs)] ((cs.drop x.more).drop x.gap)
      (l.skipBlanks.emit c cs x).2.nesting := by
  have hs := skipBlanks_replicate hrest hskip
  refine ⟨[(l.skipBlanks.emit c cs x).1], (l.skipBlanks.emit c cs x).2,
    ⟨(l.skipBlanks.emit c cs x).2, next?_emit rfl hs (hx _), rfl⟩, ?_, rfl, rfl⟩
  rw [List.map_singleton, Token.piece, (emit_kind _ _ _ _).1, emit_literal]

/-- A lexeme of a value is read, with the stack as it was. -/
theorem lexesTo_standing {kind : TokenKind} (hroomy : l.nesting.Roomy k)
    (hstring : kind = .string → 0 < k) (hopens : opensLexeme c = true)
    (hplain : startsComment c (w ++ tail).head? = false)
    (hstanding : Standing kind w.length (value ref c (w ++ tail)))
    (hrest : l.rest = List.replicate b ' ' ++ c :: (w ++ tail)) :
    LexesTo ref l [(kind, String.ofList (c :: w))] tail l.nesting := by
  have haction : ∀ parens, actionAt ref l.nesting.top.mode parens c (w ++ tail) =
      .emit (value ref c (w ++ tail)) := fun parens =>
    actionAt_value parens hroomy.mode hopens hplain
  have hread := lexesTo_emit hrest (isSkipped_of_opensLexeme _ hopens) haction
  have hnesting : (l.skipBlanks.emit c (w ++ tail) (value ref c (w ++ tail))).2.nesting =
      l.nesting := by
    unfold emit
    rw [hstanding.opening_eq, hstanding.closing_eq, hstanding.following_eq]
    by_cases hkind : kind = .string
    · obtain ⟨k, rfl⟩ := Nat.exists_eq_add_one.2 (hstring hkind)
      rw [if_pos hkind, if_pos hkind]
      show (l.nesting.push _ .stringLiteral "").pop = l.nesting
      rw [hroomy.push]
      unfold Nesting.pop
      rw [if_pos hroomy.refused]
      rfl
    · rw [if_neg hkind, if_neg hkind]
      rfl
  rw [Lexeme.literalAt, hstanding.kind_eq, hstanding.code_eq, hstanding.more_eq, hstanding.gap_eq,
    List.take_left, List.drop_left, List.drop_zero, hnesting] at hread
  exact hread

theorem lexesTo_whole {kind : TokenKind} {d : Char} {behind : List Char}
    (hroomy : l.nesting.Roomy k) (hstring : kind = .string → 0 < k) (h : Whole ref kind c w)
    (hd : d ∈ delimiters) (hrest : l.rest = List.replicate b ' ' ++ c :: (w ++ d :: behind)) :
    LexesTo ref l [(kind, String.ofList (c :: w))] (d :: behind) l.nesting := by
  refine lexesTo_standing hroomy hstring h.opens ?_ (h.standing d hd behind) hrest
  have hhead : (w ++ d :: behind).head? = (w ++ [d]).head? := by cases w <;> rfl
  rw [hhead]
  exact h.plain d hd

theorem lexesTo_opening (hroomy : l.nesting.Roomy (k + 1))
    (hrest : l.rest = List.replicate b ' ' ++ '(' :: cs) :
    LexesTo ref l [(.leftParen, "(")] cs l.nesting.opened := by
  have hskip : isSkipped l.nesting.top.mode '(' = false := rfl
  have haction : ∀ parens, actionAt ref l.nesting.top.mode parens '(' cs =
      .emit ((operator '(' cs).after (.push .expression "")) := by
    intro parens
    rcases hroomy.mode with hmode | hmode
    · rw [hmode]
      rfl
    · rw [hmode]
      rfl
  have hread := lexesTo_emit hrest hskip haction
  have hoperator : operator '(' cs = Lexeme.plain .leftParen 0 := by cases cs <;> rfl
  have hnesting : (l.skipBlanks.emit '(' cs
      ((operator '(' cs).after (.push .expression ""))).2.nesting = l.nesting.opened := by
    rw [hoperator]
    exact hroomy.push _ _ _
  rw [hnesting, hoperator] at hread
  exact hread

theorem lexesTo_closing {n : Nesting} (hroomy : n.Roomy k) (hn : l.nesting = n.opened)
    (hrest : l.rest = ')' :: cs) : LexesTo ref l [(.rightParen, ")")] cs n := by
  have hskip : isSkipped l.nesting.top.mode ')' = false := rfl
  have haction : ∀ parens, actionAt ref l.nesting.top.mode parens ')' cs =
      .emit ((operator ')' cs).after .pop) := by
    intro parens
    rw [hn]
    rfl
  have hread := lexesTo_emit (b := 0) hrest hskip haction
  have hoperator : operator ')' cs = Lexeme.plain .rightParen 0 := by cases cs <;> rfl
  have hnesting : (l.skipBlanks.emit ')' cs ((operator ')' cs).after .pop)).2.nesting = n := by
    rw [hoperator]
    show l.nesting.pop = n
    rw [hn, hroomy.pop_opened]
  rw [hnesting, hoperator] at hread
  exact hread

end Steps

end Lexer

/-! ## A line -/

/-- A letter or an underscore with letters, digits and underscores behind it; no keyword. -/
def Lexing.isPlainName (name : String) : Bool :=
  match name.toList with
  | [] => false
  | c :: w => Text.isNameStart c && w.all Text.isNamePart && name != "else"

/-- The word that starts the definition of a constant. -/
def Lexing.constLexeme (ref : Option Reference) : Lexeme :=
  directive (.directive (directiveClass ref ".const")) ".const" 5

/-- The stack behind that word. -/
def Nesting.ofConst (limit : Int) : Nesting :=
  { Nesting.ofLimit limit with frames := [⟨.directive, ".const"⟩] }

namespace Lexer

section Lines

variable {ref : Option Reference} {l m : Lexer} {limit : Int} {k : Nat} {name : String}
  {cs : List Char}

theorem whole_plainName (ref : Option Reference) (h : isPlainName name = true) :
    ∃ kind c w, kind.isName = true ∧ name = String.ofList (c :: w) ∧ Whole ref kind c w := by
  unfold isPlainName at h
  split at h
  · cases h
  · next c w hname =>
    rw [Bool.and_eq_true, Bool.and_eq_true, bne_iff_ne] at h
    obtain ⟨⟨hstart, hparts⟩, helse⟩ := h
    have hspelling : name = String.ofList (c :: w) := by rw [← hname, String.ofList_toList]
    have hdotted : ∀ d ∈ w, isDotted d = true := by
      intro d hd
      rw [isDotted, List.all_eq_true.1 hparts d hd]
      rfl
    have hsize : nameSize? c w = some w.length := by
      rw [nameSize?, if_pos hstart, Lexing.run, List.takeWhile_eq_self_iff.2 hdotted]
    obtain ⟨x, hx⟩ : ∃ x, wordAt? ref c w = some x := by
      rw [wordAt?, hsize]
      exact ⟨_, rfl⟩
    have hmore : x.more = w.length := by
      have hword := (standing_word hx).2
      rw [hsize] at hword
      exact (Option.some.inj hword).symm
    have hkind : x.kind.isName = true := by
      rw [wordAt?, hsize, Option.map_some, List.take_length, ← hspelling] at hx
      dsimp only at hx
      rw [if_neg helse] at hx
      cases hx
      split
      · rfl
      · dsimp only
        split <;> rfl
    have hwhole := whole_word hx
    rw [hmore, List.take_length] at hwhole
    exact ⟨x.kind, c, w, hkind, hspelling, hwhole⟩

theorem statement_const (ref : Option Reference) (cs : List Char) :
    statement ref '.' ("const".toList ++ ' ' :: cs) = constLexeme ref := by
  have hlower : Text.lower (String.ofList ['.', 'c', 'o', 'n', 's', 't']) = ".const" := by
    decide +kernel
  have hdirective : directiveAt? ref '.' ("const".toList ++ ' ' :: cs) =
      some (constLexeme ref) := by
    rw [constLexeme, ← hlower]
    rfl
  rw [statement, hdirective]
  rfl

/-- The word that starts the definition of a constant, at the start of a text. -/
theorem lexesTo_const (hl : l.nesting = Nesting.ofLimit limit) (hroom : 2 ≤ depthBound limit)
    (hrest : l.rest = '.' :: ("const".toList ++ ' ' :: cs)) :
    LexesTo ref l [((constLexeme ref).kind, ".const")] (' ' :: cs) (Nesting.ofConst limit) := by
  have haction : ∀ parens,
      actionAt ref l.nesting.top.mode parens '.' ("const".toList ++ ' ' :: cs) =
        .emit (constLexeme ref) := by
    intro parens
    rw [hl, ← statement_const ref cs]
    rfl
  have hread := lexesTo_emit (b := 0) hrest (by rw [hl]; rfl) haction
  have hfull : ¬(Nesting.ofLimit limit).isFull = true := by
    show ¬decide (depthBound limit ≤ 1) = true
    rw [decide_eq_true_eq]
    omega
  have hnesting : (l.skipBlanks.emit '.' ("const".toList ++ ' ' :: cs)
      (constLexeme ref)).2.nesting = Nesting.ofConst limit := by
    show l.nesting.push _ .directive ".const" = _
    unfold Nesting.push
    rw [hl, if_neg hfull]
    rfl
  rw [hnesting] at hread
  exact hread

theorem Reading.run {ts : List Token} (h : Reading ref l ts m)
    (hends : ∀ t ∈ ts, t.kind ≠ .endOfText) :
    l.run ref = (ts ++ (m.run ref).1, (m.run ref).2) := by
  induction ts generalizing l with
  | nil =>
    cases h
    rfl
  | cons t ts ih =>
    obtain ⟨k, hk, hts⟩ := h
    rw [run_of_token hk (hends t List.mem_cons_self),
      ih hts fun u hu => hends u (List.mem_cons_of_mem t hu)]
    rfl

/-- The line feed at the end of a directive that ends the text. -/
theorem run_line (ref : Option Reference) (hrest : l.rest = ['\n'])
    (hmode : l.nesting.top.mode = .directive) :
    ∃ e, e.kind = .endOfText ∧ (l.run ref).1 = [e] ∧
      (l.run ref).2.nesting.overflow = l.nesting.overflow := by
  have hskip : l.skipBlanks.rest = ['\n'] := by
    refine skipBlanks_replicate (b := 0) hrest ?_
    rw [hmode]
    rfl
  have haction : actionAt ref l.skipBlanks.nesting.top.mode l.skipBlanks.parens '\n' [] =
      .newline := by
    refine actionAt_newline ?_ _ _
    rw [show l.skipBlanks.nesting = l.nesting from rfl, hmode]
    rfl
  have hnext := (next?_newline rfl hskip haction).trans (next?_nil rfl rfl)
  rw [run_of_end hnext rfl]
  refine ⟨_, rfl, rfl, ?_⟩
  show l.nesting.pop.overflow = l.nesting.overflow
  unfold Nesting.pop
  split <;> rfl

/-- **The tokens of the definition of a constant**, whose value is read as the given pieces if there
is room for `k` contexts. -/
theorem tokenize_constant {value : String} {ps : List Piece} (hname : isPlainName name = true)
    (hroom : 2 + k ≤ depthBound limit) (hends : ∀ p ∈ ps, p.1 ≠ .endOfText)
    (hvalue : ∀ m : Lexer, m.nesting.Roomy k → m.rest = ' ' :: (value.toList ++ ['\n']) →
      LexesTo ref m ps ['\n'] m.nesting) :
    ∃ kind ts e last, kind.isName = true ∧ e.kind = .endOfText ∧
      tokenize ref limit (".const " ++ name ++ " = " ++ value ++ "\n") = (ts ++ [e], last) ∧
      ts.map Token.piece =
        [((constLexeme ref).kind, ".const"), (kind, name), (.equal, "=")] ++ ps ∧
      last.nesting.overflow = none := by
  obtain ⟨kind, c, w, hkind, rfl, hwhole⟩ := whole_plainName ref hname
  have htext : (".const " ++ String.ofList (c :: w) ++ " = " ++ value ++ "\n").toList =
      '.' :: ("const".toList ++
        ' ' :: c :: (w ++ ' ' :: '=' :: ' ' :: (value.toList ++ ['\n']))) := by
    simp
  have hroomy : ∀ m : Lexer, m.nesting = Nesting.ofConst limit → m.nesting.Roomy k := by
    intro m hm
    rw [hm]
    exact ⟨.inl rfl, rfl, hroom⟩
  have hequal : Whole ref .equal '=' [] := whole_operator ref rfl rfl
  have hword : kind = .string → 0 < k := by
    rintro rfl
    cases hkind
  have hlexes : LexesTo ref
      (ofText limit (".const " ++ String.ofList (c :: w) ++ " = " ++ value ++ "\n"))
      ([((constLexeme ref).kind, ".const")] ++ ([(kind, String.ofList (c :: w))] ++
        ([(.equal, "=")] ++ ps))) ['\n'] (Nesting.ofConst limit) := by
    refine LexesTo.trans (lexesTo_const rfl (by omega) htext) fun x hx hnx => ?_
    refine LexesTo.trans (n := x.nesting) (lexesTo_whole (b := 1) (hroomy x hnx) hword hwhole
      blank_mem_delimiters hx) fun y hy hny => ?_
    rw [hnx] at hny
    refine LexesTo.trans (n := y.nesting) (lexesTo_whole (b := 1) (hroomy y hny)
      TokenKind.noConfusion hequal blank_mem_delimiters hy) fun z hz hnz => ?_
    rw [hny] at hnz
    have hread := hvalue z (hroomy z hnz) hz
    rwa [hnz] at hread
  obtain ⟨ts, m, hreading, hpieces, hrest, hnesting⟩ := hlexes
  obtain ⟨e, he, hrun, hoverflow⟩ := run_line ref hrest (by rw [hnesting]; rfl)
  have hkinds : ∀ t ∈ ts, t.kind ≠ .endOfText := by
    intro t ht
    have hmem : t.piece ∈ ts.map Token.piece := List.mem_map_of_mem ht
    rw [hpieces] at hmem
    simp only [List.singleton_append, List.mem_cons] at hmem
    rcases hmem with hmem | hmem | hmem | hmem
    · rw [Token.kind_of_piece hmem]
      exact TokenKind.noConfusion
    · rw [Token.kind_of_piece hmem]
      rintro rfl
      cases hkind
    · rw [Token.kind_of_piece hmem]
      exact TokenKind.noConfusion
    · exact hends _ hmem
  refine ⟨kind, ts, e, (m.run ref).2, hkind, he, ?_, hpieces, ?_⟩
  · rw [tokenize, hreading.run hkinds, hrun]
  · rw [hoverflow, hnesting]
    rfl

end Lines

end Lexer

end Asm6510
