import Asm6510.Proofs.Grammar.Stream
import Asm6510.Proofs.Usage.LineScan
import Asm6510.Scope.Definitions
import Mathlib

/-!
# Names that are taken for comments

Whether a name stands in a comment is decided by its line alone, while the lexer reads the whole
text. The two differ in few ways.

* `Token.codeOn`: the characters of a token that the scan of a line takes for code.
* `codeBefore`: what stands before a token in its line, without strings and comments.
* `MarkInTail`: a comment from an earlier line has a mark for a comment in its end.
* `Tracks`: the scan of a line up to some point sees the code of the tokens read so far.

* `Node.identifiers`: the names in a node.

Main statement: `parse_name_hidden_iff`, a name of a program is taken for a part of a comment
exactly if a semicolon stands before it outside of the parentheses that are opened in its line. For
the lexer a semicolon starts no comment between apostrophes, within a comment from an earlier line,
or within parentheses that are opened there; a name behind such a semicolon is hidden. Lines with a
quotation mark in their code, or with a mark in the end of a comment from an earlier line, are left
out.
-/

namespace Asm6510

variable {t : Token} {behind read : List Char} {line : Nat} {mid back : List Token}

/-! ## The code of a line -/

def Token.stop (t : Token) : Place :=
  t.place.after t.spelling.toList

/-- The characters of a token in a line that are code for the scan of that line: those of a token
that starts there and is no string and no comment, and the end of a comment from an earlier line. -/
def Token.codeOn (line : Nat) (t : Token) : List Char :=
  if t.kind = .blockComment then
    if t.place.line < line ∧ t.stop.line = line then lastLine t.spelling.toList else []
  else if t.kind.isPlain ∧ t.place.line = line then t.spelling.toList
  else []

/-- What stands before a token in its line, without blanks, strings and comments. -/
def codeBefore (tokens : List Token) (t : Token) : List Char :=
  (tokens.takeWhile (·.place.before t.place)).flatMap (·.codeOn t.place.line)

/-- A mark for a comment starts in a line where a comment from an earlier line goes on. -/
def MarkInTail (text : String) (tokens : List Token) (line : Nat) : Prop :=
  ∃ u ∈ tokens, u.kind = .blockComment ∧ u.place.line < line ∧ u.stop.line = line ∧
    ∃ i < u.stop.column - 1, ∃ mark ∈ ["//", "/*"],
      mark.toList <+: (((Text.lines text)[line - 1]?).getD "").toList.drop i

instance (text : String) (tokens : List Token) (line : Nat) :
    Decidable (MarkInTail text tokens line) :=
  inferInstanceAs (Decidable (∃ u ∈ tokens, _))

theorem Place.line_behind (cs : List Char) : (Place.behind cs).line = 1 + cs.count '\n' :=
  rfl

theorem Place.line_behind_append (cs w : List Char) :
    (Place.behind (cs ++ w)).line = (Place.behind cs).line + w.count '\n' := by
  rw [line_behind, line_behind, List.count_append]
  omega

theorem Token.stop_eq (h : t.place = Place.behind read) :
    t.stop = Place.behind (read ++ t.spelling.toList) := by
  rw [stop, h, Place.behind_append]

theorem Token.codeOn_eq_nil (hplace : t.place.line < line) (hstop : t.stop.line < line) :
    t.codeOn line = [] := by
  unfold codeOn
  split
  · rw [if_neg (by omega)]
  · rw [if_neg (by omega)]

/-- A comment that starts in a line, or a string, has no code there. -/
theorem Token.codeOn_of_not_plain (hkind : t.kind.isPlain = false) (hplace : t.place.line = line) :
    t.codeOn line = [] := by
  unfold codeOn
  split
  · rw [if_neg (by omega)]
  · rw [if_neg (by rw [hkind]; simp)]

theorem Token.codeOn_plain (hkind : t.kind.isPlain = true) (hplace : t.place.line = line) :
    t.codeOn line = t.spelling.toList := by
  have hne : t.kind ≠ .blockComment := by
    intro hblock
    rw [hblock] at hkind
    cases hkind
  rw [codeOn, if_neg hne, if_pos ⟨hkind, hplace⟩]

/-- A token other than the end of the text starts with a character that is no line feed. -/
theorem Token.Shape.head? (h : t.Shape behind) (hkind : t.kind ≠ .endOfText)
    (hspelling : t.kind = .endOfText ↔ t.spelling = "") :
    ∃ c w, t.spelling.toList = c :: w ∧ c ≠ '\n' := by
  have hne : t.spelling.toList ≠ [] :=
    fun hnil => hkind (hspelling.2 (String.toList_eq_nil_iff.1 hnil))
  obtain ⟨c, w, hcw⟩ := List.exists_cons_of_ne_nil hne
  refine ⟨c, w, hcw, ?_⟩
  cases h with
  | endOfText kind_eq => exact absurd kind_eq hkind
  | lineComment _ start_ne =>
    rw [hcw] at start_ne
    simpa using start_ne
  | blockComment _ spelling_eq =>
    rw [hcw] at spelling_eq
    rw [(List.cons.inj spelling_eq).1]
    decide
  | string _ spelling_eq =>
    rw [hcw] at spelling_eq
    rw [(List.cons.inj spelling_eq).1]
    decide
  | plain _ unmarked =>
    rw [hcw] at unmarked
    exact unmarked.1

/-! ## The scan of a line, token by token -/

/-- Behind the tokens `front`, which end where the characters `before` do, the line is at its end,
or the scan of the line with number `line` has seen the code of these tokens. -/
structure Tracks (line : Nat) (front : List Token) (before ahead : List Char) : Prop where
  stops : ∀ u ∈ front,
    u.place.line ≤ (Place.behind before).line ∧ u.stop.line ≤ (Place.behind before).line
  scan : (ahead = [] ∨ ahead.head? = some '\n') ∨
    ((Place.behind before).line = line →
      (LineState.code 0).across (lastLine before) ahead =
        LineState.scanned (front.flatMap (·.codeOn line)))

section Tracking

variable {line : Nat} {front : List Token} {before ahead gap rest : List Char}

theorem tracks_start (line : Nat) (ahead : List Char) : Tracks line [] [] ahead :=
  ⟨fun _ hu => absurd hu List.not_mem_nil, .inr fun _ => LineState.across_nil _ _⟩

/-- Tokens that end before a line have no code there. -/
theorem Tracks.code_eq_nil (h : Tracks line front before ahead) {later : Nat}
    (hlater : (Place.behind before).line < later) :
    front.flatMap (·.codeOn later) = [] := by
  rw [List.flatMap_eq_nil_iff]
  intro u hu
  obtain ⟨hplace, hstop⟩ := h.stops u hu
  exact Token.codeOn_eq_nil (by omega) (by omega)

theorem Tracks.skip (h : Tracks line front before (gap ++ rest))
    (hwhite : ∀ c ∈ gap, Lexing.isWhite c = true) : Tracks line front (before ++ gap) rest := by
  have hlines := Place.line_behind_append before gap
  refine ⟨fun u hu => ?_, ?_⟩
  · obtain ⟨hplace, hstop⟩ := h.stops u hu
    omega
  by_cases hbreak : '\n' ∈ gap
  · -- The scan starts anew in the line of the token.
    refine .inr fun hline => ?_
    have hpos : 0 < gap.count '\n' := List.count_pos_iff.2 hbreak
    have hblank : ∀ c ∈ lastLine gap, Lexing.isWhite c = true := by
      intro c hc
      rw [lastLine, List.mem_reverse] at hc
      exact hwhite c (List.mem_reverse.1 ((List.takeWhile_prefix _).subset hc))
    rw [lastLine_append_of_mem hbreak, h.code_eq_nil (by omega),
      LineState.across_blanks hblank (newline_not_mem_lastLine gap)]
    rfl
  · have hcount : gap.count '\n' = 0 := List.count_eq_zero.2 hbreak
    rcases h.scan with hend | hscan
    · left
      cases gap with
      | nil => exact hend
      | cons d gap =>
        rcases hend with hnil | hhead
        · cases hnil
        · exact absurd (Option.some.inj hhead) fun heq => hbreak (by simp [heq])
    · refine .inr fun hline => ?_
      rw [lastLine_append_of_not_mem hbreak, LineState.across_append, hscan (by omega)]
      exact LineState.scanned_across_of_code (LineState.across_blanks hwhite hbreak rest) _

/-- No comment with a slash starts in characters at which no mark for one stands. -/
theorem unmarked_of_drop {w : List Char} (hline : '\n' ∉ w)
    (h : ∀ i < w.length, ∀ mark ∈ ["//", "/*"],
      ¬ mark.toList <+: (w ++ behind.takeWhile (· != '\n')).drop i) : Unmarked w behind := by
  induction w with
  | nil => trivial
  | cons c w ih =>
    obtain ⟨hc, hw⟩ := not_or.1 (mt List.mem_cons.2 hline)
    refine ⟨Ne.symm hc, ?_, ih hw fun i hi => h (i + 1) (Nat.succ_lt_succ hi)⟩
    have hhead : ∀ d, (w ++ behind).head? = some d → d ≠ '\n' →
        (w ++ behind.takeWhile (· != '\n')).head? = some d := by
      intro d hd hne
      cases w with
      | cons e w => exact hd
      | nil =>
        obtain ⟨rest, rfl⟩ := List.head?_eq_some_iff.1 hd
        simp [hne]
    rw [startsComment, Bool.and_eq_false_imp]
    intro hslash
    have hstart := h 0 (Nat.succ_pos _)
    rw [List.drop_zero, List.cons_append, beq_iff_eq.1 hslash] at hstart
    by_contra hmark
    simp only [Bool.not_eq_false, Bool.or_eq_true, beq_iff_eq] at hmark
    rcases hmark with hmark | hmark
    · obtain ⟨rest, hrest⟩ := List.head?_eq_some_iff.1 (hhead _ hmark (by decide))
      refine hstart "//" List.mem_cons_self ?_
      rw [hrest]
      exact ⟨rest, rfl⟩
    · obtain ⟨rest, hrest⟩ := List.head?_eq_some_iff.1 (hhead _ hmark (by decide))
      refine hstart "/*" (List.mem_cons_of_mem _ List.mem_cons_self) ?_
      rw [hrest]
      exact ⟨rest, rfl⟩

theorem newline_not_mem_of_unmarked {w rest : List Char} (h : Unmarked w rest) : '\n' ∉ w := by
  induction w with
  | nil => exact List.not_mem_nil
  | cons c w ih =>
    intro hmem
    rcases List.mem_cons.1 hmem with heq | hmem
    · exact h.1 heq.symm
    · exact ih h.2.2 hmem

/-- The scan across a token within its line. -/
theorem scan_token {code : List Char} (hshape : t.Shape behind)
    (hend : ¬ (behind = [] ∨ behind.head? = some '\n')) (hplace : t.place.line = line)
    (hquote : '"' ∉ t.codeOn line) :
    (LineState.scanned code).across t.spelling.toList behind =
      LineState.scanned (code ++ t.codeOn line) := by
  cases hshape with
  | endOfText _ behind_eq => exact absurd (.inl behind_eq) hend
  | lineComment _ _ line_ends => exact absurd line_ends hend
  | @blockComment rest kind_eq spelling_eq behind_eq =>
    rw [Token.codeOn_of_not_plain (by rw [kind_eq]; rfl) hplace, List.append_nil, spelling_eq,
      behind_eq]
    refine LineState.scanned_across_of_code (fun depth => ?_) code
    rw [behind_eq] at hend
    exact (LineState.across_block rest depth).resolve_right fun hnil => hend (.inl hnil)
  | @string rest kind_eq spelling_eq behind_eq =>
    rw [Token.codeOn_of_not_plain (by rw [kind_eq]; rfl) hplace, List.append_nil, spelling_eq,
      behind_eq]
    refine LineState.scanned_across_of_code (fun depth => ?_) code
    rw [behind_eq] at hend
    exact (LineState.across_string rest depth).resolve_right hend
  | plain kind_plain unmarked =>
    rw [Token.codeOn_plain kind_plain hplace] at hquote ⊢
    exact LineState.scanned_across unmarked hquote code

/-- Only a block comment has a line feed with more of the text behind it in the last line. -/
theorem kind_of_newline (hshape : t.Shape behind)
    (hend : ¬ (behind = [] ∨ behind.head? = some '\n')) (hbreak : '\n' ∈ t.spelling.toList) :
    t.kind = .blockComment := by
  cases hshape with
  | endOfText _ behind_eq => exact absurd (.inl behind_eq) hend
  | lineComment _ _ line_ends => exact absurd line_ends hend
  | blockComment kind_eq => exact kind_eq
  | @string rest _ spelling_eq =>
    rw [spelling_eq] at hbreak
    rcases List.mem_cons.1 hbreak with heq | hmem
    · cases heq
    · exact absurd hmem (newline_not_mem_string rest)
  | plain _ unmarked => exact absurd hbreak (newline_not_mem_of_unmarked unmarked)

theorem Tracks.token (h : Tracks line front read (t.spelling.toList ++ behind))
    (hopen : ∃ c w, t.spelling.toList = c :: w ∧ c ≠ '\n') (hplace : t.place = Place.behind read)
    (hshape : t.Shape behind) (hquote : '"' ∉ t.codeOn line)
    (hmark : t.kind = .blockComment → t.place.line < line → t.stop.line = line →
      Unmarked (lastLine t.spelling.toList) behind) :
    Tracks line (front ++ [t]) (read ++ t.spelling.toList) behind := by
  have hstop := Token.stop_eq hplace
  have hlines := Place.line_behind_append read t.spelling.toList
  refine ⟨List.forall_mem_append.2 ⟨fun u hu => ?_, List.forall_mem_singleton.2 ?_⟩, ?_⟩
  · obtain ⟨hu, hustop⟩ := h.stops u hu
    omega
  · rw [hplace, hstop]
    omega
  by_cases hend : behind = [] ∨ behind.head? = some '\n'
  · exact .inl hend
  refine .inr fun hline => ?_
  rw [List.flatMap_append, List.flatMap_singleton]
  by_cases hbreak : '\n' ∈ t.spelling.toList
  · -- The token ends in another line than it starts in, so its end is all that the scan has seen.
    have hkind := kind_of_newline hshape hend hbreak
    have hpos : 0 < t.spelling.toList.count '\n' := List.count_pos_iff.2 hbreak
    have hearlier : t.place.line < line := by
      rw [hplace]
      omega
    have hlast : t.stop.line = line := by rw [hstop, hline]
    have hcode : t.codeOn line = lastLine t.spelling.toList := by
      rw [Token.codeOn, if_pos hkind, if_pos ⟨hearlier, hlast⟩]
    rw [hcode] at hquote ⊢
    rw [h.code_eq_nil (by omega), List.nil_append, lastLine_append_of_mem hbreak]
    exact LineState.across_unmarked (hmark hkind hearlier hlast) hquote 0
  · have hcount : t.spelling.toList.count '\n' = 0 := List.count_eq_zero.2 hbreak
    have hread : (Place.behind read).line = line := by omega
    obtain ⟨c, w, hcw, hc⟩ := hopen
    have hscan := h.scan.resolve_left (by rw [hcw]; simpa using hc) hread
    rw [lastLine_append_of_not_mem hbreak, LineState.across_append, hscan]
    exact scan_token hshape hend (by rw [hplace, hread]) hquote

/-- The end of a comment from an earlier line, if there is no mark in its line up to there. -/
theorem unmarked_of_tail {text : String} {u : Token}
    (htext : text.toList = read ++ u.spelling.toList ++ behind)
    (hplace : u.place = Place.behind read) (hearlier : u.place.line < line)
    (hlast : u.stop.line = line)
    (h : ∀ i < u.stop.column - 1, ∀ mark ∈ ["//", "/*"],
      ¬ mark.toList <+: (((Text.lines text)[line - 1]?).getD "").toList.drop i) :
    Unmarked (lastLine u.spelling.toList) behind := by
  have hstop := Token.stop_eq hplace
  have hlines := Place.line_behind_append read u.spelling.toList
  have hbreak : '\n' ∈ u.spelling.toList := by
    rw [← List.count_pos_iff]
    rw [hstop] at hlast
    rw [hplace] at hearlier
    omega
  have htail := lastLine_append_of_mem hbreak read
  have hcolumn : u.stop.column - 1 = (lastLine u.spelling.toList).length := by
    rw [hstop, Place.behind_eq, htail]
    dsimp only
    omega
  have hindex : line - 1 = (read ++ u.spelling.toList).count '\n' := by
    rw [← hlast, hstop, Place.line_behind]
    omega
  rw [hcolumn, hindex, Text.lines_behind htext, Option.getD_some, String.toList_ofList, htail] at h
  exact unmarked_of_drop (newline_not_mem_lastLine _) h

/-- **The scan of a line sees its code.** At a token, the scan of what stands before it in its line
has seen the code of the tokens before it. -/
theorem Spelled.scan {text : String} (h : Spelled before ahead (mid ++ t :: back))
    (htext : text.toList = before ++ ahead) (htracks : Tracks t.place.line front before ahead)
    (hkinds : ∀ u ∈ mid ++ [t], u.kind ≠ .endOfText)
    (hquote : '"' ∉ mid.flatMap (·.codeOn t.place.line))
    (hmark : ¬ MarkInTail text mid t.place.line) :
    ∃ read rest, text.toList = read ++ rest ∧ t.place = Place.behind read ∧
      rest.head? ≠ some '\n' ∧
      (LineState.code 0).across (lastLine read) rest =
        LineState.scanned ((front ++ mid).flatMap (·.codeOn t.place.line)) := by
  induction mid generalizing front before ahead with
  | nil =>
    obtain ⟨gap, behind, hwhite, rfl, hplace, hspelling, hshape, -⟩ := h
    obtain ⟨c, w, hcw, hc⟩ := hshape.head? (hkinds t List.mem_cons_self) hspelling
    have hopen : ¬ (t.spelling.toList ++ behind = [] ∨
        (t.spelling.toList ++ behind).head? = some '\n') := by
      rw [hcw]
      simpa using hc
    refine ⟨before ++ gap, t.spelling.toList ++ behind, ?_, hplace, (not_or.1 hopen).2, ?_⟩
    · rw [htext, List.append_assoc]
    · rw [List.append_nil]
      exact (htracks.skip hwhite).scan.resolve_left hopen (by rw [hplace])
  | cons u mid ih =>
    obtain ⟨gap, behind, hwhite, rfl, hplace, hspelling, hshape, hrest⟩ := h
    obtain ⟨hu, hkinds⟩ := List.forall_mem_cons.1 hkinds
    obtain ⟨hquote, hquotes⟩ := not_or.1 (mt List.mem_append.2 hquote)
    have htext : text.toList = before ++ gap ++ u.spelling.toList ++ behind := by
      rw [htext]
      simp only [List.append_assoc]
    have htracks := (htracks.skip hwhite).token (hshape.head? hu hspelling) hplace hshape hquote
      fun hkind hearlier hlast => unmarked_of_tail htext hplace hearlier hlast
        fun i hi mark hm hat =>
          hmark ⟨u, List.mem_cons_self, hkind, hearlier, hlast, i, hi, mark, hm, hat⟩
    obtain ⟨read, rest, hread, hat, hhead, hacross⟩ := ih hrest htext htracks hkinds hquotes
      fun ⟨v, hv, hvmark⟩ => hmark ⟨v, List.mem_cons_of_mem u hv, hvmark⟩
    refine ⟨read, rest, hread, hat, hhead, ?_⟩
    rw [hacross, List.append_assoc, List.singleton_append]

end Tracking

/-! ## The names of a program -/

namespace Node

def name? : Node → Option (Token × String)
  | expr (.identifier t value) => some (t, value)
  | _ => none

/-- The names in a node, in the order of the walk. -/
def identifiers (n : Node) : List (Token × String) :=
  n.preorder.filterMap name?

theorem eq_of_name? {n : Node} {value : String} (h : n.name? = some (t, value)) :
    n = expr (.identifier t value) := by
  unfold name? at h
  split at h
  · cases h
    rfl
  · cases h

theorem mem_identifiers {n : Node} {value : String} :
    (t, value) ∈ n.identifiers ↔ expr (.identifier t value) ∈ n.preorder := by
  rw [identifiers, List.mem_filterMap]
  constructor
  · rintro ⟨m, hm, hname⟩
    rwa [← eq_of_name? hname]
  · exact fun h => ⟨_, h, rfl⟩

end Node

section Names

variable {ref : Option Reference} {lexLimit limit : Int} {text : String} {parsed : Parsed}

theorem Grammar.EndsOnce.kind_ne (h : EndsOnce (mid ++ t :: back)) :
    ∀ u ∈ mid, u.kind ≠ .endOfText := by
  intro u hu hkind
  obtain ⟨front, inner, rfl⟩ := List.append_of_mem hu
  rw [List.append_assoc, List.cons_append] at h
  have hrest := (h.suffix (List.suffix_append front _)).kind_eq_iff.1 hkind
  exact List.cons_ne_nil t back (List.append_eq_nil_iff.1 hrest).2

/-- The tokens before one of a text are those in places before it. -/
theorem takeWhile_before (h : (mid ++ t :: back).Pairwise Token.Follows)
    (hkinds : ∀ u ∈ mid, u.kind ≠ .endOfText) :
    (mid ++ t :: back).takeWhile (·.place.before t.place) = mid := by
  have hbefore : ∀ u ∈ mid, u.place.before t.place = true := fun u hu =>
    ((List.pairwise_append.1 h).2.2 u hu t List.mem_cons_self).1 (hkinds u hu)
  have hself : ¬ t.place.before t.place = true := by
    rw [Place.before_iff]
    omega
  rw [List.takeWhile_append_of_pos hbefore, List.takeWhile_cons, if_neg hself, List.append_nil]

/-- A token of a text that is not its end, and the scan of what stands before it in its line. -/
theorem parse_placeInComment (h : parse ref lexLimit limit text = .ok parsed)
    (ht : t ∈ parsed.tokens) (hkind : t.kind ≠ .endOfText)
    (hquote : '"' ∉ codeBefore parsed.tokens t)
    (hmark : ¬ MarkInTail text parsed.tokens t.place.line) :
    placeInComment (Text.lines text).toArray t.place = severs 0 (codeBefore parsed.tokens t) := by
  obtain ⟨mid, back, hsplit⟩ := List.append_of_mem ht
  have hspelled := tokenize_spelled ref lexLimit text
  have hends := tokenize_endsOnce ref lexLimit text
  obtain ⟨left, hlaid⟩ := tokenize_laid ref lexLimit text
  have hfollows := hlaid.pairwise
  rw [← parse_tokens h, hsplit] at hspelled hends hfollows
  have hkinds := hends.kind_ne
  have hcode : codeBefore parsed.tokens t = mid.flatMap (·.codeOn t.place.line) := by
    rw [codeBefore, hsplit, takeWhile_before hfollows hkinds]
  rw [hcode] at hquote ⊢
  obtain ⟨read, rest, htext, hplace, hhead, hscan⟩ :=
    hspelled.scan (List.nil_append _).symm (tracks_start _ _)
      (List.forall_mem_append.2 ⟨hkinds, List.forall_mem_singleton.2 hkind⟩) hquote
      fun ⟨u, hu, hutail⟩ => hmark ⟨u, hsplit ▸ List.mem_append_left _ hu, hutail⟩
  rw [hplace, placeInComment_behind htext hhead, hscan, ← hplace, List.nil_append]
  exact LineState.inside_scanned _

/-- **The names that are taken for parts of comments.** Let no quotation mark stand in the code
before a name, and no mark for a comment in the end of a comment from an earlier line. The name is
taken for a part of a comment exactly if a semicolon stands in the code before it where no
parenthesis of the line is open; otherwise it is a reference, unless it is a multi-label. -/
theorem parse_name_hidden_iff (h : parse ref lexLimit limit text = .ok parsed) {t : Token}
    {value : String}
    (ht : (t, value) ∈ (Node.program parsed.program).identifiers)
    (hquote : '"' ∉ codeBefore parsed.tokens t)
    (hmark : ¬ MarkInTail text parsed.tokens t.place.line) :
    (placeInComment (Text.lines text).toArray t.place = true ↔
      ∃ u, u ++ [';'] <+: codeBefore parsed.tokens t ∧ openParens 0 u = 0) ∧
    (isReference (Text.lines text).toArray (t, value) = true ↔
      value ≠ "" ∧ Text.startsWith value "!" = false ∧
        ∀ u, u ++ [';'] <+: codeBefore parsed.tokens t → 0 < openParens 0 u) := by
  obtain ⟨hmem, hname⟩ : t.NameIn parsed.stream := by
    cases parse_nodes h _ (Node.mem_identifiers.1 ht) with
    | identifier ht => exact ht
  have hhidden := parse_placeInComment h (List.mem_filter.1 hmem).1
    (Grammar.kind_ne_end_of_isName hname) hquote hmark
  refine ⟨by rw [hhidden, severs_iff], ?_⟩
  rw [isReference, hhidden, Bool.and_eq_true, Bool.and_eq_true, Bool.not_eq_true',
    Bool.not_eq_true', Bool.not_eq_true', and_assoc, severs_eq_false_iff]
  simp

end Names

/-! ## Texts with hidden names -/

open Grammar (plainToken)

/-- An address behind a comment from an earlier line. A mark for a comment stands in a string, one
semicolon in parentheses and another one behind them. -/
def addressText : String :=
  "/*\n*/ *=f(\"//\",';')+a+';'+b"

/-- In `addressText` the name behind the semicolon in parentheses is a reference, and the one behind
the other semicolon is hidden. -/
theorem parse_name_hidden_iff_address : ∃ parsed a b,
    parse none 128 128 addressText = .ok parsed ∧
    (a, "a") ∈ (Node.program parsed.program).identifiers ∧
    (b, "b") ∈ (Node.program parsed.program).identifiers ∧
    ¬ MarkInTail addressText parsed.tokens 2 ∧
    codeBefore parsed.tokens a = "*/*=f(,';')+".toList ∧
    codeBefore parsed.tokens b = "*/*=f(,';')+a+';'+".toList ∧
    isReference (Text.lines addressText).toArray (a, "a") = true ∧
    placeInComment (Text.lines addressText).toArray b.place = true := by
  obtain ⟨parsed, hparsed, ha, hb, hmark, hcode, hcode'⟩ : ∃ parsed,
      parse none 128 128 addressText = .ok parsed ∧
      (plainToken .identifier "a" 2 18, "a") ∈ (Node.program parsed.program).identifiers ∧
      (plainToken .identifier "b" 2 24, "b") ∈ (Node.program parsed.program).identifiers ∧
      ¬ MarkInTail addressText parsed.tokens 2 ∧
      codeBefore parsed.tokens (plainToken .identifier "a" 2 18) = "*/*=f(,';')+".toList ∧
      codeBefore parsed.tokens (plainToken .identifier "b" 2 24) = "*/*=f(,';')+a+';'+".toList :=
    exists_parsed_of_session 15 (by cbv) (by decide) (by decide +kernel)
  refine ⟨parsed, _, _, hparsed, ha, hb, hmark, hcode, hcode', ?_, ?_⟩
  · refine (parse_name_hidden_iff hparsed ha (by rw [hcode]; decide) hmark).2.2
      ⟨by decide, by decide +kernel, ?_⟩
    rw [← severs_eq_false_iff, hcode]
    decide
  · refine (parse_name_hidden_iff hparsed hb (by rw [hcode']; decide) hmark).1.2
      ⟨"*/*=f(,';')+a+'".toList, ?_, by decide⟩
    rw [hcode']
    decide

/-- A label whose only use stands behind the character `;`. -/
def dataText : String :=
  "foo:\n.byte ';', foo\n"

/-- A name behind the character `;` is hidden, although no comment is in the text, and the label
that it means is reported. -/
theorem parse_name_hidden : ∃ parsed t, parse none 128 128 dataText = .ok parsed ∧
    (∀ u ∈ parsed.tokens, u.kind.isComment = false) ∧
    (t, "foo") ∈ (Node.program parsed.program).identifiers ∧
    placeInComment (Text.lines dataText).toArray t.place = true ∧
    (checkUsage .standard parsed.program (Scope.ofProgram "" 3 parsed.program).1 dataText).2.map
      Diagnostic.message = ["Unused label 'foo'"] := by
  obtain ⟨parsed, hparsed, hfacts⟩ : ∃ parsed, parse none 128 128 dataText = .ok parsed ∧
      (∀ u ∈ parsed.tokens, u.kind.isComment = false) ∧
      (tokenIn .directive ".byte" 1 .identifier "foo" 2 12, "foo") ∈
        (Node.program parsed.program).identifiers ∧
      placeInComment (Text.lines dataText).toArray ⟨2, 12⟩ = true ∧
      (checkUsage .standard parsed.program (Scope.ofProgram "" 3 parsed.program).1 dataText).2.map
        Diagnostic.message = ["Unused label 'foo'"] :=
    exists_parsed_of_session 6 (by cbv) (by decide) (by decide +kernel)
  exact ⟨parsed, _, hparsed, hfacts⟩

end Asm6510
