import Asm6510.Proofs.Analysis.Depth
import Asm6510.Proofs.Highlight.Decoding
import Asm6510.Proofs.Token.LineComment
import Mathlib

/-!
# Another text in a comment

The text of a line comment may be replaced by any other text without a line feed. All that changes
is the token of the comment, and, for a comment that the text ends with, the column at which the
text ends: the token there, the blocks that it closes and the messages of the grammar that are
reported there move with it.

* `LineComment`: a line comment of a text with its parts (`exists_lineComment`), the text with
  another text in the comment, and how that moves the end of the text.
* `LineComment.tokenize_retold`, `LineComment.parse_retold`: the tokens and the parse.
* `Ending.draft_statements`, `Ending.references_statements`: definitions and references do not
  depend on where the text ends.

Main statement: `analyze_retold`. The end of the text does move: `analyze_comment_at_end`.
-/

namespace Asm6510

open Grammar

/-! ## Comments and their texts -/

/-- A line comment of a text: its token, the characters before it, its mark, its text, and the
characters behind it. -/
structure LineComment (ref : Option Reference) (limit : Int) (text : String) where
  token : Token
  front : List Char
  mark : List Char
  body : List Char
  back : List Char
  mem : token ∈ (tokenize ref limit text).1
  kind_eq : token.kind = .lineComment
  place_eq : token.place = Place.behind front
  literal_eq : token.literal = String.ofList (mark ++ body)
  text_eq : text.toList = front ++ (mark ++ (body ++ back))
  marked : CommentMark front mark

/-- A line comment among the tokens has these parts, whichever mark it starts with. -/
theorem exists_lineComment {ref : Option Reference} {limit : Int} {text : String} {t : Token}
    (ht : t ∈ (tokenize ref limit text).1) (hkind : t.kind = .lineComment) :
    ∃ front, t.StandsIn text.toList front ∧
      ∀ mark, mark <+: t.spelling.toList → CommentMark front mark →
        ∃ c : LineComment ref limit text, c.token = t ∧ c.front = front ∧ c.mark = mark := by
  obtain ⟨front, hstands, -⟩ := (tokenize_spelled ref limit text).standsIn t ht (by simp [hkind])
  rw [List.nil_append] at hstands
  refine ⟨front, hstands, fun mark hprefix hmark => ?_⟩
  obtain ⟨body, hspelling⟩ := hprefix
  obtain ⟨back, htext⟩ := hstands.text_eq
  rw [← hspelling, List.append_assoc] at htext
  -- the token of a comment has no other spelling than its literal
  have hliteral : t.literal = t.spelling := by
    obtain ⟨-, -, n, -, -, htoken, -⟩ := tokenize_comment htext hmark ht hkind hstands.place_eq
    rw [htoken]
    rfl
  refine ⟨⟨t, front, mark, body, back, ht, hkind, hstands.place_eq, ?_, htext, hmark⟩, rfl, rfl,
    rfl⟩
  rw [hliteral, hspelling, String.ofList_toList]

namespace LineComment

variable {ref : Option Reference} {limit : Int} {text : String} (c : LineComment ref limit text)
  {other : List Char}

def retold (other : List Char) : String :=
  String.ofList (c.front ++ (c.mark ++ (other ++ c.back)))

/-- The comment is read up to the end of its line, the same state is behind every text in it, and no
push was refused beyond its mark. -/
theorem run_eq :
    ∃ before parens n, Nesting.Orderly n ∧ n.Reached (Place.behind c.front) ∧
      c.token = Lexer.commentToken (c.mark ++ c.body) (Place.behind c.front) n.top ∧
      '\n' ∉ c.body ∧ (c.back = [] ∨ c.back.head? = some '\n') ∧
      ∀ other, '\n' ∉ other →
        let behind : Lexer := ⟨c.back, Place.behind (c.front ++ (c.mark ++ other)), parens, n⟩
        tokenize ref limit (c.retold other) =
          (before ++ Lexer.commentToken (c.mark ++ other) (Place.behind c.front) n.top ::
            (behind.run ref).1, (behind.run ref).2) := by
  obtain ⟨before, parens, n, hn, hupto, htoken, hrun⟩ :=
    tokenize_comment c.text_eq c.marked c.mem c.kind_eq c.place_eq
  have hline : (c.body ++ c.back).takeWhile (· != '\n') = c.body := by
    have hliteral : c.token.literal = String.ofList _ := congrArg Token.literal htoken
    rw [c.literal_eq] at hliteral
    have hlist := congrArg String.toList hliteral
    rw [String.toList_ofList, String.toList_ofList] at hlist
    exact (List.append_cancel_left hlist).symm
  obtain ⟨hbody, hback⟩ := line_of_takeWhile hline
  rw [hline] at htoken
  refine ⟨before, parens, n, hn, hupto, htoken, hbody, hback, fun other hother => ?_⟩
  obtain ⟨htake, hdrop⟩ := takeWhile_line hother hback
  have hread := hrun (other ++ c.back)
  simp only [htake, hdrop] at hread
  exact hread

theorem retold_body : c.retold c.body = text := by
  rw [retold, ← c.text_eq, String.ofList_toList]

theorem line_mark : '\n' ∉ c.mark := by
  rcases c.marked with h | ⟨h, -⟩ <;> rw [h] <;> decide

/-- How another text in the comment moves the end of the text. -/
def ending (other : List Char) (h : '\n' ∉ other) : Ending where
  old := Place.behind text.toList
  new := Place.behind (c.retold other).toList
  line_eq := by
    obtain ⟨-, -, -, -, -, -, hbody, -⟩ := c.run_eq
    simp only [Place.behind, retold, String.toList_ofList, c.text_eq, List.count_append,
      List.count_eq_zero.2 h, List.count_eq_zero.2 hbody]

/-- The end stays where it is if a line feed follows the comment, or the texts are of one length. -/
theorem ending_stays {h : '\n' ∉ other}
    (hstays : c.back ≠ [] ∨ other.length = c.body.length) :
    (c.ending other h).new = (c.ending other h).old := by
  obtain ⟨-, -, -, -, -, -, hbody, hback, -⟩ := c.run_eq
  have hlast : ∀ w : List Char, '\n' ∉ w →
      lastLine (c.front ++ (c.mark ++ w)) = lastLine c.front ++ (c.mark ++ w) := by
    intro w hw
    refine lastLine_append_of_not_mem ?_ c.front
    rw [List.mem_append, not_or]
    exact ⟨c.line_mark, hw⟩
  have hcolumn : (lastLine (c.retold other).toList).length = (lastLine text.toList).length := by
    rw [c.text_eq, retold, String.toList_ofList]
    rcases hback with hnil | hhead
    · have hlength := hstays.resolve_left fun hne => hne hnil
      rw [hnil, List.append_nil, List.append_nil, hlast other h, hlast c.body hbody]
      simp only [List.length_append, hlength]
    · have hmem : '\n' ∈ c.back := List.mem_of_head? hhead
      have hbehind : ∀ w, lastLine (c.front ++ (c.mark ++ (w ++ c.back))) = lastLine c.back := by
        intro w
        rw [← List.append_assoc, ← List.append_assoc]
        exact lastLine_append_of_mem hmem _
      rw [hbehind, hbehind]
  have hline : (Place.behind (c.retold other).toList).line = (Place.behind text.toList).line :=
    (c.ending other h).line_eq
  show Place.behind (c.retold other).toList = Place.behind text.toList
  rw [Place.behind_eq, Place.behind_eq] at hline ⊢
  rw [hcolumn]
  exact congrArg (Place.mk · _) hline

theorem place_of_upTo {h : '\n' ∉ other} {p : Place} (hp : p.UpTo (Place.behind c.front)) :
    (c.ending other h).place p = p := by
  have hne : c.mark ++ (c.body ++ c.back) ≠ [] := by
    rcases c.marked with hmark | ⟨hmark, -⟩ <;> simp [hmark]
  have hend : (Place.behind c.front).before (c.ending other h).old = true := by
    show (Place.behind c.front).before (Place.behind text.toList) = true
    rw [c.text_eq, Place.behind_append]
    exact Place.before_after _ hne
  rw [Ending.place, if_neg]
  intro heq
  rw [← heq] at hend
  rcases hp with rfl | hp
  · rw [Place.before_iff] at hend
    omega
  · rw [Place.before_iff] at hend hp
    omega

def retoldToken (other : List Char) : Token :=
  { c.token with literal := String.ofList (c.mark ++ other) }

/-- **The tokens with another text in the comment**: that of the comment has the text, the end of
the text is moved, and all others stay. -/
theorem tokenize_retold (h : '\n' ∉ other) :
    ∃ before after,
      (tokenize ref limit text).1 = before ++ c.token :: after ∧
      (tokenize ref limit (c.retold other)).1 =
        before ++ c.retoldToken other :: after.map (c.ending other h).token ∧
      (tokenize ref limit (c.retold other)).2.nesting.overflow =
        (tokenize ref limit text).2.nesting.overflow.map (c.ending other h).place := by
  obtain ⟨before, parens, n, hn, hupto, htoken, hbody, hback, hrun⟩ := c.run_eq
  have htext := hrun c.body hbody
  rw [c.retold_body, ← htoken] at htext
  have hother := hrun other h
  have hretold : c.retoldToken other =
      Lexer.commentToken (c.mark ++ other) (Place.behind c.front) n.top := by
    rw [retoldToken, htoken]
    rfl
  rw [htext, hother, hretold]
  refine ⟨before, _, rfl, ?_⟩
  rcases hback with hnil | hhead
  · -- nothing but the end of the text is behind the comment
    have hends : ∀ w : List Char, c.front ++ (c.mark ++ (w ++ c.back)) =
        c.front ++ (c.mark ++ w) := fun w => by rw [hnil, List.append_nil]
    have hold : (c.ending other h).old = Place.behind (c.front ++ (c.mark ++ c.body)) := by
      rw [← hends, ← c.text_eq]
      rfl
    have hnew : (c.ending other h).new = Place.behind (c.front ++ (c.mark ++ other)) := by
      rw [← hends, ← String.toList_ofList (l := c.front ++ (c.mark ++ (other ++ c.back)))]
      rfl
    rw [hnil, Lexer.run_nil, Lexer.run_nil, ← hold, ← hnew]
    refine ⟨by simp [Ending.token, Ending.place], ?_⟩
    show n.overflow = n.overflow.map _
    cases hoverflow : n.overflow with
    | none => rfl
    | some p => rw [Option.map_some, c.place_of_upTo (hupto p hoverflow)]
  · -- the line feed behind the comment undoes the other column
    obtain ⟨rest, hrest⟩ := List.head?_eq_some_iff.1 hhead
    have hstays : (c.ending other h).new = (c.ending other h).old :=
      c.ending_stays (.inl (by rw [hrest]; exact List.cons_ne_nil _ _))
    have hline : (Place.behind (c.front ++ (c.mark ++ other))).line =
        (Place.behind (c.front ++ (c.mark ++ c.body))).line := by
      simp only [Place.behind, List.count_append, List.count_eq_zero.2 h,
        List.count_eq_zero.2 hbody]
    have hsame : Lexer.run ref ⟨c.back, Place.behind (c.front ++ (c.mark ++ other)), parens, n⟩ =
        Lexer.run ref ⟨c.back, Place.behind (c.front ++ (c.mark ++ c.body)), parens, n⟩ := by
      rw [hrest]
      exact Lexer.run_congr_of_next? hn (Lexer.next?_line_feed hline rest parens n)
    rw [hsame, funext (Ending.token_of_eq _ hstays), funext (Ending.place_of_eq _ hstays)]
    exact ⟨by rw [List.map_id'], by rw [Option.map_id']⟩

/-- A token with another text in the comment. -/
def retell (other : List Char) (h : '\n' ∉ other) (t : Token) : Token :=
  if t = c.token then c.retoldToken other else (c.ending other h).token t

/-- The tokens around the comment are others than it, and those before it are not moved. -/
theorem tokens_around {before after : List Token}
    (hsplit : (tokenize ref limit text).1 = before ++ c.token :: after) :
    (∀ t ∈ before, t ≠ c.token ∧ t.kind ≠ .endOfText) ∧ ∀ t ∈ after, t ≠ c.token := by
  obtain ⟨left, hlaid⟩ := tokenize_laid ref limit text
  have hends := tokenize_endsOnce ref limit text
  have hfollows := hlaid.pairwise
  rw [hsplit] at hends hfollows
  obtain ⟨-, hafter, hbefore⟩ := List.pairwise_append.1 hfollows
  have hself : ¬ c.token.place.before c.token.place = true := by
    rw [Place.before_iff]
    omega
  have hkind : c.token.kind ≠ .endOfText := by
    rw [c.kind_eq]
    decide
  refine ⟨fun t ht => ⟨?_, hends.kind_ne t ht⟩, fun t ht => ?_⟩
  · rintro rfl
    exact hself ((hbefore _ ht _ List.mem_cons_self).1 hkind)
  · rintro rfl
    exact hself ((List.rel_of_pairwise_cons hafter ht).1 hkind)

theorem tokens_retold (h : '\n' ∉ other) :
    (tokenize ref limit (c.retold other)).1 =
      (tokenize ref limit text).1.map (c.retell other h) := by
  obtain ⟨before, after, hsplit, hretold, -⟩ := c.tokenize_retold h
  obtain ⟨hbefore, hafter⟩ := c.tokens_around hsplit
  rw [hsplit, hretold, List.map_append, List.map_cons]
  have hfront : before.map (c.retell other h) = before := by
    have hkept : ∀ t ∈ before, c.retell other h t = id t := by
      intro t ht
      rw [retell, if_neg (hbefore t ht).1, Ending.token_of_ne _ (hbefore t ht).2, id]
    rw [List.map_congr_left hkept, List.map_id]
  have hback : after.map (c.retell other h) = after.map (c.ending other h).token :=
    List.map_congr_left fun t ht => if_neg (hafter t ht)
  rw [hfront, hback, retell, if_pos rfl]

/-- Without the comments, only the end of the text is moved. -/
theorem stream_retold (h : '\n' ∉ other) :
    ((tokenize ref limit (c.retold other)).1.filter fun t => !t.kind.isComment) =
      ((tokenize ref limit text).1.filter fun t => !t.kind.isComment).map
        (c.ending other h).token := by
  have hkind : ∀ t, (c.retell other h t).kind = t.kind := by
    intro t
    unfold retell
    split
    · rename_i ht
      rw [ht]
      rfl
    · rfl
  rw [c.tokens_retold h, List.filter_map]
  simp only [Function.comp_def, hkind]
  refine List.map_congr_left fun t ht => if_neg ?_
  rintro rfl
  have hcomment := (List.mem_filter.1 ht).2
  rw [c.kind_eq] at hcomment
  cases hcomment

/-- Nothing but the end of a text stands at its place. -/
theorem apart_of_mem {h : '\n' ∉ other} {t : Token} (ht : t ∈ (tokenize ref limit text).1) :
    (c.ending other h).Apart t := by
  by_cases hkind : t.kind = .endOfText
  · simp only [Ending.Apart, Ending.token, if_pos hkind]
  · obtain ⟨read, ⟨⟨behind, htext⟩, hplace, ch, w, hhead, -⟩, -⟩ :=
      (tokenize_spelled ref limit text).standsIn t ht hkind
    have hbefore : t.place.before (c.ending other h).old = true := by
      show t.place.before (Place.behind text.toList) = true
      rw [List.nil_append] at htext
      rw [htext, hplace, Place.behind_append, hhead]
      exact Place.before_after _ (List.cons_ne_nil _ _)
    rw [Ending.Apart, Ending.token_of_ne _ hkind, Ending.place, if_neg]
    intro heq
    rw [heq, Place.before_iff] at hbefore
    omega

def retoldParse (other : List Char) (h : '\n' ∉ other) (parsed : Parsed) : Parsed :=
  ⟨parsed.tokens.map (c.retell other h), (c.ending other h).program parsed.program,
    parsed.diagnostics.map (c.ending other h).diagnostic⟩

theorem parse_retold (h : '\n' ∉ other) (depth : Int) :
    parse ref limit depth (c.retold other) =
      (parse ref limit depth text).map (c.retoldParse other h) := by
  obtain ⟨before, after, -, -, hoverflow⟩ := c.tokenize_retold h
  obtain ⟨first, rest, hstream⟩ := exists_stream ref limit text
  have hretold := c.stream_retold h
  rw [hstream, List.map_cons] at hretold
  have hapart : ∀ t ∈ first :: rest, (c.ending other h).Apart t := by
    intro t ht
    rw [← hstream] at ht
    exact c.apart_of_mem (List.mem_filter.1 ht).1
  let rules : Rules := ⟨depthBound depth, ref⟩
  let w : Pairing := ⟨⟨first :: rest, (tokenize ref limit text).2.nesting.overflow⟩,
    c.ending other h, false, true, hapart⟩
  have hsame : parseRun rules (tokenize ref limit (c.retold other)).2.nesting.overflow
      ((c.ending other h).token first) (rest.map (c.ending other h).token) =
      ((c.ending other h).statements
        (parseRun rules (tokenize ref limit text).2.nesting.overflow first rest).1,
      (c.ending other h).state
        (parseRun rules (tokenize ref limit text).2.nesting.overflow first rest).2) := by
    rw [hoverflow]
    obtain ⟨hresult, hlinked⟩ := (abreast_program (w := w) layers_from (suits_self _ rules)
      (State.start first rest) _ List.suffix_rfl (linked_state _)).agree.resolve_left
      fun hlost => nomatch hlost.1
    exact Prod.ext hresult (hlinked.whole rfl)
  rw [parse_of_stream hstream, parse_of_stream hretold, hsame, c.tokens_retold h]
  show (if (parseRun rules _ first rest).2.unbounded = true then _ else _) = _
  split
  · rfl
  · rfl

end LineComment

/-! ## Definitions and references -/

namespace Ending

variable (e : Ending)

/-- An open block ends where it starts, wherever the text ends. -/
theorem childScope_token (uri : String) (name closing : Token) :
    Draft.childScope uri name (e.token closing) = Draft.childScope uri name closing := by
  by_cases hend : closing.kind = .endOfText
  · unfold Draft.childScope
    dsimp only
    rw [if_pos ((e.token_kind closing).trans hend), if_pos hend]
  · rw [e.token_of_ne hend]

mutual

theorem draft_statement : (s : Statement) → ∀ d : Draft, d.statement (e.statement s) = d.statement s
  | .label _ => by
    intro d
    rw [statement]
  | .instruction _ _ => by
    intro d
    rw [statement]
  | .directive _ => by
    intro d
    rw [statement]
  | .expression _ _ => by
    intro d
    rw [statement]
  | .block _ body _ => by
    intro d
    rw [statement, Draft.statement, Draft.statement, draft_statements body]
  | .directiveBlock dir _ body closing => by
    intro d
    rw [statement, Draft.statement, Draft.statement]
    simp only [Draft.openChild, e.childScope_token, draft_statements body]

/-- The definitions of statements do not depend on where the text ends. -/
theorem draft_statements : (body : List Statement) →
    ∀ d : Draft, d.statements (e.statements body) = d.statements body
  | [] => by
    intro d
    rw [statements]
  | s :: rest => by
    intro d
    rw [statements, Draft.statements, Draft.statements, draft_statement s, draft_statements rest]

end

mutual

theorem illegal_statement : (s : Statement) → statementIllegal (e.statement s) = statementIllegal s
  | .label _ => by rw [statement]
  | .instruction _ _ => by rw [statement]
  | .directive _ => by rw [statement]
  | .expression _ _ => by rw [statement]
  | .block _ body _ => by
    rw [statement, statementIllegal, statementIllegal, illegal_statements body]
  | .directiveBlock _ _ body _ => by
    rw [statement, statementIllegal, statementIllegal, illegal_statements body]

/-- Nor do the undocumented instructions. -/
theorem illegal_statements : (body : List Statement) →
    statementsIllegal (e.statements body) = statementsIllegal body
  | [] => by rw [statements]
  | s :: rest => by
    rw [statements, statementsIllegal, statementsIllegal, illegal_statement s,
      illegal_statements rest]

end

end Ending

section Names

variable {tokens : List Token}

mutual

theorem Expr.names_nameIn : (e : Expr) → e.From tokens → ∀ x ∈ e.names, x.1.NameIn tokens
  | .missing | .integer _ _ | .string _ _ | .programCounter _ => by
    intro _ x hx
    rw [names] at hx
    cases hx
  | .identifier t value => by
    intro h x hx
    rw [names] at hx
    rw [List.mem_singleton.1 hx]
    cases h with
    | identifier ht => exact ht
  | .unary _ e => by
    intro h x hx
    rw [names] at hx
    cases h with
    | unary _ he => exact names_nameIn e he x hx
  | .indexed _ e _ => by
    intro h x hx
    rw [names] at hx
    cases h with
    | indexed _ he _ => exact names_nameIn e he x hx
  | .group _ e => by
    intro h x hx
    rw [names] at hx
    cases h with
    | group _ he => exact names_nameIn e he x hx
  | .binary op l r => by
    intro h x hx
    rw [names] at hx
    cases h with
    | binary _ hl hr =>
      have hboth : x ∈ l.names ++ r.names := by
        split at hx
        · exact List.mem_append_left _ hx
        · exact hx
      rcases List.mem_append.1 hboth with hx | hx
      · exact names_nameIn l hl x hx
      · exact names_nameIn r hr x hx
  | .call _ f args => by
    intro h x hx
    rw [names] at hx
    cases h with
    | call _ hf hargs =>
      rcases List.mem_append.1 hx with hx | hx
      · exact names_nameIn f hf x hx
      · exact allNames_nameIn args hargs x hx
  | .array _ es => by
    intro h x hx
    rw [names] at hx
    cases h with
    | array _ hes => exact allNames_nameIn es hes x hx

theorem Expr.allNames_nameIn : (es : List Expr) → (∀ e ∈ es, e.From tokens) →
    ∀ x ∈ allNames es, x.1.NameIn tokens
  | [] => by
    intro _ x hx
    rw [allNames] at hx
    cases hx
  | e :: es => by
    intro h x hx
    rw [allNames] at hx
    obtain ⟨he, hes⟩ := List.forall_mem_cons.1 h
    rcases List.mem_append.1 hx with hx | hx
    · exact names_nameIn e he x hx
    · exact allNames_nameIn es hes x hx

end

/-- The lines of two texts have the same names in comments. -/
def HideSame (tokens : List Token) (lines lines' : Array String) : Prop :=
  ∀ t : Token, t.NameIn tokens → placeInComment lines' t.place = placeInComment lines t.place

variable {lines lines' : Array String}

theorem Cursor.references_congr (c : Cursor) (hlines : HideSame tokens lines lines') {e : Expr}
    (h : e.From tokens) :
    c.references lines' e = c.references lines e := by
  have hnames : e.names.filter (isReference lines') = e.names.filter (isReference lines) := by
    refine List.filter_congr fun x hx => ?_
    rw [isReference, isReference, hlines x.1 (Expr.names_nameIn e h x hx)]
  rw [references, references, hnames]

mutual

theorem Ending.references_statement (e : Ending) (hlines : HideSame tokens lines lines') :
    (s : Statement) → s.AllFrom tokens → ∀ c : Cursor,
    statementReferences lines' c (e.statement s) = statementReferences lines c s
  | .label _ => by
    intro _ c
    rw [statement, statementReferences, statementReferences]
  | .instruction _ operand => by
    intro h c
    rw [statement, statementReferences, statementReferences]
    exact c.references_congr hlines h.self.2
  | .expression _ value => by
    intro h c
    rw [statement, statementReferences, statementReferences]
    exact c.references_congr hlines h.self.2
  | .directive d => by
    intro h c
    rw [statement, statementReferences, statementReferences]
    exact c.references_congr hlines (Statement.AllFrom.self h).value
  | .block _ body _ => by
    intro h c
    rw [statement, statementReferences, statementReferences]
    rw [Statement.AllFrom, Statement.preorder, List.forall_mem_cons] at h
    exact references_statements e hlines body h.2 c
  | .directiveBlock d _ body _ => by
    intro h c
    rw [statement, statementReferences, statementReferences]
    rw [Statement.AllFrom, Statement.preorder, List.forall_mem_cons] at h
    rw [c.references_congr hlines h.1.1.value, references_statements e hlines body h.2 (c.body d)]

/-- The references of statements do not depend on where the text ends. -/
theorem Ending.references_statements (e : Ending) (hlines : HideSame tokens lines lines') :
    (body : List Statement) → (∀ u ∈ Statement.preorders body, u.From tokens) → ∀ c : Cursor,
    statementsReferences lines' c (e.statements body) = statementsReferences lines c body
  | [] => by
    intro _ c
    rw [statements, statementsReferences, statementsReferences]
  | s :: rest => by
    intro h c
    rw [Statement.preorders, List.forall_mem_append] at h
    rw [statements, statementsReferences, statementsReferences,
      references_statement e hlines s h.1 c, references_statements e hlines rest h.2 c]

end

end Names

namespace LineComment

variable {ref : Option Reference} {limit : Int} {text : String} (c : LineComment ref limit text)
  {other : List Char}

theorem spelling_eq : c.token.spelling.toList = c.mark ++ c.body := by
  obtain ⟨-, -, n, -, -, htoken, -⟩ := c.run_eq
  rw [htoken]
  exact String.toList_ofList

theorem front_eq {read : List Char} (h : c.token.StandsIn text.toList read) : read = c.front := by
  obtain ⟨⟨behind, htext⟩, hplace, -⟩ := h
  refine Place.after_inj (p := Place.start) ⟨_, htext.symm⟩ ⟨_, c.text_eq.symm⟩ ?_
  rw [Place.start_after, Place.start_after, ← hplace, c.place_eq]

/-- The scan of a line up to a token before the comment does not come to the text of the comment. -/
theorem placeInComment_before {t : Token} {read : List Char}
    (ht : t.StandsIn text.toList read) (hread : read ++ t.spelling.toList <+: c.front) :
    placeInComment (Text.lines (c.retold other)).toArray t.place =
      placeInComment (Text.lines text).toArray t.place := by
  obtain ⟨more, hfront⟩ := hread
  obtain ⟨-, hplace, ch, w, hhead, hne⟩ := ht
  have htext : ∀ body, c.front ++ (c.mark ++ (body ++ c.back)) =
      read ++ (ch :: (w ++ more ++ (c.mark ++ (body ++ c.back)))) := by
    intro body
    rw [← hfront, hhead]
    simp
  have hline : (some ch : Option Char) ≠ some '\n' := fun heq => hne (Option.some.inj heq)
  have hold := placeInComment_behind (c.text_eq.trans (htext c.body)) hline
  have hnew := placeInComment_behind (String.toList_ofList.trans (htext other)) hline
  rw [hplace, hold]
  refine hnew.trans (congrArg LineState.inside ?_)
  exact LineState.across_congr _ _ rfl

/-- What stands behind the comment stands in a later line. -/
theorem placeInComment_after (h : '\n' ∉ other) {t : Token} {read : List Char}
    (ht : t.StandsIn text.toList read) (hread : c.front ++ (c.mark ++ c.body) <+: read) :
    placeInComment (Text.lines (c.retold other)).toArray t.place =
      placeInComment (Text.lines text).toArray t.place := by
  obtain ⟨-, -, -, -, -, -, hbody, hback, -⟩ := c.run_eq
  obtain ⟨more, rfl⟩ := hread
  obtain ⟨⟨behind, htext⟩, hplace, ch, w, hhead, hne⟩ := ht
  have hrest : c.back = more ++ (ch :: (w ++ behind)) := by
    rw [c.text_eq, hhead] at htext
    simpa only [List.append_assoc, List.append_cancel_left_eq, List.cons_append] using htext
  have hmore : '\n' ∈ more := by
    rcases hback with hnil | hfeed
    · rw [hnil] at hrest
      simp at hrest
    · cases more with
      | nil =>
        rw [hrest] at hfeed
        exact absurd (Option.some.inj hfeed) hne
      | cons d more =>
        rw [hrest] at hfeed
        rw [Option.some.inj hfeed]
        exact List.mem_cons_self
  have hplaces : Place.behind (c.front ++ (c.mark ++ other) ++ more) =
      Place.behind (c.front ++ (c.mark ++ c.body) ++ more) := by
    rw [Place.behind_eq, Place.behind_eq, lastLine_append_of_mem hmore,
      lastLine_append_of_mem hmore]
    simp only [List.count_append, List.count_eq_zero.2 h, List.count_eq_zero.2 hbody]
  have hline : (ch :: (w ++ behind)).head? ≠ some '\n' := fun heq => hne (Option.some.inj heq)
  have hparts : ∀ body, c.front ++ (c.mark ++ (body ++ c.back)) =
      c.front ++ (c.mark ++ body) ++ more ++ (ch :: (w ++ behind)) := by
    intro body
    rw [hrest]
    simp
  have hold := placeInComment_behind (c.text_eq.trans (hparts c.body)) hline
  have hnew := placeInComment_behind (String.toList_ofList.trans (hparts other)) hline
  rw [lastLine_append_of_mem hmore] at hold hnew
  rw [hplace, hold, ← hplaces]
  exact hnew

/-- **The names in comments are the same ones.** -/
theorem hideSame (h : '\n' ∉ other) :
    HideSame ((tokenize ref limit text).1.filter fun t => !t.kind.isComment)
      (Text.lines text).toArray (Text.lines (c.retold other)).toArray := by
  intro t ht
  obtain ⟨hmem, hname⟩ := ht
  obtain ⟨hmem, hcomment⟩ := List.mem_filter.1 hmem
  have hkind : t.kind ≠ .endOfText := Grammar.kind_ne_end_of_isName hname
  have hckind : c.token.kind ≠ .endOfText := by
    rw [c.kind_eq]
    decide
  obtain ⟨before, after, hsplit, -⟩ := c.tokenize_retold h
  have hstand := (tokenize_spelled ref limit text).pairwise_standsIn
  rw [hsplit, List.nil_append, List.pairwise_append] at hstand
  obtain ⟨-, hafter, hbefore⟩ := hstand
  rw [hsplit] at hmem
  rcases List.mem_append.1 hmem with hmem | hmem
  · obtain ⟨read, later, hread, hlater, hprefix⟩ :=
      hbefore t hmem c.token List.mem_cons_self hkind hckind
    rw [c.front_eq hlater] at hprefix
    exact c.placeInComment_before hread hprefix
  · rcases List.mem_cons.1 hmem with rfl | hmem
    · rw [c.kind_eq] at hname
      cases hname
    · obtain ⟨read, later, hread, hlater, hprefix⟩ :=
        List.rel_of_pairwise_cons hafter hmem hckind hkind
      rw [c.front_eq hread, c.spelling_eq] at hprefix
      exact c.placeInComment_after h hlater hprefix

/-! ## The analysis -/

theorem lineCount_retold (h : '\n' ∉ other) : lineCount (c.retold other) = lineCount text := by
  have hline : 1 + (c.retold other).toList.count '\n' = 1 + text.toList.count '\n' :=
    (c.ending other h).line_eq
  unfold lineCount
  omega

def retoldAnalysis (other : List Char) (h : '\n' ∉ other) (a : Analysis) : Analysis :=
  { a with
    program := a.program.map (c.ending other h).program
    tokens := a.tokens.map (c.retell other h)
    diagnostics := a.diagnostics.map (c.ending other h).diagnostic }

end LineComment

theorem Ending.ofProgram_program (e : Ending) (uri : String) (lines : Int) (p : Program) :
    Scope.ofProgram uri lines (e.program p) = Scope.ofProgram uri lines p := by
  unfold Scope.ofProgram
  rw [show (e.program p).statements = e.statements p.statements from rfl, e.draft_statements]

theorem Ending.map_diagnostic (e : Ending) {ds : List Diagnostic}
    (h : ∀ d ∈ ds, d.source ≠ Stage.grammar.label) : ds.map e.diagnostic = ds := by
  have hkept : ∀ d ∈ ds, e.diagnostic d = id d := fun d hd => if_neg fun hsource => h d hd hsource.1
  rw [List.map_congr_left hkept, List.map_id]

namespace LineComment

variable {ref : Option Reference} {limit : Int} {text : String} (c : LineComment ref limit text)
  {other : List Char}

theorem analysis_retold (h : '\n' ∉ other) {depth : Int} {parsed : Parsed}
    (hparsed : parse ref limit depth text = .ok parsed) (settings : Settings) (uri : String) :
    (c.retoldParse other h parsed).analysis settings uri (c.retold other) =
      c.retoldAnalysis other h (parsed.analysis settings uri text) := by
  have hfrom : ∀ u ∈ Statement.preorders parsed.program.statements,
      u.From ((tokenize ref limit text).1.filter fun t => !t.kind.isComment) := by
    rw [← parse_tokens hparsed]
    exact Statement.AllFrom.preorders (parse_from hparsed)
  have hscope : Scope.ofProgram uri (lineCount (c.retold other))
      ((c.ending other h).program parsed.program) =
      Scope.ofProgram uri (lineCount text) parsed.program := by
    rw [c.lineCount_retold h, Ending.ofProgram_program]
  have husage : ∀ scope : Scope, checkUsage settings ((c.ending other h).program parsed.program)
      scope (c.retold other) = checkUsage settings parsed.program scope text := by
    intro scope
    have hrefs : references ((c.ending other h).program parsed.program) scope (c.retold other) =
        references parsed.program scope text :=
      (c.ending other h).references_statements (c.hideSame h) _ hfrom _
    have hillegal : statementsIllegal ((c.ending other h).program parsed.program).statements =
        statementsIllegal parsed.program.statements := Ending.illegal_statements _ _
    unfold checkUsage
    rw [hrefs, hillegal]
  have hduplicates : ∀ d ∈ (Scope.ofProgram uri (lineCount text) parsed.program).2,
      d.source ≠ Stage.grammar.label := by
    intro d hd
    obtain ⟨s, -, rfl⟩ := Scope.reports_ofProgram hd
    show Stage.definitions.label ≠ Stage.grammar.label
    decide
  have hwarnings : ∀ d ∈ (checkUsage settings parsed.program
      (Scope.ofProgram uri (lineCount text) parsed.program).1 text).2,
      d.source ≠ Stage.grammar.label := by
    intro d hd
    rw [(checkUsage_warns d hd).2]
    decide
  unfold Parsed.analysis retoldParse retoldAnalysis
  dsimp only
  rw [hscope, husage, List.map_append, List.map_append, Ending.map_diagnostic _ hduplicates,
    Ending.map_diagnostic _ hwarnings]
  rfl

/-- Where the end of the text stays, only the token of the comment changes. -/
theorem retoldAnalysis_of_stays {h : '\n' ∉ other}
    (hstays : c.back ≠ [] ∨ other.length = c.body.length) (a : Analysis) :
    c.retoldAnalysis other h a =
      { a with
        tokens := a.tokens.map fun t => if t = c.token then c.retoldToken other else t } := by
  have heq := c.ending_stays hstays (h := h)
  have hprogram : ∀ p : Program, (c.ending other h).program p = id p := by
    rintro ⟨start, statements⟩
    rw [Ending.program, Ending.token_of_eq _ heq, Ending.statements_of_eq _ heq, id]
  have htoken : c.retell other h = fun t => if t = c.token then c.retoldToken other else t := by
    funext t
    rw [retell, Ending.token_of_eq _ heq]
  unfold retoldAnalysis
  rw [htoken, funext hprogram, funext (Ending.diagnostic_of_eq _ heq), List.map_id', Option.map_id]
  rfl

end LineComment

/-- **The text of a line comment has no influence on the analysis.** With another text in the
comment, the analysis differs in the token of the comment and in where the text ends. If a line feed
follows the comment, or the texts are of one length, it differs in the token only. -/
theorem analyze_retold (ref : Option Reference) (settings : Settings) (uri text : String)
    (c : LineComment ref settings.maxDepth text) {other : List Char} (h : '\n' ∉ other) :
    analyze ref settings uri (c.retold other) =
        (analyze ref settings uri text).map (c.retoldAnalysis other h) ∧
      (c.back ≠ [] ∨ other.length = c.body.length →
        analyze ref settings uri (c.retold other) =
          (analyze ref settings uri text).map fun a =>
            { a with
              tokens := a.tokens.map fun t =>
                if t = c.token then c.retoldToken other else t }) := by
  have hmoved : analyze ref settings uri (c.retold other) =
      (analyze ref settings uri text).map (c.retoldAnalysis other h) := by
    have hparse := c.parse_retold h settings.maxDepth
    cases ref with
    | none =>
      have hreport : ∀ d ∈ (Analysis.withoutReference uri).diagnostics,
          d.source ≠ Stage.grammar.label := by
        intro d hd
        rw [List.mem_singleton.1 hd]
        decide
      show Except.ok (Analysis.withoutReference uri) =
        .ok (c.retoldAnalysis other h (.withoutReference uri))
      rw [LineComment.retoldAnalysis, Ending.map_diagnostic _ hreport]
      rfl
    | some ref =>
      cases hparsed : parse (some ref) settings.maxDepth settings.maxDepth text with
      | error fault =>
        rw [hparsed] at hparse
        rw [analyze_of_parse_error hparsed, analyze_of_parse_error hparse]
        rfl
      | ok parsed =>
        rw [hparsed] at hparse
        rw [analyze_of_parse hparsed, analyze_of_parse hparse, c.analysis_retold h hparsed]
        rfl
  refine ⟨hmoved, fun hstays => ?_⟩
  rw [hmoved, funext (c.retoldAnalysis_of_stays hstays)]

/-! ## Comments that a text ends with -/

/-- A block that is left open, with a comment, and a sign without a value before another one. -/
def openText : String := "\x7b;a\n*=-;b"

def openTokens : List Token :=
  [tokenIn .block "" 1 .leftBrace "\x7b" 1 1, tokenIn .block "" 1 .lineComment ";a" 1 2,
    tokenIn .block "" 1 .programCounter "*=" 2 1, tokenIn .block "" 1 .minus "-" 2 3,
    tokenIn .block "" 1 .lineComment ";b" 2 4, tokenIn .block "" 1 .endOfText "" 2 6]

theorem tokenize_openText :
    (tokenize (some bareReference) Settings.standard.maxDepth openText).1 = openTokens :=
  (tokenize_of_session 6 (by cbv) (by decide)).1

def firstComment : LineComment (some bareReference) Settings.standard.maxDepth openText where
  token := tokenIn .block "" 1 .lineComment ";a" 1 2
  front := ['\x7b']
  mark := [';']
  body := ['a']
  back := ['\n', '*', '=', '-', ';', 'b']
  mem := by
    rw [tokenize_openText]
    decide
  kind_eq := rfl
  place_eq := by decide
  literal_eq := by decide
  text_eq := by decide
  marked := .inr ⟨rfl, by decide⟩

def lastComment : LineComment (some bareReference) Settings.standard.maxDepth openText where
  token := tokenIn .block "" 1 .lineComment ";b" 2 4
  front := ['\x7b', ';', 'a', '\n', '*', '=', '-']
  mark := [';']
  body := ['b']
  back := []
  mem := by
    rw [tokenize_openText]
    decide
  kind_eq := rfl
  place_eq := by decide
  literal_eq := by decide
  text_eq := by decide
  marked := .inr ⟨rfl, by decide⟩

/-- Another text in the first comment of `openText` changes its token only; in the last one it
moves the end of the block and the message there. -/
theorem analyze_retold_open :
    ∃ h : '\n' ∉ ['c', 'd'],
      analyze (some bareReference) .standard "" (lastComment.retold ['c', 'd']) =
        (analyze (some bareReference) .standard "" openText).map
          (lastComment.retoldAnalysis ['c', 'd'] h) ∧
      firstComment.back ≠ [] ∧
      analyze (some bareReference) .standard "" (firstComment.retold ['c', 'd']) =
        (analyze (some bareReference) .standard "" openText).map fun a =>
          { a with
            tokens := a.tokens.map fun t =>
              if t = firstComment.token then firstComment.retoldToken ['c', 'd'] else t } := by
  have h : '\n' ∉ ['c', 'd'] := by decide
  have hback : firstComment.back ≠ [] := List.cons_ne_nil _ _
  obtain ⟨hlast, -⟩ := analyze_retold (some bareReference) .standard "" openText lastComment h
  obtain ⟨-, hfirst⟩ := analyze_retold (some bareReference) .standard "" openText firstComment h
  exact ⟨h, hlast, hback, hfirst (.inl hback)⟩

/-- The first message of the grammar is the first of the analysis. -/
theorem analyze_of_first {ref : Reference} {settings : Settings} {uri text : String} {p : Position}
    (h : ∃ parsed, parse (some ref) settings.maxDepth settings.maxDepth text = .ok parsed ∧
      parsed.diagnostics.head?.map (·.range.start) = some p) :
    ∃ a, analyze (some ref) settings uri text = .ok a ∧
      a.diagnostics.head?.map (·.range.start) = some p := by
  obtain ⟨parsed, hparsed, hfirst⟩ := h
  refine ⟨_, analyze_of_parse hparsed, ?_⟩
  obtain ⟨d, hd, hstart⟩ := Option.map_eq_some_iff.1 hfirst
  show (parsed.diagnostics ++ _ ++ _).head?.map _ = some p
  rw [List.append_assoc, List.head?_append, hd]
  exact congrArg some hstart

/-- **The end of a text moves with its last comment.** The value that is missing in `openText` is
reported behind the last comment, one column further with one more character in it. -/
theorem analyze_comment_at_end :
    ∃ (c : LineComment (some bareReference) Settings.standard.maxDepth openText)
      (a moved : Analysis),
      analyze (some bareReference) .standard "" openText = .ok a ∧
      analyze (some bareReference) .standard "" (c.retold ['b', 'c']) = .ok moved ∧
      a.diagnostics.head?.map (·.range.start) = some ⟨1, 5⟩ ∧
      moved.diagnostics.head?.map (·.range.start) = some ⟨1, 6⟩ := by
  obtain ⟨a, ha, hhere⟩ : ∃ a, analyze (some bareReference) .standard "" openText = .ok a ∧
      a.diagnostics.head?.map (·.range.start) = some ⟨1, 5⟩ := by
    apply analyze_of_first
    exact exists_parsed_of_session 6 (by cbv) (by decide) (by decide +kernel)
  obtain ⟨moved, hmoved, hthere⟩ : ∃ a,
      analyze (some bareReference) .standard "" (lastComment.retold ['b', 'c']) = .ok a ∧
      a.diagnostics.head?.map (·.range.start) = some ⟨1, 6⟩ := by
    apply analyze_of_first
    exact exists_parsed_of_session 6 (by cbv) (by decide) (by decide +kernel)
  exact ⟨lastComment, a, moved, ha, hmoved, hhere, hthere⟩

end Asm6510
