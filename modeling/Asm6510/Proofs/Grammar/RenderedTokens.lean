import Asm6510.Proofs.Grammar.Renderings

/-!
# Lexing a rendering

The rendering of a printable expression is read as its pieces, in a directive or its parentheses,
if there is room on the stack for the contexts that it needs.

* `Expr.chars`: the characters of a rendering, constructor by constructor.
* `Starts`: what a rendering starts with.
* `LexesBack`: the text is read as the pieces of the expression.

Main statements: `lexesBack_render`, and `tokenize_render` about the definition of a constant.
-/

namespace Asm6510

open Grammar Lexing Lexer

variable {kind : TokenKind} {t opening op : Token} {c d : Char} {w cs : List Char}

/-! ## Renderings -/

/-- The last character of a closed string is its closing quote. -/
theorem exists_of_closesString (h : closesString w = true) : ∃ v, w = v ++ ['"'] := by
  fun_induction closesString w with
  | case1 => cases h
  | case2 cs =>
    cases List.isEmpty_iff.1 h
    exact ⟨[], rfl⟩
  | case3 => cases h
  | case4 => cases h
  | case5 => cases h
  | case6 e w he ih =>
    obtain ⟨v, rfl⟩ := ih h
    exact ⟨'\\' :: e :: v, rfl⟩
  | case7 e w hquote hline hlast hends hmore ih =>
    obtain ⟨v, rfl⟩ := ih h
    exact ⟨e :: v, rfl⟩

/-- The characters of the rendering of an expression. -/
def Expr.chars (e : Expr) : List Char :=
  e.render.toList

/-- The characters of the renderings of several expressions, with commas between them. -/
def Expr.charsAll (es : List Expr) : List Char :=
  (Text.join ", " (Expr.renderAll es)).toList

namespace Expr

theorem chars_ofName (t : Token) : (ofName t).chars = t.literal.toList :=
  rfl

theorem chars_integer (t : Token) (n : Nat) : (integer t n).chars = t.literal.toList :=
  rfl

theorem chars_stringLiteral (hliteral : t.literal = String.ofList ('"' :: w))
    (hclosed : closesString w = true) : (stringLiteral t).chars = '"' :: w := by
  obtain ⟨v, hv⟩ := exists_of_closesString hclosed
  have hlast : w.getLast? = some '"' := by rw [hv, List.getLast?_concat]
  have hvalue : stringValue t.literal = String.ofList v := by
    rw [stringValue, hliteral, String.toList_ofList]
    show (if w.getLast? = some '"' then String.ofList w.dropLast else String.ofList w) = _
    rw [if_pos hlast, hv, List.dropLast_concat]
  show ("\"" ++ stringValue t.literal ++ "\"").toList = '"' :: w
  have hquote : ("\"" : String).toList = ['"'] := rfl
  rw [hvalue, String.toList_append, String.toList_append, hquote, String.toList_ofList, hv]
  rfl

theorem chars_programCounter (t : Token) : (programCounter t).chars = ['*'] := by
  show ("*" : String).toList = ['*']
  rfl

theorem chars_unary (op : Token) (e : Expr) :
    (unary op e).chars = op.literal.toList ++ e.chars :=
  String.toList_append

theorem chars_binary (hop : isTight op.literal = false) (l r : Expr) :
    (binary op l r).chars = l.chars ++ ' ' :: (op.literal.toList ++ ' ' :: r.chars) := by
  have hblank : (" " : String).toList = [' '] := rfl
  show (if isTight op.literal then l.render ++ op.literal ++ r.render
    else l.render ++ " " ++ op.literal ++ " " ++ r.render).toList = _
  rw [if_neg (by rw [hop]; exact Bool.false_ne_true)]
  simp only [String.toList_append, hblank, List.append_assoc, List.cons_append, List.nil_append,
    chars]

theorem chars_indexed (comma register : Token) (e : Expr) :
    (indexed comma e register).chars = e.chars ++ ',' :: (registerName register).toList := by
  have hcomma : ("," : String).toList = [','] := rfl
  show (e.render ++ "," ++ registerName register).toList = _
  simp only [String.toList_append, hcomma, List.append_assoc, List.singleton_append, chars]

theorem chars_parens (h : opening.literal = "(") (e : Expr) :
    (group opening e).chars = '(' :: (e.chars ++ [')']) := by
  show (if opening.literal == "[" then "[" ++ e.render ++ "]"
    else "(" ++ e.render ++ ")").toList = _
  rw [h, if_neg (by simp), String.toList_append, String.toList_append]
  rfl

theorem chars_brackets (h : opening.literal = "[") (e : Expr) :
    (group opening e).chars = '[' :: (e.chars ++ [']']) := by
  show (if opening.literal == "[" then "[" ++ e.render ++ "]"
    else "(" ++ e.render ++ ")").toList = _
  rw [h, if_pos (by simp), String.toList_append, String.toList_append]
  rfl

theorem chars_call (t : Token) (f : Expr) (args : List Expr) :
    (call t f args).chars = f.chars ++ '(' :: (charsAll args ++ [')']) := by
  have hopening : ("(" : String).toList = ['('] := rfl
  have hclosing : (")" : String).toList = [')'] := rfl
  show (f.render ++ "(" ++ Text.join ", " (renderAll args) ++ ")").toList = _
  simp only [String.toList_append, hopening, hclosing, List.append_assoc, List.cons_append,
    List.nil_append, chars, charsAll]

theorem charsAll_nil : charsAll [] = [] :=
  rfl

theorem charsAll_singleton (e : Expr) : charsAll [e] = e.chars := by
  show (String.intercalate ", " [e.render]).toList = _
  rw [String.intercalate_singleton, chars]

theorem charsAll_cons (e x : Expr) (es : List Expr) :
    charsAll (e :: x :: es) = e.chars ++ ',' :: ' ' :: charsAll (x :: es) := by
  have hcomma : (", " : String).toList = [',', ' '] := rfl
  show (String.intercalate ", " (e.render :: x.render :: renderAll es)).toList = _
  rw [String.intercalate_cons_cons, String.toList_append, String.toList_append, hcomma,
    List.append_assoc]
  rfl

end Expr

section Chars

variable {ref : Option Reference} {room : Nat} {e : Expr}

/-- The characters of a token of a value that is no string. -/
theorem exists_whole (h : OfValue ref t) (hkind : isWhole t.kind = true) :
    ∃ c w, t.literal = String.ofList (c :: w) ∧ Whole ref t.kind c w := by
  obtain ⟨c, w, hw, hwhole⟩ := h.whole hkind
  exact ⟨c, w, by rw [← hw, String.ofList_toList], hwhole⟩

/-- A name or a number starts with no mark of an operator. -/
theorem Lexing.Whole.head_ne (h : Whole ref kind c w) (hkind : isWord kind = true) :
    c ≠ '=' ∧ c ≠ '<' ∧ c ≠ '>' := by
  have hread := (h.standing ' ' blank_mem_delimiters []).kind_eq
  have hoperator : value ref c (w ++ [' ']) ≠ operator c (w ++ [' ']) := by
    intro heq
    rw [heq] at hread
    have hword := isWord_operator c (w ++ [' '])
    rw [hread, hkind] at hword
    cases hword
  refine ⟨?_, ?_, ?_⟩
  · rintro rfl
    exact hoperator rfl
  · rintro rfl
    exact hoperator rfl
  · rintro rfl
    exact hoperator rfl

/-- The mark of an operator before its operand is one character. -/
theorem prefix_mark (h : isPrefixOperator kind = true) (hhash : kind ≠ .hash) :
    ∃ c, operatorMark kind = some (c, []) ∧ opensLexeme c = true ∧
      c ∈ ['-', '+', '<', '>', '.', '@'] := by
  cases kind with
  | hash => exact absurd rfl hhash
  | minus | plus | less | greater | dot | atSign => exact ⟨_, rfl, rfl, by simp⟩
  | _ => cases h

/-- The mark of an operator that is rendered with blanks around it. -/
theorem binary_mark (hlowest : lowest < level kind) (hlevel : level kind < prefixLevel) :
    ∃ c w, operatorMark kind = some (c, w) ∧ opensLexeme c = true ∧
      Expr.isTight (String.ofList (c :: w)) = false := by
  cases kind with
  | equal | equalEqual | notEqual | less | greater | lessEqual | greaterEqual | ampersand | pipe
    | caret | leftShift | rightShift | plus | minus | asterisk | slash | modulo =>
    exact ⟨_, _, rfl, rfl, by simp [Expr.isTight]⟩
  | dot | leftParen => exact absurd hlevel (by decide)
  | _ => exact absurd hlowest (Nat.lt_irrefl lowest)

/-- What the rendering of an expression starts with. A mark that could fuse with one before it
belongs to an operator before its operand. -/
def Starts (e : Expr) : Prop :=
  ∃ d cs, e.chars = d :: cs ∧ d ≠ '=' ∧
    (e.operator? = none → d = '<' ∨ d = '>' →
      ∃ op x, e = .unary op x ∧ op.literal = String.ofList [d])

theorem starts_of_ne (hchars : e.chars = d :: cs) (hd : d ≠ '=' ∧ d ≠ '<' ∧ d ≠ '>') :
    Starts e := by
  refine ⟨d, cs, hchars, hd.1, fun _ hmarks => ?_⟩
  rcases hmarks with hmark | hmark
  · exact absurd hmark hd.2.1
  · exact absurd hmark hd.2.2

theorem starts_of_word (hchars : e.chars = t.literal.toList ++ cs) (hv : OfValue ref t)
    (hkind : t.kind.isName = true ∨ t.kind.isNumber = true) : Starts e := by
  have hwhole : isWhole t.kind = true := by
    rcases hkind with hkind | hkind <;> simp [isWhole, hkind]
  have hword : isWord t.kind = true := by
    rcases hkind with hkind | hkind <;> simp [isWord, hkind]
  obtain ⟨c, w, hliteral, hwhole⟩ := exists_whole hv hwhole
  rw [hliteral, String.toList_ofList] at hchars
  exact starts_of_ne hchars (hwhole.head_ne hword)

theorem Grammar.Printable.starts (h : Printable ref room e) : Starts e := by
  induction h with
  | @name room t ht hv =>
    refine starts_of_word (by rw [Expr.chars_ofName, List.append_nil]) hv (.inl ?_)
    rcases ht with ht | ⟨cls, ht⟩ <;> rw [ht] <;> rfl
  | @integer room t radix n ht hn hv =>
    exact starts_of_word (by rw [Expr.chars_integer, List.append_nil]) hv (.inr (by rw [ht]; rfl))
  | string ht hliteral hclosed =>
    exact starts_of_ne (Expr.chars_stringLiteral hliteral hclosed) (by simp)
  | programCounter ht => exact starts_of_ne (Expr.chars_programCounter _) (by simp)
  | @unary room op e hop hhash hv he hbare hfuse ih =>
    obtain ⟨c, hmark, -, hc⟩ := prefix_mark hop hhash
    have hliteral := hv.mark hmark
    refine ⟨c, e.chars, by rw [Expr.chars_unary, hliteral, String.toList_ofList]; rfl, ?_,
      fun _ _ => ⟨op, e, rfl, hliteral⟩⟩
    rintro rfl
    simp at hc
  | @binary room op l r hlowest hlevel hv hl hr hleft hright ihl ihr =>
    obtain ⟨c, w, hmark, -, htight⟩ := binary_mark hlowest hlevel
    obtain ⟨d, cs, hd, hequal, -⟩ := ihl
    rw [← hv.mark hmark] at htight
    exact ⟨d, _, by rw [Expr.chars_binary htight, hd]; rfl, hequal, fun hbare => nomatch hbare⟩
  | group hopening hv he ih =>
    rcases hopening with ht | ht
    · exact starts_of_ne (Expr.chars_parens (hv.spelled ht rfl) _) (by simp)
    · exact starts_of_ne (Expr.chars_brackets (hv.spelled ht rfl) _) (by simp)
  | indexed hopening hv he hregister hr ih =>
    exact starts_of_ne (Expr.chars_parens (hv.spelled hopening rfl) _) (by simp)
  | @builtin room name args ht hv hargs ih =>
    obtain ⟨cls, ht⟩ := ht
    exact starts_of_word (by rw [Expr.chars_call, Expr.chars_ofName]) hv (.inl (by rw [ht]; rfl))
  | @call room t f args hf hbare hunary hargs ihf ihargs =>
    obtain ⟨d, cs, hd, hequal, hmark⟩ := ihf
    refine ⟨d, _, by rw [Expr.chars_call, hd]; rfl, hequal, fun _ hmarks => ?_⟩
    obtain ⟨op, x, hx, -⟩ := hmark hbare hmarks
    exact absurd hx (hunary op x)

end Chars

/-! ## Trees -/

section Trees

variable {ref : Option Reference} {room : Nat} {e : Expr} {l : Lexer} {b : Nat}

/-- Blanks, the rendering and a delimiter are read as the pieces of the expression. -/
def LexesBack (ref : Option Reference) (e : Expr) : Prop :=
  ∀ (l : Lexer) (b : Nat) (d : Char) (behind : List Char), l.nesting.Roomy e.lexDepth →
    d ∈ delimiters → l.rest = List.replicate b ' ' ++ (e.chars ++ d :: behind) →
    LexesTo ref l e.pieces (d :: behind) l.nesting

theorem lexesBack_leaf (hwhole : Whole ref kind c w) (hchars : e.chars = c :: w)
    (hpieces : e.pieces = [(kind, String.ofList (c :: w))])
    (hstring : kind = .string → 0 < e.lexDepth) : LexesBack ref e := by
  intro l b d behind hroomy hd hrest
  rw [hpieces]
  rw [hchars] at hrest
  exact lexesTo_whole hroomy hstring hwhole hd hrest

theorem lexesBack_name (hv : OfValue ref t) (ht : t.kind.isName = true) :
    LexesBack ref (.ofName t) := by
  obtain ⟨c, w, hliteral, hwhole⟩ := exists_whole hv (by simp [isWhole, ht])
  refine lexesBack_leaf hwhole ?_ ?_ fun h => ?_
  · rw [Expr.chars_ofName, hliteral, String.toList_ofList]
  · rw [Expr.ofName, Expr.pieces, hliteral]
  · rw [h] at ht
    cases ht

/-- Marks of one character that are read alone, whatever follows but a mark that they fuse with. -/
def loneMarks : List Char :=
  ['-', '+', '<', '>', '.', '@', '[', ',']

theorem value_loneMark (hc : c ∈ loneMarks) (hd : d ≠ '=') (hsame : c = '<' ∨ c = '>' → d ≠ c)
    (behind : List Char) : value ref c (d :: behind) = Lexeme.plain (TokenKind.ofChar c) 0 := by
  have hpair : TokenKind.ofPair? c d = none := by
    unfold TokenKind.ofPair?
    split
    · exact absurd rfl (hsame (.inl rfl))
    · exact absurd rfl (hsame (.inr rfl))
    · exact absurd rfl hd
    · exact absurd rfl hd
    · exact absurd rfl hd
    · exact absurd rfl hd
    · rfl
  have hoperator : operator c (d :: behind) = operator c [] := by
    unfold operator
    dsimp only
    rw [hpair]
  have hvalue : value ref c (d :: behind) = operator c (d :: behind) ∧
      operator c [] = Lexeme.plain (TokenKind.ofChar c) 0 := by
    clear hoperator hpair hsame
    simp only [loneMarks, List.mem_cons, List.not_mem_nil, or_false] at hc
    rcases hc with rfl | rfl | rfl | rfl | rfl | rfl | rfl | rfl
    all_goals exact ⟨rfl, rfl⟩
  rw [hvalue.1, hoperator, hvalue.2]

theorem kind_of_operatorMark (hmark : operatorMark kind = some (c, [])) :
    kind = TokenKind.ofChar c ∧ kind ≠ .string := by
  unfold operatorMark at hmark
  split at hmark <;> cases hmark <;> exact ⟨rfl, TokenKind.noConfusion⟩

/-- A lone mark before a character that it does not fuse with. -/
theorem lexesTo_loneMark {k : Nat} (hroomy : l.nesting.Roomy k)
    (hmark : operatorMark kind = some (c, [])) (hc : c ∈ loneMarks) (hd : d ≠ '=')
    (hsame : c = '<' ∨ c = '>' → d ≠ c) (hrest : l.rest = List.replicate b ' ' ++ c :: d :: cs) :
    LexesTo ref l [(kind, String.ofList [c])] (d :: cs) l.nesting := by
  have hkind := kind_of_operatorMark hmark
  have hopens : opensLexeme c = true ∧ c ≠ '/' := by
    simp only [loneMarks, List.mem_cons, List.not_mem_nil, or_false] at hc
    rcases hc with rfl | rfl | rfl | rfl | rfl | rfl | rfl | rfl
    all_goals exact ⟨rfl, by simp⟩
  refine lexesTo_standing (w := []) hroomy (fun h => absurd h hkind.2) hopens.1
    (by simp [startsComment, hopens.2]) ?_ hrest
  rw [List.nil_append, value_loneMark hc hd hsame, ← hkind.1]
  exact standing_plain hkind.2 0

theorem lexesBack_unary (hop : isPrefixOperator op.kind = true) (hhash : op.kind ≠ .hash)
    (hv : OfValue ref op) (he : Printable ref room e) (hbare : e.operator? = none)
    (hfuse : op.kind = .less ∨ op.kind = .greater → ∀ inner x, e = .unary inner x →
      inner.kind ≠ op.kind) (ih : LexesBack ref e) : LexesBack ref (.unary op e) := by
  intro l b d behind hroomy hd hrest
  obtain ⟨c, hmark, hopens, hc⟩ := prefix_mark hop hhash
  have hliteral := hv.mark hmark
  rw [Expr.chars_unary, hliteral, String.toList_ofList, List.append_assoc,
    List.singleton_append] at hrest
  rw [Expr.pieces, hliteral]
  obtain ⟨a, cs, hchars, hequal, hstart⟩ := he.starts
  have hsame : c = '<' ∨ c = '>' → a ≠ c := by
    rintro hmarks rfl
    obtain ⟨inner, x, rfl, hinner⟩ := hstart hbare hmarks
    have hkind := (kind_of_operatorMark hmark).1
    cases he with
    | unary hop' hhash' hv' =>
      obtain ⟨c', hmark', -⟩ := prefix_mark hop' hhash'
      have hc' : c' = a := by
        have heq := (hv'.mark hmark').symm.trans hinner
        rw [String.ofList_inj] at heq
        exact List.head_eq_of_cons_eq heq
      subst hc'
      refine hfuse ?_ inner x rfl ?_
      · rw [hkind]
        rcases hmarks with rfl | rfl
        · exact .inl rfl
        · exact .inr rfl
      · rw [hkind, (kind_of_operatorMark hmark').1]
  have hone : LexesTo ref l [(op.kind, String.ofList [c])] (e.chars ++ d :: behind) l.nesting := by
    rw [hchars] at hrest ⊢
    exact lexesTo_loneMark hroomy hmark (List.mem_append_left ['[', ','] hc) hequal hsame hrest
  refine hone.trans fun m hm hn => ?_
  rw [← hn]
  exact ih m 0 d behind (hn ▸ hroomy) hd hm

theorem lexesBack_binary {l r : Expr} (hlowest : lowest < level op.kind)
    (hlevel : level op.kind < prefixLevel) (hv : OfValue ref op) (ihl : LexesBack ref l)
    (ihr : LexesBack ref r) : LexesBack ref (.binary op l r) := by
  intro x b d behind hroomy hd hrest
  obtain ⟨c, w, hmark, hopens, htight⟩ := binary_mark hlowest hlevel
  have hliteral := hv.mark hmark
  rw [← hliteral] at htight
  rw [Expr.chars_binary htight, hliteral, String.toList_ofList, List.append_assoc] at hrest
  rw [Expr.lexDepth] at hroomy
  rw [Expr.pieces, hliteral]
  have hleft := ihl x b ' ' _ (hroomy.mono (Nat.le_max_left _ _)) blank_mem_delimiters hrest
  refine hleft.trans fun y hy hn => ?_
  have hop : LexesTo ref y [(op.kind, String.ofList (c :: w))] (' ' :: (r.chars ++ d :: behind))
      x.nesting := by
    rw [← hn]
    refine lexesTo_whole (b := 1) (hn ▸ hroomy) (fun h => ?_) (whole_operator ref hmark hopens)
      blank_mem_delimiters ?_
    · rw [h] at hmark
      cases hmark
    · rw [hy]
      simp
  refine hop.trans fun z hz hn' => ?_
  rw [← hn']
  exact ihr z 1 d behind (hn' ▸ hroomy.mono (Nat.le_max_right _ _)) hd hz

theorem lexesTo_parens {k : Nat} {ps : List Piece} {behind : List Char}
    (hroomy : l.nesting.Roomy (k + 1))
    (hrest : l.rest = List.replicate b ' ' ++ '(' :: (cs ++ ')' :: behind))
    (hinner : ∀ m : Lexer, m.nesting.Roomy k → m.rest = cs ++ ')' :: behind →
      LexesTo ref m ps (')' :: behind) m.nesting) :
    LexesTo ref l ((.leftParen, "(") :: (ps ++ [(.rightParen, ")")])) behind l.nesting := by
  refine (lexesTo_opening hroomy hrest).trans fun m hm hn => ?_
  refine LexesTo.trans (hinner m (hn ▸ hroomy.opened) hm) fun y hy hn' => ?_
  exact lexesTo_closing hroomy (hn'.trans hn) hy

theorem lexesBack_group (hopening : opening.kind = .leftParen ∨ opening.kind = .leftBracket)
    (hv : OfValue ref opening) (he : Printable ref room e) (ih : LexesBack ref e) :
    LexesBack ref (.group opening e) := by
  intro l b d behind hroomy hd hrest
  rcases hopening with ht | ht
  · have hbracket : ¬opening.kind = .leftBracket := by
      rw [ht]
      exact TokenKind.noConfusion
    rw [Expr.lexDepth, if_neg hbracket] at hroomy
    rw [Expr.chars_parens (hv.spelled ht rfl), List.cons_append, List.append_assoc,
      List.singleton_append] at hrest
    rw [Expr.pieces, if_neg hbracket]
    exact lexesTo_parens hroomy hrest fun m hm hmrest =>
      ih m 0 ')' (d :: behind) hm closing_mem_delimiters hmrest
  · rw [Expr.lexDepth, if_pos ht] at hroomy
    rw [Expr.chars_brackets (hv.spelled ht rfl), List.cons_append, List.append_assoc,
      List.singleton_append] at hrest
    rw [Expr.pieces, if_pos ht]
    obtain ⟨a, cs, hchars, hequal, -⟩ := he.starts
    have hone : LexesTo ref l [(.leftBracket, "[")] (e.chars ++ ']' :: d :: behind) l.nesting := by
      rw [hchars] at hrest ⊢
      exact lexesTo_loneMark hroomy rfl (by simp [loneMarks]) hequal (by simp) hrest
    refine hone.trans fun m hm hn => ?_
    rw [← hn]
    refine LexesTo.trans (ih m 0 ']' (d :: behind) (hn ▸ hroomy) bracket_mem_delimiters hm)
      fun y hy hn' => ?_
    have hwhole : Whole ref .rightBracket ']' [] := whole_operator ref rfl rfl
    rw [← hn']
    exact lexesTo_whole (b := 0) (hn' ▸ hn ▸ hroomy) TokenKind.noConfusion hwhole hd hy

theorem lexesBack_indexed {comma register : Token} (hopening : opening.kind = .leftParen)
    (hv : OfValue ref opening) (hregister : isIndexRegister register = true)
    (hr : OfValue ref register) (ih : LexesBack ref e) :
    LexesBack ref (.group opening (.indexed comma e register)) := by
  intro l b d behind hroomy hd hrest
  obtain ⟨r, hletter, hname, hwhole⟩ := hr.register hregister
  have hbracket : ¬opening.kind = .leftBracket := by
    rw [hopening]
    exact TokenKind.noConfusion
  rw [Expr.lexDepth, if_neg hbracket, Expr.lexDepth] at hroomy
  rw [Expr.chars_parens (hv.spelled hopening rfl), Expr.chars_indexed, hname,
    String.toList_ofList, List.cons_append, List.append_assoc, List.singleton_append] at hrest
  rw [Expr.pieces, if_neg hbracket, Expr.pieces, hname]
  refine lexesTo_parens hroomy hrest fun m hm hmrest => ?_
  rw [List.append_assoc] at hmrest
  refine LexesTo.trans (ih m 0 ',' (r :: ')' :: d :: behind) hm comma_mem_delimiters hmrest)
    fun y hy hn => ?_
  have hequal : r ≠ '=' := by
    rintro rfl
    simp at hletter
  have hcomma : LexesTo ref y [(.comma, ",")] (r :: ')' :: d :: behind) m.nesting := by
    rw [← hn]
    exact lexesTo_loneMark (b := 0) (hn ▸ hm) rfl (by simp [loneMarks]) hequal (by simp) hy
  refine hcomma.trans fun z hz hn' => ?_
  rw [← hn']
  exact lexesTo_whole (b := 0) (hn' ▸ hm) TokenKind.noConfusion hwhole closing_mem_delimiters hz

theorem lexesTo_all {es : List Expr} (hne : es ≠ []) (ih : ∀ x ∈ es, LexesBack ref x)
    {behind : List Char} (hroomy : l.nesting.Roomy (Expr.lexDepthAll es)) (hd : d ∈ delimiters)
    (hrest : l.rest = List.replicate b ' ' ++ (Expr.charsAll es ++ d :: behind)) :
    LexesTo ref l (Expr.piecesAll es) (d :: behind) l.nesting := by
  induction es generalizing l b with
  | nil => exact absurd rfl hne
  | cons x es ihes =>
    have hx := ih x List.mem_cons_self
    rw [Expr.lexDepthAll] at hroomy
    cases es with
    | nil =>
      rw [Expr.charsAll_singleton] at hrest
      rw [Expr.piecesAll]
      exact hx l b d behind (hroomy.mono (Nat.le_max_left _ _)) hd hrest
    | cons y es =>
      rw [Expr.charsAll_cons, List.append_assoc] at hrest
      rw [Expr.piecesAll]
      refine LexesTo.trans (hx l b ',' _ (hroomy.mono (Nat.le_max_left _ _)) comma_mem_delimiters
        hrest)
        fun m hm hn => ?_
      have hwhole : Whole ref .comma ',' [] := whole_operator ref rfl rfl
      have hcomma : LexesTo ref m [(.comma, ",")] (' ' :: (Expr.charsAll (y :: es) ++ d :: behind))
          l.nesting := by
        rw [← hn]
        exact lexesTo_whole (b := 0) (hn ▸ hroomy) TokenKind.noConfusion hwhole
          blank_mem_delimiters hm
      refine hcomma.trans fun z hz hn' => ?_
      rw [← hn']
      exact ihes (List.cons_ne_nil y es) (fun u hu => ih u (List.mem_cons_of_mem x hu)) (b := 1)
        (hn' ▸ hroomy.mono (Nat.le_max_right _ _)) hz

theorem lexesBack_call {f : Expr} {args : List Expr} (ihf : LexesBack ref f)
    (ihargs : ∀ x ∈ args, LexesBack ref x) : LexesBack ref (.call t f args) := by
  intro l b d behind hroomy hd hrest
  rw [Expr.lexDepth] at hroomy
  rw [Expr.chars_call, List.append_assoc, List.cons_append, List.append_assoc,
    List.singleton_append] at hrest
  rw [Expr.pieces]
  refine LexesTo.trans (ihf l b '(' _ (hroomy.mono (Nat.le_max_left _ _)) opening_mem_delimiters
    hrest)
    fun m hm hn => ?_
  have hinside : m.nesting.Roomy (Expr.lexDepthAll args + 1) :=
    hn ▸ hroomy.mono (Nat.le_max_right _ _)
  rw [← hn]
  refine lexesTo_parens (b := 0) hinside hm fun y hy hyrest => ?_
  cases args with
  | nil =>
    rw [Expr.piecesAll]
    rw [Expr.charsAll_nil, List.nil_append] at hyrest
    rw [← hyrest]
    exact lexesTo_nil
  | cons x args =>
    exact lexesTo_all (List.cons_ne_nil x args) ihargs (b := 0) hy closing_mem_delimiters hyrest

/-- **The rendering of a printable expression is read as its pieces**, before every delimiter, if
there is room for its contexts. -/
theorem lexesBack_render (h : Printable ref room e) : LexesBack ref e := by
  induction h with
  | @name room t ht hv =>
    refine lexesBack_name hv ?_
    rcases ht with ht | ⟨cls, ht⟩ <;> rw [ht] <;> rfl
  | @integer room t radix n ht hn hv =>
    obtain ⟨c, w, hliteral, hwhole⟩ := exists_whole hv (by rw [ht]; rfl)
    refine lexesBack_leaf hwhole ?_ ?_ fun h => ?_
    · rw [Expr.chars_integer, hliteral, String.toList_ofList]
    · rw [Expr.pieces, hliteral]
    · rw [ht] at h
      cases h
  | @string room t w ht hliteral hclosed =>
    refine lexesBack_leaf (whole_string ref hclosed) (Expr.chars_stringLiteral hliteral hclosed) ?_
      fun _ => ?_
    · rw [stringLiteral, Expr.pieces, hliteral, ht]
    · rw [stringLiteral, Expr.lexDepth]
      exact Nat.one_pos
  | @programCounter room t ht =>
    have hwhole : Whole ref .asterisk '*' [] := whole_operator ref rfl rfl
    refine lexesBack_leaf hwhole (Expr.chars_programCounter t) ?_ TokenKind.noConfusion
    rw [Expr.pieces]
  | unary hop hhash hv he hbare hfuse ih => exact lexesBack_unary hop hhash hv he hbare hfuse ih
  | binary hlowest hlevel hv hl hr hleft hright ihl ihr =>
    exact lexesBack_binary hlowest hlevel hv ihl ihr
  | group hopening hv he ih => exact lexesBack_group hopening hv he ih
  | indexed hopening hv he hregister hr ih => exact lexesBack_indexed hopening hv hregister hr ih
  | @builtin room name args ht hv hargs ih =>
    obtain ⟨cls, ht⟩ := ht
    exact lexesBack_call (lexesBack_name hv (by rw [ht]; rfl)) ih
  | call hf hbare hunary hargs ihf ihargs => exact lexesBack_call ihf ihargs

/-! ## Definitions -/

/-- A kind that a rendering consists of: neither a comment nor the end of a text. -/
def TokenKind.isWritten (kind : TokenKind) : Bool :=
  !kind.isComment && kind != .endOfText

theorem TokenKind.isWritten_of_level (h : lowest < level kind) : kind.isWritten = true := by
  cases kind with
  | endOfText | lineComment | blockComment => exact absurd h (Nat.lt_irrefl _)
  | _ => rfl

theorem TokenKind.isWritten_of_prefixOperator (h : isPrefixOperator kind = true) :
    kind.isWritten = true := by
  cases kind with
  | endOfText | lineComment | blockComment => cases h
  | _ => rfl

theorem Expr.mem_piecesAll {p : Piece} : ∀ {es : List Expr}, p ∈ piecesAll es →
    p = (.comma, ",") ∨ ∃ x ∈ es, p ∈ x.pieces
  | [], h => by cases h
  | [e], h => .inr ⟨e, List.mem_singleton_self e, h⟩
  | e :: x :: es, h => by
    rcases List.mem_append.1 h with h | h
    · exact .inr ⟨e, List.mem_cons_self, h⟩
    rcases List.mem_cons.1 h with h | h
    · exact .inl h
    rcases mem_piecesAll h with h | ⟨y, hy, h⟩
    · exact .inl h
    · exact .inr ⟨y, List.mem_cons_of_mem e hy, h⟩

theorem isWritten_arguments {args : List Expr}
    (h : ∀ x ∈ args, ∀ p ∈ x.pieces, p.1.isWritten = true) :
    ∀ p ∈ (TokenKind.leftParen, "(") :: (Expr.piecesAll args ++ [(TokenKind.rightParen, ")")]),
      p.1.isWritten = true := by
  refine List.forall_mem_cons.2 ⟨rfl, List.forall_mem_append.2
    ⟨fun p hp => ?_, List.forall_mem_singleton.2 rfl⟩⟩
  rcases Expr.mem_piecesAll hp with rfl | ⟨x, hx, hp⟩
  · rfl
  · exact h x hx p hp

theorem Grammar.Printable.isWritten (h : Printable ref room e) :
    ∀ p ∈ e.pieces, p.1.isWritten = true := by
  induction h with
  | @name room t ht hv =>
    rintro p hp
    cases List.mem_singleton.1 hp
    rcases ht with ht | ⟨cls, ht⟩ <;> rw [ht] <;> rfl
  | integer ht hn hv =>
    rintro p hp
    cases List.mem_singleton.1 hp
    rw [ht]
    rfl
  | string ht hliteral hclosed =>
    rintro p hp
    cases List.mem_singleton.1 hp
    rw [ht]
    rfl
  | programCounter ht =>
    rintro p hp
    cases List.mem_singleton.1 hp
    rfl
  | unary hop hhash hv he hbare hfuse ih =>
    rw [Expr.pieces]
    exact List.forall_mem_cons.2 ⟨TokenKind.isWritten_of_prefixOperator hop, ih⟩
  | binary hlowest hlevel hv hl hr hleft hright ihl ihr =>
    rw [Expr.pieces]
    exact List.forall_mem_append.2
      ⟨ihl, List.forall_mem_cons.2 ⟨TokenKind.isWritten_of_level hlowest, ihr⟩⟩
  | group hopening hv he ih =>
    rw [Expr.pieces]
    split
    · exact List.forall_mem_cons.2
        ⟨rfl, List.forall_mem_append.2 ⟨ih, List.forall_mem_singleton.2 rfl⟩⟩
    · exact List.forall_mem_cons.2
        ⟨rfl, List.forall_mem_append.2 ⟨ih, List.forall_mem_singleton.2 rfl⟩⟩
  | indexed hopening hv he hregister hr ih =>
    rw [Expr.pieces, hopening, if_neg TokenKind.noConfusion, Expr.pieces]
    refine List.forall_mem_cons.2 ⟨rfl, List.forall_mem_append.2
      ⟨List.forall_mem_append.2 ⟨ih, ?_⟩, List.forall_mem_singleton.2 rfl⟩⟩
    exact List.forall_mem_cons.2 ⟨rfl, List.forall_mem_singleton.2 rfl⟩
  | @builtin room name args ht hv hargs ih =>
    obtain ⟨cls, ht⟩ := ht
    rw [Expr.pieces]
    refine List.forall_mem_append.2 ⟨?_, ?_⟩
    · rintro p hp
      cases List.mem_singleton.1 hp
      rw [ht]
      rfl
    · exact isWritten_arguments ih
  | call hf hbare hunary hargs ihf ihargs =>
    rw [Expr.pieces]
    exact List.forall_mem_append.2 ⟨ihf, isWritten_arguments ihargs⟩

/-- **The tokens of the definition of a constant as a printable expression.** -/
theorem tokenize_render {name : String} {limit : Int} (h : Printable ref room e)
    (hname : isPlainName name = true) (hroom : 2 + e.lexDepth ≤ depthBound limit) :
    ∃ kind ts stop last, kind.isName = true ∧ stop.kind = .endOfText ∧
      tokenize ref limit (".const " ++ name ++ " = " ++ e.render ++ "\n") = (ts ++ [stop], last) ∧
      ts.map Token.piece =
        [((constLexeme ref).kind, ".const"), (kind, name), (.equal, "=")] ++ e.pieces ∧
      last.nesting.overflow = none := by
  refine tokenize_constant hname hroom (fun p hp => ?_) fun m hm hrest => ?_
  · rintro hend
    have hwritten := h.isWritten p hp
    rw [hend] at hwritten
    cases hwritten
  · exact lexesBack_render h m 1 '\n' [] hm line_mem_delimiters hrest

end Trees

end Asm6510
