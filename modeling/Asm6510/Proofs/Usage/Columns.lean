import Asm6510.Proofs.Grammar.Stream
import Asm6510.Proofs.Token.LineComment
import Asm6510.Proofs.Token.Wholes
import Mathlib

/-!
# Comments of one line, column by column

The scan of a line (`inComment`) and the lexer find comments in their own ways. On a text of one
line without character literals they find the same ones.

* `Token.column`, `Token.columnBehind`: the columns of a token, counted from zero.
* `Token.IsClosed`, `Token.IsTrailing`: a block comment with its closing mark; any other comment.
* `Token.Scans`: what the scan of a line meets at a token, with the parentheses that are open before
  and after it.
* `Token.Hides`: the columns that are in the comment that a token is.

One lemma says what the scan does within a token (`Scans.inside_iff`) and one what it does behind it
(`Scans.across`); `Scans.hides_cons` puts a token before others, and `Lexer.run_hides` goes over the
tokens of a line.

Main statement: `inComment_tokens_agree`. The start of a token is in no comment, but for the end of
the text, which a comment without closing mark reaches (`inComment_end_of_comment`).
-/

namespace Asm6510

variable {t u : Token} {k : Nat} {w : List Char}

theorem TokenKind.isComment_of_isPlain {kind : TokenKind} (h : kind.isPlain = true) :
    kind.isComment = false := by
  unfold isComment
  split
  · cases h
  · cases h
  · rfl

namespace Token

/-- The column that a token starts at, counted from zero. -/
def column (t : Token) : Nat :=
  t.place.column - 1

/-- The column behind a token that ends in its line. -/
def columnBehind (t : Token) : Nat :=
  t.column + t.spelling.length

/-- A block comment with its closing mark, which shares no character with the opening one. -/
def IsClosed (t : Token) : Prop :=
  t.kind = .blockComment ∧ ['*', '/'] <:+ t.spelling.toList.drop 2

/-- A line comment, or a block comment without closing mark. -/
def IsTrailing (t : Token) : Prop :=
  t.kind = .lineComment ∨ t.kind = .blockComment ∧ ¬['*', '/'] <:+ t.spelling.toList.drop 2

instance (t : Token) : Decidable t.IsClosed :=
  inferInstanceAs (Decidable (_ ∧ _))

instance (t : Token) : Decidable t.IsTrailing :=
  inferInstanceAs (Decidable (_ ∨ _))

/-- A column behind the start of a comment, and before the closing mark where there is one. -/
def Hides (t : Token) (column : Int) : Prop :=
  t.IsTrailing ∧ t.column < column ∨
    t.IsClosed ∧ t.column < column ∧ column ≤ (t.columnBehind : Int) - 2

instance (t : Token) (column : Int) : Decidable (t.Hides column) :=
  inferInstanceAs (Decidable (_ ∨ _))

theorem IsTrailing.isComment (h : t.IsTrailing) : t.kind.isComment = true := by
  rcases h with hkind | ⟨hkind, -⟩
  · rw [hkind]
    rfl
  · rw [hkind]
    rfl

theorem IsTrailing.not_isClosed (h : t.IsTrailing) : ¬t.IsClosed := by
  rintro ⟨hkind, hmark⟩
  rcases h with hline | ⟨-, hopen⟩
  · rw [hkind] at hline
    cases hline
  · exact hopen hmark

theorem Hides.isComment {column : Int} (h : t.Hides column) : t.kind.isComment = true := by
  rcases h with ⟨htrailing, -⟩ | ⟨⟨hkind, -⟩, -⟩
  · exact htrailing.isComment
  · rw [hkind]
    rfl

theorem Hides.column_lt {column : Int} (h : t.Hides column) : t.column < column :=
  h.elim And.right fun h => h.2.1

end Token

/-! ## The scan within comments and strings -/

namespace LineState

/-- Before the end of `w`, what stands behind it does not matter but for one character. -/
theorem after_of_le (s : LineState) (h : k ≤ w.length) (rest : List Char) :
    s.after k (w ++ rest) = s.across (w.take k) (w.drop k ++ rest) := by
  rw [across, List.length_take_of_le h, ← List.append_assoc, List.take_append_drop]

theorem after_add (s : LineState) (w rest : List Char) (k : Nat) :
    s.after (w.length + k) (w ++ rest) = (s.across w rest).after k rest := by
  induction w generalizing s with
  | nil => rw [List.length_nil, Nat.zero_add, List.nil_append, across_nil]
  | cons c w ih =>
    rw [List.length_cons, Nat.add_right_comm, List.cons_append, after, ih, across_cons]

theorem after_nil (s : LineState) (k : Nat) : s.after k [] = s := by
  cases k <;> rfl

/-- In blanks within a line the scan stays in the code, also behind their end. -/
theorem after_blanks (h : ∀ c ∈ w, Lexing.isWhite c = true) (hline : '\n' ∉ w) {rest : List Char}
    (hk : k ≤ w.length ∨ rest = []) (depth : Nat) :
    (code depth).after k (w ++ rest) = code depth := by
  rcases Nat.le_total k w.length with hle | hle
  · rw [after_of_le _ hle]
    exact across_blanks (fun c hc => h c (List.mem_of_mem_take hc))
      (fun hmem => hline (List.mem_of_mem_take hmem)) _ depth
  · obtain ⟨j, rfl⟩ := Nat.exists_eq_add_of_le hle
    rw [after_add, across_blanks h hline]
    rcases hk with hk | rfl
    · obtain rfl : j = 0 := by omega
      rfl
    · exact after_nil _ j

/-- In a block comment the scan is inside up to the closing mark. -/
theorem inside_block_iff (depth : Nat) (rest : List Char) (hk : k ≤ Lexing.blockCommentSize rest) :
    ((block depth).after k rest).inside = true ↔
      (['*', '/'] <:+ rest.take (Lexing.blockCommentSize rest) →
        k + 2 ≤ Lexing.blockCommentSize rest) := by
  fun_induction Lexing.blockCommentSize rest generalizing k with
  | case1 =>
    obtain rfl : k = 0 := Nat.le_zero.1 hk
    simp [after, inside]
  | case2 rest =>
    have hk : k = 0 ∨ k = 1 ∨ k = 2 := by omega
    rcases hk with rfl | rfl | rfl <;> simp [after, step, inside]
  | case3 c rest hopen ih =>
    -- the closing mark does not start at the first character
    have hmark : ['*', '/'] <:+ c :: rest.take (Lexing.blockCommentSize rest) ↔
        ['*', '/'] <:+ rest.take (Lexing.blockCommentSize rest) := by
      rw [List.suffix_cons_iff]
      constructor
      · rintro (hall | hmore)
        · obtain ⟨rfl, htake⟩ := List.cons.inj hall
          have hprefix : ['/'] <+: rest := htake ▸ List.take_prefix _ _
          obtain ⟨tail, rfl⟩ := hprefix
          exact absurd rfl (hopen tail rfl)
        · exact hmore
      · exact .inr
    have hstep : (block depth).step c rest.head? = block depth := by
      rw [step, if_neg]
      intro hclose
      simp only [Bool.and_eq_true, beq_iff_eq] at hclose
      obtain ⟨tail, hrest⟩ := List.head?_eq_some_iff.1 hclose.2
      exact hopen tail hclose.1 hrest
    rw [List.take_succ_cons, hmark]
    cases k with
    | zero =>
      have hsize : ['*', '/'] <:+ rest.take (Lexing.blockCommentSize rest) →
          0 + 2 ≤ Lexing.blockCommentSize rest + 1 := by
        intro h
        have := h.length_le
        simp only [List.length_cons, List.length_nil, List.length_take] at this
        omega
      exact ⟨fun _ => hsize, fun _ => rfl⟩
    | succ k =>
      rw [after, hstep, ih (by omega)]
      constructor
      · intro h hclosed
        have := h hclosed
        omega
      · intro h hclosed
        have := h hclosed
        omega

theorem inside_quoted (depth : Nat) (rest : List Char) (hk : k ≤ Lexing.stringSize rest) :
    ((quoted depth).after k rest).inside = false := by
  fun_induction Lexing.stringSize rest generalizing k with
  | case1 | case3 =>
    obtain rfl : k = 0 := Nat.le_zero.1 hk
    rfl
  | case2 rest | case4 | case5 rest =>
    have hk : k = 0 ∨ k = 1 := by omega
    rcases hk with rfl | rfl <;> rfl
  | case6 c rest hc ih =>
    rcases k with _ | _ | k
    · rfl
    · rfl
    · exact ih (by omega)
  | case7 c rest hquote hline hlast hends hmore ih =>
    have hslash := Lexing.ne_backslash hlast hmore
    cases k with
    | zero => rfl
    | succ k =>
      rw [after, step_quoted hquote hslash]
      exact ih (by omega)

theorem after_comment (k : Nat) (w : List Char) : comment.after k w = comment := by
  induction w generalizing k with
  | nil => exact after_nil _ k
  | cons c w ih =>
    cases k with
    | zero => rfl
    | succ k => exact ih k

/-- In unmarked characters without semicolons outside of parentheses the scan is in the code. -/
theorem inside_unmarked {rest : List Char} (h : Unmarked w rest) (hquote : '"' ∉ w) {depth : Nat}
    (hsevers : severs depth w = false) (hk : k ≤ w.length) :
    ((code depth).after k (w ++ rest)).inside = false := by
  induction w generalizing depth k with
  | nil =>
    obtain rfl : k = 0 := Nat.le_zero.1 hk
    rfl
  | cons c w ih =>
    obtain ⟨-, hmark, hw⟩ := h
    obtain ⟨hc, hquote⟩ := not_or.1 (mt List.mem_cons.2 hquote)
    rw [severs, Bool.or_eq_false_iff] at hsevers
    have hcode : ¬(c = ';' ∧ depth = 0) := by simpa using hsevers.1
    cases k with
    | zero => rfl
    | succ k =>
      rw [List.cons_append, after, step_code (Ne.symm hc) hmark, if_neg hcode]
      exact ih hw hquote hsevers.2 (Nat.le_of_succ_le_succ hk)

end LineState

/-! ## Tokens under the scan -/

/-- What the scan of a line meets at a token before the characters `behind`, where `depth`
parentheses are open before it and `after` behind it. -/
inductive Token.Scans (t : Token) (depth after : Nat) (behind : List Char) : Prop
  | endOfText (kind_eq : t.kind = .endOfText) (spelling_eq : t.spelling.toList = [])
      (behind_eq : behind = [])
  | lineComment {c : Char} {w : List Char} (kind_eq : t.kind = .lineComment)
      (spelling_eq : t.spelling.toList = c :: w) (behind_eq : behind = [])
      (step_eq : (LineState.code depth).step c w.head? = .comment)
  | blockComment {rest : List Char} (kind_eq : t.kind = .blockComment)
      (spelling_eq : t.spelling.toList = '/' :: '*' :: rest.take (Lexing.blockCommentSize rest))
      (behind_eq : behind = rest.drop (Lexing.blockCommentSize rest)) (after_eq : after = depth)
  | string {rest : List Char} (kind_eq : t.kind = .string)
      (spelling_eq : t.spelling.toList = '"' :: rest.take (Lexing.stringSize rest))
      (behind_eq : behind = rest.drop (Lexing.stringSize rest)) (after_eq : after = depth)
  | plain (kind_plain : t.kind.isPlain = true) (unmarked : Unmarked t.spelling.toList behind)
      (quote_not_mem : '"' ∉ t.spelling.toList)
      (severs_eq : severs depth t.spelling.toList = false)
      (after_eq : after = openParens depth t.spelling.toList)

theorem Lexing.blockCommentSize_le (rest : List Char) : blockCommentSize rest ≤ rest.length := by
  fun_induction blockCommentSize rest with
  | case1 => exact Nat.le_refl 0
  | case2 rest =>
    simp only [List.length_cons]
    omega
  | case3 c rest hopen ih => exact Nat.succ_le_succ ih

namespace Token

variable {t : Token} {depth after : Nat} {behind : List Char}

theorem hides_add_iff (t : Token) (k : Nat) :
    t.Hides (t.column + k : Nat) ↔
      t.IsTrailing ∧ 0 < k ∨ t.IsClosed ∧ 0 < k ∧ k + 2 ≤ t.spelling.toList.length := by
  rw [Hides, columnBehind, ← String.length_toList]
  constructor
  · rintro (⟨htrailing, hk⟩ | ⟨hclosed, hk, hle⟩)
    · exact .inl ⟨htrailing, by omega⟩
    · exact .inr ⟨hclosed, by omega, by omega⟩
  · rintro (⟨htrailing, hk⟩ | ⟨hclosed, hk, hle⟩)
    · exact .inl ⟨htrailing, by omega⟩
    · exact .inr ⟨hclosed, by omega, by omega⟩

theorem not_hides_of_kind (h : t.kind.isComment = false) (column : Int) : ¬t.Hides column := by
  intro hhides
  rw [hhides.isComment] at h
  cases h

open LineState

/-- Within a token, the scan of the line is inside a comment where the token hides the column. -/
theorem Scans.inside_iff (h : t.Scans depth after behind) (hk : k ≤ t.spelling.toList.length) :
    ((code depth).after k (t.spelling.toList ++ behind)).inside = true ↔
      t.Hides (t.column + k : Nat) := by
  cases h with
  | endOfText kind_eq spelling_eq =>
    rw [spelling_eq] at hk ⊢
    obtain rfl : k = 0 := Nat.le_zero.1 hk
    exact iff_of_false Bool.false_ne_true (not_hides_of_kind (by rw [kind_eq]; rfl) _)
  | @lineComment c w kind_eq spelling_eq behind_eq step_eq =>
    rw [hides_add_iff, spelling_eq, behind_eq, List.append_nil]
    cases k with
    | zero => simp [LineState.after, inside]
    | succ k =>
      rw [LineState.after, step_eq, after_comment]
      exact iff_of_true rfl (.inl ⟨.inl kind_eq, Nat.succ_pos k⟩)
  | @blockComment rest kind_eq spelling_eq behind_eq =>
    have hlength : (rest.take (Lexing.blockCommentSize rest)).length =
        Lexing.blockCommentSize rest :=
      List.length_take_of_le (Lexing.blockCommentSize_le rest)
    have hdrop : t.spelling.toList.drop 2 = rest.take (Lexing.blockCommentSize rest) := by
      rw [spelling_eq]
      rfl
    rw [hides_add_iff, IsTrailing, IsClosed, hdrop, kind_eq]
    rw [spelling_eq] at hk ⊢
    rw [behind_eq, List.cons_append, List.cons_append, List.take_append_drop]
    simp only [List.length_cons, hlength] at hk ⊢
    rcases k with _ | _ | k
    · simp [LineState.after, inside]
    · refine iff_of_true rfl ?_
      by_cases hmark : ['*', '/'] <:+ rest.take (Lexing.blockCommentSize rest)
      · have hle := hmark.length_le
        rw [hlength] at hle
        simp only [List.length_cons, List.length_nil] at hle
        exact .inr ⟨⟨trivial, hmark⟩, by omega, by omega⟩
      · exact .inl ⟨.inr ⟨trivial, hmark⟩, by omega⟩
    · have hstep : (code depth).after (k + 2) ('/' :: '*' :: rest) = (block depth).after k rest :=
        rfl
      rw [hstep, inside_block_iff depth rest (by omega)]
      by_cases hmark : ['*', '/'] <:+ rest.take (Lexing.blockCommentSize rest)
      · simp only [hmark, reduceCtorEq, false_or, not_true_eq_false, and_false, true_and,
          false_and, forall_const]
        omega
      · simp [hmark]
  | @string rest kind_eq spelling_eq behind_eq =>
    refine iff_of_false ?_ (not_hides_of_kind (by rw [kind_eq]; rfl) _)
    rw [spelling_eq] at hk ⊢
    rw [behind_eq, List.cons_append, List.take_append_drop, Bool.not_eq_true]
    cases k with
    | zero => rfl
    | succ k =>
      have hle := List.length_take_le (Lexing.stringSize rest) rest
      rw [List.length_cons] at hk
      exact inside_quoted depth rest (by omega)
  | plain kind_plain unmarked quote_not_mem severs_eq =>
    refine iff_of_false ?_ (not_hides_of_kind (TokenKind.isComment_of_isPlain kind_plain) _)
    rw [Bool.not_eq_true]
    exact inside_unmarked unmarked quote_not_mem severs_eq hk

/-- Behind a token, the scan is in the code again, or the line is at its end. -/
theorem Scans.across (h : t.Scans depth after behind) (hline : '\n' ∉ behind) :
    behind = [] ∨ (code depth).across t.spelling.toList behind = code after ∧ ¬t.IsTrailing := by
  cases h with
  | endOfText _ _ behind_eq => exact .inl behind_eq
  | lineComment _ _ behind_eq => exact .inl behind_eq
  | @blockComment rest kind_eq spelling_eq behind_eq after_eq =>
    rcases across_block rest depth with hcode | hnil
    · refine .inr ⟨?_, ?_⟩
      · rw [spelling_eq, behind_eq, after_eq]
        exact hcode
      · rintro (hkind | ⟨-, hopen⟩)
        · rw [kind_eq] at hkind
          cases hkind
        · rw [spelling_eq] at hopen
          have hinside := (inside_block_iff depth rest (Nat.le_refl _)).2 fun hmark =>
            absurd hmark hopen
          rw [LineState.across, List.take_append_drop,
            List.length_take_of_le (Lexing.blockCommentSize_le rest)] at hcode
          rw [hcode] at hinside
          cases hinside
    · exact .inl (behind_eq.trans hnil)
  | @string rest kind_eq spelling_eq behind_eq after_eq =>
    rcases across_string rest depth with hcode | hnil | hends
    · refine .inr ⟨?_, ?_⟩
      · rw [spelling_eq, behind_eq, after_eq]
        exact hcode
      · intro htrailing
        have hcomment := htrailing.isComment
        rw [kind_eq] at hcomment
        cases hcomment
    · exact .inl (behind_eq.trans hnil)
    · rw [← behind_eq] at hends
      exact absurd (List.mem_of_mem_head? hends) hline
  | plain kind_plain unmarked quote_not_mem severs_eq after_eq =>
    refine .inr ⟨?_, ?_⟩
    · rw [across_unmarked unmarked quote_not_mem, severs_eq, after_eq]
      rfl
    · intro htrailing
      have hcomment := htrailing.isComment
      rw [TokenKind.isComment_of_isPlain kind_plain] at hcomment
      cases hcomment

theorem not_hides_of_le {column : Nat} (h : column ≤ u.column) : ¬u.Hides (column : Int) := by
  intro hhides
  have := hhides.column_lt
  omega

/-- Behind the last token of a line, a column is hidden if the end of the token is. -/
theorem hides_beyond_iff (ht : t.spelling.toList ≠ []) (i : Nat) :
    t.Hides (t.column + (t.spelling.toList.length + i) : Nat) ↔
      t.Hides (t.column + t.spelling.toList.length : Nat) := by
  have hpos := List.length_pos_iff.2 ht
  rw [hides_add_iff, hides_add_iff]
  constructor
  · rintro (⟨htrailing, -⟩ | ⟨-, -, hle⟩)
    · exact .inl ⟨htrailing, hpos⟩
    · omega
  · rintro (⟨htrailing, -⟩ | ⟨-, -, hle⟩)
    · exact .inl ⟨htrailing, by omega⟩
    · omega

/-- **One token of a line**, behind the blanks `gap` from the column `base` on: the scan finds what
the token and those behind it hide. -/
theorem Scans.hides_cons (h : t.Scans depth after behind) {gap : List Char} {ts : List Token}
    {base : Nat} (hgap : ∀ c ∈ gap, Lexing.isWhite c = true)
    (hline : '\n' ∉ gap ++ (t.spelling.toList ++ behind)) (ht : t.spelling.toList ≠ [])
    (hcolumn : t.column = base + gap.length)
    (hlater : ∀ u ∈ ts, t.column + t.spelling.toList.length ≤ u.column)
    (hts : ∀ i, ((code after).after i behind).inside = true ↔
      ∃ u ∈ ts, u.Hides (t.column + t.spelling.toList.length + i : Nat)) (k : Nat) :
    ((code depth).after k (gap ++ (t.spelling.toList ++ behind))).inside = true ↔
      ∃ u ∈ t :: ts, u.Hides (base + k : Nat) := by
  simp only [List.mem_append, not_or] at hline
  obtain ⟨hgapline, -, hbehindline⟩ := hline
  simp only [List.mem_cons, exists_eq_or_imp]
  rcases Nat.le_total k gap.length with hk | hk
  · -- in the blanks before the token
    rw [after_blanks hgap hgapline (.inl hk)]
    refine iff_of_false Bool.false_ne_true ?_
    rintro (hhides | ⟨u, hu, hhides⟩)
    · exact not_hides_of_le (by omega) hhides
    · have := hlater u hu
      exact not_hides_of_le (by omega) hhides
  obtain ⟨j, rfl⟩ := Nat.exists_eq_add_of_le hk
  rw [after_add, across_blanks hgap hgapline, ← Nat.add_assoc, ← hcolumn]
  rcases Nat.le_total j t.spelling.toList.length with hj | hj
  · -- in the token
    rw [h.inside_iff hj]
    refine ⟨.inl, ?_⟩
    rintro (hhides | ⟨u, hu, hhides⟩)
    · exact hhides
    · have := hlater u hu
      exact absurd hhides (not_hides_of_le (by omega))
  obtain ⟨i, rfl⟩ := Nat.exists_eq_add_of_le hj
  rw [after_add]
  rcases h.across hbehindline with rfl | ⟨hcode, htrailing⟩
  · -- the token ends the line
    have hnone : ¬∃ u ∈ ts, u.Hides (t.column + t.spelling.toList.length + i : Nat) := by
      rw [← hts i, after_nil]
      exact Bool.false_ne_true
    rw [← Nat.add_assoc, or_iff_left hnone, Nat.add_assoc, hides_beyond_iff ht,
      ← h.inside_iff (Nat.le_refl _), after_nil]
    rfl
  · -- the scan is back in the code
    rw [hcode, hts i, ← Nat.add_assoc, or_iff_right]
    rw [Nat.add_assoc, hides_add_iff]
    rintro (⟨htrails, -⟩ | ⟨-, -, hle⟩)
    · exact htrailing htrails
    · omega

end Token

/-! ## Readings under the scan -/

theorem severs_of_bare (h : ∀ d ∈ w, d ∉ Lexing.separators) (depth : Nat) :
    severs depth w = false ∧ openParens depth w = depth := by
  induction w with
  | nil => exact ⟨rfl, rfl⟩
  | cons c w ih =>
    obtain ⟨hc, hw⟩ := List.forall_mem_cons.1 h
    simp only [Lexing.separators, List.mem_cons, List.not_mem_nil, or_false, not_or] at hc
    obtain ⟨hsevers, hparens⟩ := ih hw
    have hstep : parenStep depth c = depth := by simp [parenStep, hc]
    rw [severs, openParens, List.foldl_cons, hstep]
    exact ⟨by simp [hc, hsevers], hparens⟩

/-- The lexer and the scan count parentheses alike. -/
theorem parensAfter_ofChar (depth : Nat) (c : Char) :
    Lexer.parensAfter depth (TokenKind.ofChar c) = parenStep depth c := by
  unfold TokenKind.ofChar
  split <;> simp_all [parenStep, Lexer.parensAfter]

namespace Lexing

variable {ref : Option Reference} {mode : Mode} {parens : Nat} {c : Char} {cs : List Char}
  {x : Lexeme}

/-- A line comment is read where the scan of the line finds one; a mode decides only where no
comment starts. -/
theorem actionAt_scan_cases (h : actionAt ref mode parens c cs = .emit x) :
    x = lineComment cs ∧ (LineState.code parens).step c cs.head? = .comment ∨
      (∃ rest, c = '/' ∧ cs = '*' :: rest ∧ x = blockComment rest) ∨
      startsComment c cs.head? = false ∧ ¬(c = ';' ∧ parens = 0) ∧
        modeAction ref mode c cs = .emit x := by
  rcases actionAt_emit_cases h with ⟨rfl, hstart⟩ | hread
  · refine .inl ⟨rfl, ?_⟩
    rcases hstart with ⟨rfl, hslash⟩ | ⟨hmark, hc⟩
    · rw [hslash]
      rfl
    · rw [LineState.step_code (by rw [hc.1]; decide) hmark, if_pos hc]
  · exact .inr hread

/-- Outside of strings and comments, the lexer and the scan count the parentheses of a lexeme alike,
and no semicolon is left outside of them. -/
theorem Form.counts (h : Form ref c cs x) (hquote : c ≠ '"') (happ : '\'' ∉ c :: cs)
    {depth : Nat} (hsemicolon : ¬(c = ';' ∧ depth = 0)) :
    '"' ∉ c :: cs.take x.more ∧ severs depth (c :: cs.take x.more) = false ∧
      openParens depth (c :: cs.take x.more) = Lexer.parensAfter depth x.kind := by
  rcases h.marks hquote happ with ⟨hall, hkind⟩ | ⟨hmore, hkind⟩
  · obtain ⟨hsevers, hparens⟩ := severs_of_bare hall depth
    refine ⟨fun hmem => hall _ hmem (by decide), hsevers, ?_⟩
    rw [hparens, hkind]
  · rw [hmore, List.take_zero, hkind, parensAfter_ofChar]
    refine ⟨?_, ?_, rfl⟩
    · rw [List.mem_singleton]
      exact Ne.symm hquote
    · simpa [severs] using hsemicolon

theorem run_ne_lineFeed (h : '\n' ∉ cs) : run (· != '\n') cs = cs.length := by
  rw [run, List.takeWhile_eq_self_iff.2]
  intro d hd
  exact bne_iff_ne.2 fun heq => h (heq ▸ hd)

end Lexing

namespace Lexer

open Lexing

variable {ref : Option Reference} {l l' : Lexer} {t : Token}

theorem scans_emit {c : Char} {cs : List Char} {x : Lexeme}
    (hmode : l.nesting.top.mode ≠ .stringLiteral) (hline : '\n' ∉ c :: cs)
    (happ : '\'' ∉ c :: cs) (hx : actionAt ref l.nesting.top.mode l.parens c cs = .emit x) :
    (l.emit c cs x).1.Scans l.parens (parensAfter l.parens x.kind) (cs.drop x.more) := by
  have hspelling : (l.emit c cs x).1.spelling.toList = c :: cs.take x.more := by
    rw [emit_spelling l c cs (actionAt_proper hx), String.toList_ofList]
  have hkind : (l.emit c cs x).1.kind = x.kind := (emit_kind l c cs x).1
  obtain ⟨hc, hcs⟩ := not_or.1 (mt List.mem_cons.2 hline)
  rcases actionAt_scan_cases hx with ⟨rfl, hstep⟩ | ⟨rest, rfl, rfl, rfl⟩ | ⟨hmark, hsemi, hread⟩
  · have hmore : (lineComment cs).more = cs.length := run_ne_lineFeed hcs
    rw [hmore, List.take_length] at hspelling
    rw [hmore, List.drop_length]
    exact .lineComment hkind hspelling rfl hstep
  · exact .blockComment hkind hspelling rfl rfl
  · by_cases hquote : c = '"'
    · subst hquote
      have hinstruction : l.nesting.top.mode ≠ .instruction := by
        intro hmode
        rw [hmode] at hread
        exact instructionAction_ne_emit _ _ hread
      rw [modeAction_quote hinstruction] at hread
      cases hread
      exact .string hkind hspelling rfl rfl
    · obtain ⟨y, hform, hlike⟩ := modeAction_form hmode hread
      have hplain := hform.plainAt hquote (Ne.symm hc) hmark
      obtain ⟨hunquoted, hsevers, hparens⟩ := hform.counts hquote happ hsemi
      rw [hlike.more_eq] at hspelling ⊢
      rw [hlike.kind_eq] at hkind ⊢
      rw [← hspelling] at hunquoted hsevers hparens
      refine .plain ?_ ?_ hunquoted hsevers hparens.symm
      · rw [hkind]
        exact hplain.kind_plain
      · rw [hspelling]
        exact hplain.unmarked

theorem next?_scans (h : l.next? ref = some (t, l')) (hl : l.nesting.Stringless)
    (hline : '\n' ∉ l.rest) (happ : '\'' ∉ l.rest) :
    ∃ gap tail, l.Reads gap t tail l' ∧ t.Scans l.parens l'.parens (tail ++ l'.rest) := by
  obtain ⟨gap, m, hbehind, hm, ⟨hrest, rfl, rfl⟩ | ⟨c, cs, x, hrest, -, hx, hemit⟩⟩ :=
    next?_cases h (fun _ hn => hn.pop) (fun _ place hn => hn.push place (by decide) "") hl
  · refine ⟨_, _, (reads_end hrest).behind hbehind.white hbehind.rest_eq hbehind.place_eq, ?_⟩
    exact .endOfText rfl (by simp [endToken, Token.spelling, Note.none]) hrest
  · rw [hbehind.rest_eq, hrest] at hline happ
    have hscans := scans_emit hm.top_ne (fun hmem => hline (List.mem_append_right _ hmem))
      (fun hmem => happ (List.mem_append_right _ hmem)) hx
    have hreads := reads_emit hrest (actionAt_proper hx)
    have hleft : (m.emit c cs x).2.rest = (cs.drop x.more).drop x.gap := rfl
    have hparens : (m.emit c cs x).2.parens = parensAfter m.parens x.kind := rfl
    rw [hemit] at hscans hreads hleft hparens
    refine ⟨_, _, hreads.behind hbehind.white hbehind.rest_eq hbehind.place_eq, ?_⟩
    rw [hleft, List.take_append_drop, hparens, ← hbehind.parens_eq]
    exact hscans

theorem column_le_of_mem_run (hline : '\n' ∉ l.rest) (hu : u ∈ (l.run ref).1) :
    l.place.column - 1 ≤ u.column := by
  obtain ⟨read, hread, hplace⟩ := mem_run_place hu
  rw [Token.column, hplace, Place.after_line _ fun hmem => hline (hread.subset hmem)]
  exact Nat.sub_le_sub_right (Nat.le_add_right _ _) 1

open LineState

/-- **The scan of the rest of a line**, from the blanks `tail` on that the last reading took along;
they start in the column `base`. -/
theorem run_hides (ref : Option Reference) (l : Lexer) {tail : List Char} {base : Nat}
    (hl : l.nesting.Stringless) (ho : l.nesting.Orderly)
    (htail : ∀ c ∈ tail, isWhite c = true) (hplace : l.place.column = base + tail.length + 1)
    (hline : '\n' ∉ tail ++ l.rest) (happ : '\'' ∉ l.rest) (k : Nat) :
    ((code l.parens).after k (tail ++ l.rest)).inside = true ↔
      ∃ t ∈ (l.run ref).1, t.Hides (base + k : Nat) := by
  fun_induction Lexer.run ref l generalizing tail base k with
  | case1 l hnone => exact absurd hnone (next?_ne_none ho)
  | case2 l t l' hnext hend =>
    obtain ⟨gap, more, hreads⟩ := next?_reads hnext
    have hspelling : t.spelling.toList = [] :=
      String.toList_eq_nil_iff.2 (hreads.spelling_eq.1 hend)
    have hwhite : ∀ c ∈ tail ++ l.rest, isWhite c = true := by
      rw [hreads.rest_eq, hspelling, hreads.rest_end hend, List.append_nil, List.append_nil]
      exact List.forall_mem_append.2 ⟨htail, hreads.gap_white⟩
    have hblank := after_blanks hwhite hline (k := k) (.inr rfl) l.parens
    rw [List.append_nil] at hblank
    rw [hblank]
    refine iff_of_false Bool.false_ne_true ?_
    rintro ⟨u, hu, hhides⟩
    rw [List.mem_singleton.1 hu] at hhides
    exact Token.not_hides_of_kind (by rw [hend]; rfl) _ hhides
  | case3 l t l' hnext hmore ts last hrun ih =>
    obtain ⟨hline', hrestline⟩ := not_or.1 (mt List.mem_append.2 hline)
    have ho' := next?_orderly hnext ho
    obtain ⟨hl', -⟩ := next?_shape hnext hl
    obtain ⟨gap, more, hreads, hscans⟩ := next?_scans hnext hl hrestline happ
    have hrest := hreads.rest_eq
    rw [hrest] at hrestline happ
    simp only [List.mem_append, not_or] at hrestline happ
    have htplace : t.place.column = l.place.column + gap.length := by
      rw [hreads.token_place, Place.after_line _ hrestline.1]
    have hcolumn : t.column = base + (tail ++ gap).length := by
      rw [Token.column, htplace, hplace, List.length_append]
      omega
    have hl'place :
        l'.place.column = t.column + t.spelling.toList.length + more.length + 1 := by
      rw [hreads.place_eq, Place.after_line _ (by simp [hrestline]), hcolumn, hplace]
      simp only [List.length_append]
      omega
    have hts := ih hl' ho' hreads.tail_white hl'place (by simp [hrestline]) happ.2.2.2
    have hlater : ∀ u ∈ (l'.run ref).1, t.column + t.spelling.toList.length ≤ u.column := by
      intro u hu
      have hle := column_le_of_mem_run hrestline.2.2.2 hu
      omega
    rw [hrun] at hts hlater
    rw [hrest, ← List.append_assoc]
    refine hscans.hides_cons (List.forall_mem_append.2 ⟨htail, hreads.gap_white⟩) ?_ ?_ hcolumn
      hlater hts k
    · simp [hline', hrestline]
    · exact fun hnil => hmore (hreads.spelling_eq.2 (String.toList_eq_nil_iff.1 hnil))

end Lexer

/-! ## The tokens of a line -/

theorem Place.column_behind {cs : List Char} (h : '\n' ∉ cs) :
    (behind cs).column = cs.length + 1 := by
  rw [← start_after, after_line _ h, Nat.add_comm]
  rfl

section Line

variable {ref : Option Reference} {limit : Int} {text : String} {before ahead : List Char}
  {ts : List Token}

theorem Spelled.column_le (h : Spelled before ahead ts) (hline : '\n' ∉ before ++ ahead) :
    ∀ u ∈ ts, before.length ≤ u.column := by
  induction ts generalizing before ahead with
  | nil => simp
  | cons t ts ih =>
    obtain ⟨gap, behind, -, rfl, hplace, -, -, hts⟩ := h
    intro u hu
    rcases List.mem_cons.1 hu with rfl | hu
    · have hgap : '\n' ∉ before ++ gap := by
        simp only [List.mem_append, not_or] at hline ⊢
        exact ⟨hline.1, hline.2.1⟩
      rw [Token.column, hplace, Place.column_behind hgap, List.length_append]
      omega
    · have hle := ih hts (by simpa using hline) u hu
      simp only [List.length_append] at hle
      omega

theorem Spelled.ended (h : Spelled before [] ts) : ∀ u ∈ ts, u.kind = .endOfText := by
  induction ts generalizing before with
  | nil => simp
  | cons t ts ih =>
    obtain ⟨gap, behind, -, hahead, -, hend, -, hts⟩ := h
    obtain ⟨rfl, hrest⟩ := List.append_eq_nil_iff.1 hahead.symm
    obtain ⟨hspelling, rfl⟩ := List.append_eq_nil_iff.1 hrest
    intro u hu
    rcases List.mem_cons.1 hu with rfl | hu
    · exact hend.2 (String.toList_eq_nil_iff.1 hspelling)
    · exact ih hts u hu

/-- Nothing stands behind a comment without closing mark, nor behind the end of the text. -/
theorem Token.Shape.behind_eq_nil {behind : List Char} (h : t.Shape behind) (hline : '\n' ∉ behind)
    (ht : t.IsTrailing ∨ t.kind = .endOfText) : behind = [] := by
  cases h with
  | endOfText _ behind_eq => exact behind_eq
  | lineComment _ _ line_ends =>
    rcases line_ends with hnil | hhead
    · exact hnil
    · exact absurd (List.mem_of_mem_head? hhead) hline
  | blockComment kind_eq spelling_eq behind_eq =>
    rcases (Token.Scans.blockComment kind_eq spelling_eq behind_eq rfl :
      t.Scans 0 0 behind).across hline with hnil | ⟨-, htrailing⟩
    · exact hnil
    · rw [kind_eq] at ht
      exact absurd (ht.resolve_right TokenKind.noConfusion) htrailing
  | string kind_eq =>
    rcases ht with htrailing | hend
    · have hcomment := htrailing.isComment
      rw [kind_eq] at hcomment
      cases hcomment
    · rw [kind_eq] at hend
      cases hend
  | plain kind_plain =>
    rcases ht with htrailing | hend
    · have hcomment := htrailing.isComment
      rw [TokenKind.isComment_of_isPlain kind_plain] at hcomment
      cases hcomment
    · rw [hend] at kind_plain
      cases kind_plain

/-- A token of a line that stands before another one. Behind a comment without closing mark there
is only the end of the text. -/
structure Token.LeftOf (t u : Token) : Prop where
  le_column : t.columnBehind ≤ u.column
  column_lt : t.kind ≠ .endOfText → t.column < u.column
  ends : t.IsTrailing ∨ t.kind = .endOfText → u.kind = .endOfText

theorem Spelled.pairwise_leftOf (h : Spelled before ahead ts) (hline : '\n' ∉ before ++ ahead) :
    ts.Pairwise Token.LeftOf := by
  induction ts generalizing before ahead with
  | nil => exact List.Pairwise.nil
  | cons t ts ih =>
    obtain ⟨gap, behind, -, rfl, hplace, hend, hshape, hts⟩ := h
    have hmore : '\n' ∉ before ++ gap ++ t.spelling.toList ++ behind := by simpa using hline
    have hlater := hts.column_le hmore
    simp only [List.mem_append, not_or] at hline
    refine List.Pairwise.cons ?_ (ih hts hmore)
    intro u hu
    have hgap : '\n' ∉ before ++ gap := by simp [hline]
    have hcolumn : t.column = (before ++ gap).length := by
      rw [Token.column, hplace, Place.column_behind hgap, Nat.add_sub_cancel]
    have hle : t.column + t.spelling.toList.length ≤ u.column := by
      rw [hcolumn, ← List.length_append]
      exact hlater u hu
    refine ⟨?_, ?_, ?_⟩
    · rw [Token.columnBehind, ← String.length_toList]
      exact hle
    · intro hkind
      have hpos : 0 < t.spelling.toList.length :=
        List.length_pos_iff.2 fun hnil => hkind (hend.2 (String.toList_eq_nil_iff.1 hnil))
      omega
    · intro hlast
      rw [hshape.behind_eq_nil hline.2.2.2 hlast] at hts
      exact hts.ended u hu

/-- The tokens of a line without character literals hide what the scan of the line finds. -/
theorem inComment_iff_hides (hline : '\n' ∉ text.toList) (happ : '\'' ∉ text.toList)
    (ref : Option Reference) (limit : Int) (column : Int) :
    inComment text column = true ↔ ∃ t ∈ (tokenize ref limit text).1, t.Hides column := by
  rcases Int.lt_or_le column 0 with hneg | hpos
  · -- columns before the line are in the code, and no token hides them
    rw [inComment, Int.toNat_of_nonpos (Int.le_of_lt hneg)]
    refine iff_of_false Bool.false_ne_true ?_
    rintro ⟨t, -, hhides⟩
    have := hhides.column_lt
    omega
  · obtain ⟨k, rfl⟩ := Int.eq_ofNat_of_zero_le hpos
    have hrun : ((LineState.code 0).after k ([] ++ text.toList)).inside = true ↔
        ∃ t ∈ (tokenize ref limit text).1, t.Hides (0 + k : Nat) :=
      Lexer.run_hides ref (Lexer.ofText limit text) (Nesting.stringless_ofLimit limit)
        (Nesting.orderly_ofLimit limit) (fun _ hc => absurd hc List.not_mem_nil) rfl hline happ k
    rw [Nat.zero_add] at hrun
    rw [inComment, Int.toNat_natCast]
    exact hrun

/-- Two tokens of a line stand side by side, in one order or the other. -/
theorem tokenize_leftOf_or (hline : '\n' ∉ text.toList) (ht : t ∈ (tokenize ref limit text).1)
    (hu : u ∈ (tokenize ref limit text).1) (hne : t ≠ u) : t.LeftOf u ∨ u.LeftOf t :=
  rel_or_rel_of_pairwise ((tokenize_spelled ref limit text).pairwise_leftOf hline) ht hu hne

/-- The start of a token is hidden by no token, but for the end of the text. -/
theorem not_hides_column (hline : '\n' ∉ text.toList) (ht : t ∈ (tokenize ref limit text).1)
    (hu : u ∈ (tokenize ref limit text).1) (hkind : u.kind ≠ .endOfText) : ¬t.Hides u.column := by
  intro hhides
  have hlt := hhides.column_lt
  by_cases hne : t = u
  · subst hne
    omega
  rcases tokenize_leftOf_or hline ht hu hne with ⟨hle, -, hlast⟩ | ⟨hle, -, -⟩
  · rcases hhides with ⟨htrailing, -⟩ | ⟨-, -, hbefore⟩
    · exact hkind (hlast (.inl htrailing))
    · omega
  · rw [Token.columnBehind] at hle
    omega

/-- The end of the text is hidden by the comments without closing mark. -/
theorem hides_end_iff (hline : '\n' ∉ text.toList) (ht : t ∈ (tokenize ref limit text).1)
    (hu : u ∈ (tokenize ref limit text).1) (hkind : u.kind = .endOfText) :
    t.Hides u.column ↔ t.IsTrailing := by
  constructor
  · intro hhides
    have hlt := hhides.column_lt
    by_cases hne : t = u
    · subst hne
      omega
    rcases hhides with ⟨htrailing, -⟩ | ⟨-, -, hbefore⟩
    · exact htrailing
    · rcases tokenize_leftOf_or hline ht hu hne with ⟨hle, -, -⟩ | ⟨hle, -, -⟩
      · omega
      · rw [Token.columnBehind] at hle
        omega
  · intro htrailing
    have hcomment := htrailing.isComment
    have hne : t.kind ≠ .endOfText := by
      intro hend
      rw [hend] at hcomment
      cases hcomment
    rcases tokenize_leftOf_or hline ht hu (fun heq => hne (heq ▸ hkind)) with hleft | hright
    · exact .inl ⟨htrailing, Int.ofNat_lt.2 (hleft.column_lt hne)⟩
    · exact absurd (hright.ends (.inr hkind)) hne

/-- **On one line the scan and the lexer find the same comments.** A column of a text without line
feeds and apostrophes is in a comment exactly if it lies behind the start of a line comment or of a
block comment without closing mark, or behind the start of a closed one and not behind the start of
its closing mark. So columns at or before the start of every comment, or behind its end, are in
none; the start of a token is such a column. The end of the text is in a comment if there is one
without closing mark. -/
theorem inComment_tokens_agree {text : String} (hline : '\n' ∉ text.toList)
    (happ : '\'' ∉ text.toList) (ref : Option Reference) (limit : Int) :
    (∀ column : Int, inComment text column = true ↔
        ∃ t ∈ (tokenize ref limit text).1,
          t.IsTrailing ∧ t.column < column ∨
            t.IsClosed ∧ t.column < column ∧ column ≤ (t.columnBehind : Int) - 2) ∧
      (∀ column : Int,
        (∀ t ∈ (tokenize ref limit text).1, t.kind.isComment = true →
          column ≤ t.column ∨ t.IsClosed ∧ t.columnBehind ≤ column) →
        inComment text column = false) ∧
      (∀ t ∈ (tokenize ref limit text).1, t.kind ≠ .endOfText →
        inComment text t.column = false) ∧
      ∀ t ∈ (tokenize ref limit text).1, t.kind = .endOfText →
        (inComment text t.column = true ↔ ∃ u ∈ (tokenize ref limit text).1, u.IsTrailing) := by
  have hiff := inComment_iff_hides hline happ ref limit
  refine ⟨hiff, ?_, ?_, ?_⟩
  · intro column hclear
    rw [← Bool.not_eq_true, hiff]
    rintro ⟨t, ht, hhides⟩
    have hlt := hhides.column_lt
    rcases hclear t ht hhides.isComment with hle | ⟨hclosed, hle⟩
    · omega
    · rcases hhides with ⟨htrailing, -⟩ | ⟨-, -, hbefore⟩
      · exact htrailing.not_isClosed hclosed
      · omega
  · intro u hu hkind
    rw [← Bool.not_eq_true, hiff]
    rintro ⟨t, ht, hhides⟩
    exact not_hides_column hline ht hu hkind hhides
  · intro u hu hkind
    rw [hiff]
    exact exists_congr fun t => and_congr_right fun ht => hides_end_iff hline ht hu hkind

end Line

open Grammar

/-- A semicolon in parentheses, marks in a string, and comments of both kinds. -/
def markedText : String :=
  "f(;)\"//\"/**/x;/*"

def markedTokens : List Token :=
  [plainToken .identifier "f" 1 1, plainToken .leftParen "(" 1 2, plainToken .semicolon ";" 1 3,
    plainToken .rightParen ")" 1 4, plainToken .string "\"//\"" 1 5,
    plainToken .blockComment "/**/" 1 9, plainToken .identifier "x" 1 13,
    plainToken .lineComment ";/*" 1 14, plainToken .endOfText "" 1 17]

/-- In `markedText` the closed comment hides the column of its closing mark, but not the one behind
it, and the other comment hides the end of the text. -/
theorem inComment_tokens_agree_marked :
    '\n' ∉ markedText.toList ∧ '\'' ∉ markedText.toList ∧
      (tokenize none 128 markedText).1 = markedTokens ∧
      inComment markedText 10 = true ∧ inComment markedText 12 = false ∧
      (∀ t ∈ markedTokens, t.kind ≠ .endOfText → inComment markedText t.column = false) ∧
      inComment markedText 16 = true := by
  have hline : '\n' ∉ markedText.toList := by decide
  have happ : '\'' ∉ markedText.toList := by decide
  have hread : (tokenize none 128 markedText).1 = markedTokens ∧
      (tokenize none 128 markedText).2.nesting.overflow = none :=
    tokenize_of_session markedTokens.length (by cbv) (by decide)
  have htokens := hread.1
  obtain ⟨hiff, hclear, hstarts, hend⟩ := inComment_tokens_agree hline happ none 128
  rw [htokens] at hiff hclear hstarts hend
  refine ⟨hline, happ, htokens, (hiff 10).2 ?_, hclear 12 ?_, hstarts, ?_⟩
  · exact ⟨plainToken .blockComment "/**/" 1 9, by decide, by decide +kernel⟩
  · decide +kernel
  · exact (hend (plainToken .endOfText "" 1 17) (by decide) rfl).2
      ⟨plainToken .lineComment ";/*" 1 14, by decide, .inl rfl⟩

/-- The end of the text is a token too, and behind a comment it starts in the comment. -/
theorem inComment_end_of_comment :
    '\n' ∉ ";".toList ∧ '\'' ∉ ";".toList ∧
      ∃ t ∈ (tokenize none 128 ";").1, inComment ";" t.column = true := by
  have hread : (tokenize none 128 ";").1 =
        [plainToken .lineComment ";" 1 1, plainToken .endOfText "" 1 2] ∧
      (tokenize none 128 ";").2.nesting.overflow = none :=
    tokenize_of_session 2 (by cbv) (by decide)
  rw [hread.1]
  exact ⟨by decide, by decide, plainToken .endOfText "" 1 2, by decide, by decide⟩

end Asm6510
