import Asm6510.Proofs.Token.LineComment
import Asm6510.Proofs.Token.Wholes
import Mathlib

/-!
# Carriage returns before line feeds

A carriage return is a blank, and no number, name or operator goes on with one. So a text reads the
same with carriage returns before its line feeds. What goes on to the end of a line takes the
carriage return along: line comments, strings that are not closed, and the blanks behind the comma
of an operand. Block comments go on over it.

* `withReturns`: the characters of a text with carriage returns before its line feeds.
* `Place.charIn?`: the character at a place.
* `Token.withReturns`: a token as it is read then, given the character behind it.
* `Lexer.withReturns`: the state of reading in such a text.

Main statement: `tokenize_withReturns`, the tokens of a text with carriage returns. It follows from
the step `Lexer.next?_withReturns`: the next reading gives the same token, and what is read behind
it is the same.
-/

namespace Asm6510

open Lexing

/-- The characters with a carriage return before every line feed. -/
def withReturns (cs : List Char) : List Char :=
  cs.flatMap fun c => if c = '\n' then ['\r', '\n'] else [c]

/-- The character at the place `p` in characters that start at another place. -/
def Place.charIn? (p : Place) : Place → List Char → Option Char
  | _, [] => none
  | q, c :: cs => if q = p then some c else p.charIn? (q.next c) cs

namespace Token

/-- Tokens that only the end of the line ends: line comments, and strings that are not closed. -/
def isOpen (t : Token) : Bool :=
  match t.kind with
  | .lineComment => true
  | .string => !closesString t.literal.toList.tail
  | _ => false

/-- The token as it is read with carriage returns before the line feeds, given the character behind
it: block comments have them inside, and what goes on to the end of a line has one at its end. -/
def withReturns (t : Token) (following : Option Char) : Token :=
  { t with
    literal :=
      if t.kind = .blockComment then String.ofList (Asm6510.withReturns t.literal.toList)
      else if t.isOpen = true ∧ following = some '\n' then t.literal ++ "\r"
      else t.literal }

end Token

/-! ## Characters and places -/

section Characters

variable {c : Char} {cs ds w : List Char}

@[simp] theorem withReturns_nil : withReturns [] = [] := rfl

@[simp] theorem withReturns_line_feed :
    withReturns ('\n' :: cs) = '\r' :: '\n' :: withReturns cs := rfl

theorem withReturns_cons (hc : c ≠ '\n') : withReturns (c :: cs) = c :: withReturns cs := by
  simp [withReturns, hc]

theorem withReturns_append (cs ds : List Char) :
    withReturns (cs ++ ds) = withReturns cs ++ withReturns ds :=
  List.flatMap_append

theorem withReturns_of_line (h : '\n' ∉ cs) : withReturns cs = cs := by
  induction cs with
  | nil => rfl
  | cons c cs ih =>
    obtain ⟨hc, hcs⟩ := not_or.1 (mt List.mem_cons.2 h)
    rw [withReturns_cons (Ne.symm hc), ih hcs]

/-- The first line, if there are others. -/
theorem withReturns_line (hw : '\n' ∉ w) :
    withReturns (w ++ '\n' :: cs) = w ++ '\r' :: '\n' :: withReturns cs := by
  rw [withReturns_append, withReturns_of_line hw, withReturns_line_feed]

/-- The marks of comments do not come with the carriage returns. -/
theorem head?_of_withReturns {d : Char} (hd : d = '/' ∨ d = '*')
    (h : (withReturns cs).head? = some d) : cs.head? = some d := by
  cases cs with
  | nil => exact h
  | cons e cs =>
    by_cases he : e = '\n'
    · subst he
      rcases hd with rfl | rfl
      · cases h
      · cases h
    · rwa [withReturns_cons he] at h

theorem ofList_return (w : List Char) :
    String.ofList (w ++ ['\r']) = String.ofList w ++ "\r" :=
  String.ofList_append

theorem take_withReturns (n : Nat) (cs : List Char) :
    (withReturns cs).take (withReturns (cs.take n)).length = withReturns (cs.take n) := by
  conv_lhs => rw [← List.take_append_drop n cs, withReturns_append]
  rw [List.take_append_drop, List.take_left]

theorem drop_withReturns (n : Nat) (cs : List Char) :
    (withReturns cs).drop (withReturns (cs.take n)).length = withReturns (cs.drop n) := by
  conv_lhs => rw [← List.take_append_drop n cs, withReturns_append]
  rw [List.take_append_drop, List.drop_left]

theorem take_drop_of_line {n : Nat} (h : '\n' ∉ cs.take n) :
    (withReturns cs).take n = cs.take n ∧ (withReturns cs).drop n = withReturns (cs.drop n) := by
  rcases Nat.le_total n cs.length with hn | hn
  · have hlength : (withReturns (cs.take n)).length = n := by
      rw [withReturns_of_line h, List.length_take_of_le hn]
    have htake := take_withReturns n cs
    have hdrop := drop_withReturns n cs
    rw [hlength] at htake hdrop
    exact ⟨htake.trans (withReturns_of_line h), hdrop⟩
  · rw [List.take_of_length_le hn] at h ⊢
    rw [withReturns_of_line h, List.take_of_length_le hn, List.drop_eq_nil_of_le hn]
    exact ⟨rfl, rfl⟩

namespace Place

theorem after_withReturns (p : Place) (cs : List Char) :
    p.after (withReturns cs) = p.after cs := by
  induction cs generalizing p with
  | nil => rfl
  | cons c cs ih =>
    by_cases hc : c = '\n'
    · subst hc
      rw [withReturns_line_feed, after_cons, after_cons, after_cons, ih]
      rw [next_line_feed (p := p.next '\r') (q := p) rfl]
    · rw [withReturns_cons hc, after_cons, after_cons, ih]

theorem charIn?_after (q : Place) (front rest : List Char) :
    (q.after front).charIn? q (front ++ rest) = rest.head? := by
  induction front generalizing q with
  | nil =>
    cases rest with
    | nil => rfl
    | cons c rest => exact if_pos rfl
  | cons c front ih =>
    have hne : q ≠ q.after (c :: front) := by
      intro heq
      have hbefore := q.before_after (List.cons_ne_nil c front)
      rw [← heq, before_iff] at hbefore
      omega
    rw [List.cons_append, charIn?, if_neg hne]
    exact ih (q.next c)

end Place

end Characters

/-! ## Lexemes -/

namespace Lexing

section Lexemes

variable {ref : Option Reference} {c : Char} {cs w rest : List Char}

theorem blockCommentSize_withReturns (cs : List Char) :
    blockCommentSize (withReturns cs) =
      (withReturns (cs.take (blockCommentSize cs))).length := by
  fun_induction blockCommentSize cs with
  | case1 => rfl
  | case2 cs =>
    rw [withReturns_cons (by decide), withReturns_cons (by decide), blockCommentSize]
    rfl
  | case3 c cs hend ih =>
    have hgoes : ¬(c = '*' ∧ (withReturns cs).head? = some '/') := by
      rintro ⟨rfl, hhead⟩
      obtain ⟨v, rfl⟩ := List.head?_eq_some_iff.1 (head?_of_withReturns (.inl rfl) hhead)
      exact hend v rfl rfl
    rw [List.take_succ_cons]
    by_cases hc : c = '\n'
    · subst hc
      rw [withReturns_line_feed, withReturns_line_feed, blockCommentSize_cons (by simp),
        blockCommentSize_cons (by simp), ih]
      rfl
    · rw [withReturns_cons hc, withReturns_cons hc, blockCommentSize_cons hgoes, ih]
      rfl

/-- A string that is not closed goes on to the end of its line, over a carriage return there. -/
theorem stringSize_open (hw : '\n' ∉ w)
    (h : closesString ((w ++ '\n' :: rest).take (stringSize (w ++ '\n' :: rest))) = false)
    (other : List Char) :
    stringSize (w ++ '\n' :: rest) = w.length ∧
      stringSize (w ++ '\r' :: '\n' :: other) = w.length + 1 := by
  fun_induction stringSize w with
  | case1 => exact ⟨rfl, rfl⟩
  | case2 w => cases h
  | case3 w => exact absurd List.mem_cons_self hw
  | case4 => exact ⟨rfl, rfl⟩
  | case5 w => exact absurd (List.mem_cons_of_mem _ List.mem_cons_self) hw
  | case6 e w he ih =>
    have hcloses : ∀ v, closesString ('\\' :: e :: v) = closesString v := fun v => by
      rw [closesString]
      exact he
    simp only [List.cons_append, stringSize_escape he, List.take_succ_cons, hcloses] at h ⊢
    obtain ⟨hline, hreturn⟩ := ih (fun hmem => hw (by simp [hmem])) h
    rw [hline, hreturn]
    exact ⟨rfl, rfl⟩
  | case7 e w hquote hline hlast hends hmore ih =>
    have hslash := ne_backslash hlast hmore
    have hcloses : ∀ v, closesString (e :: v) = closesString v := fun v => by
      rw [closesString] <;> simp_all
    simp only [List.cons_append, stringSize_plain hquote hline hslash, List.take_succ_cons,
      hcloses] at h ⊢
    obtain ⟨hline, hreturn⟩ := ih (fun hmem => hw (List.mem_cons_of_mem e hmem)) h
    rw [hline, hreturn]
    exact ⟨rfl, rfl⟩

theorem not_mem_of_closesString (h : closesString w = true) : '\n' ∉ w := by
  fun_induction closesString w with
  | case1 => exact List.not_mem_nil
  | case2 w =>
    rw [List.isEmpty_iff.1 h]
    decide
  | case3 w => cases h
  | case4 => cases h
  | case5 w => cases h
  | case6 e w he ih =>
    simp only [List.mem_cons, not_or]
    exact ⟨by decide, fun heq => he heq.symm, ih h⟩
  | case7 e w hquote hline hlast hends hmore ih =>
    simp only [List.mem_cons, not_or]
    exact ⟨fun heq => hline heq.symm, ih h⟩

/-- The blanks behind the comma of an operand end before the end of the line, or with the carriage
return there. -/
theorem operandComma_return (w rest other : List Char) :
    operandComma ',' (w ++ '\r' :: '\n' :: other) = operandComma ',' w ∨
      operandComma ',' (w ++ '\n' :: rest) = { operator ',' [] with gap := w.length } ∧
        operandComma ',' (w ++ '\r' :: '\n' :: other) =
          { operator ',' [] with gap := w.length + 1 } := by
  have hoperator : ∀ cs, operator ',' cs = operator ',' [] := by
    intro cs
    cases cs with
    | nil => rfl
    | cons d cs => rfl
  by_cases hall : ∀ d ∈ w, isLineBlank d = true
  · right
    have hline : run isLineBlank (w ++ '\n' :: rest) = w.length := by
      rw [run, List.takeWhile_append_of_pos hall]
      simp [isLineBlank]
    have hreturn : run isLineBlank (w ++ '\r' :: '\n' :: other) = w.length + 1 := by
      rw [run, List.takeWhile_append_of_pos hall]
      simp [isLineBlank]
    have hbehind : (w ++ '\r' :: '\n' :: other).drop (w.length + 1) = '\n' :: other := by
      rw [← List.drop_drop, List.drop_left]
      rfl
    unfold operandComma
    dsimp only
    rw [hline, hreturn, List.drop_left, hbehind, hoperator, hoperator (w ++ '\r' :: '\n' :: other)]
    exact ⟨rfl, rfl⟩
  · left
    have hrun : run isLineBlank (w ++ '\r' :: '\n' :: other) = run isLineBlank w := by
      have hlength : (w.takeWhile isLineBlank).length ≠ w.length := by
        intro hlength
        have heq := (List.takeWhile_prefix isLineBlank).eq_of_length hlength
        exact hall (List.takeWhile_eq_self_iff.1 heq)
      rw [run, List.takeWhile_append, if_neg hlength]
      rfl
    unfold operandComma
    dsimp only
    rw [hrun, drop_run_append, isLoneRegister_ends (by decide), hoperator, hoperator w]

/-- What is read in a mode is the same before a line feed and before a carriage return. -/
theorem modeAction_return {mode : Mode} (hc : c ≠ '"') (hmode : mode ≠ .stringLiteral)
    (w rest other : List Char) :
    modeAction ref mode c (w ++ '\r' :: '\n' :: other) =
        modeAction ref mode c (w ++ '\n' :: rest) ∨
      c = ',' ∧ modeAction ref mode c (w ++ '\n' :: rest) =
          .emit { operator ',' [] with gap := w.length } ∧
        modeAction ref mode c (w ++ '\r' :: '\n' :: other) =
          .emit { operator ',' [] with gap := w.length + 1 } := by
  have hreturn : Divides (c :: w) '\r' ('\n' :: other) := ⟨by decide, fun _ => .inr (by simp)⟩
  have hline : modeAction ref mode c (w ++ '\n' :: rest) = modeAction ref mode c w :=
    modeAction_stop ⟨rfl, fun _ => .inl rfl⟩ hc hmode
  by_cases hcomma : mode = .operand ∧ c = ','
  · obtain ⟨rfl, rfl⟩ := hcomma
    rcases operandComma_return w rest other with hsame | ⟨hl, hr⟩
    · exact .inl ((modeAction_divides hreturn hc hmode fun _ _ => hsame).trans hline.symm)
    · exact .inr ⟨rfl, congrArg Action.emit hl, congrArg Action.emit hr⟩
  · refine .inl ((modeAction_divides hreturn hc hmode fun hoperand heq => ?_).trans hline.symm)
    exact absurd ⟨hoperand, heq⟩ hcomma

theorem modeAction_withReturns {mode : Mode} (hc : c ≠ '"') (hmode : mode ≠ .stringLiteral)
    (ref : Option Reference) (cs : List Char) :
    modeAction ref mode c (withReturns cs) = modeAction ref mode c cs ∨
      ∃ w rest, '\n' ∉ w ∧ cs = w ++ '\n' :: rest ∧ c = ',' ∧
        modeAction ref mode c cs = .emit { operator ',' [] with gap := w.length } ∧
        modeAction ref mode c (withReturns cs) =
          .emit { operator ',' [] with gap := w.length + 1 } := by
  by_cases hline : '\n' ∈ cs
  · obtain ⟨w, rest, rfl, hw⟩ := List.eq_append_cons_of_mem hline
    rw [withReturns_line hw]
    rcases modeAction_return hc hmode w rest (withReturns rest) with
      hsame | ⟨hcomma, hl, hr⟩
    · exact .inl hsame
    · exact .inr ⟨w, rest, hw, rfl, hcomma, hl, hr⟩
  · exact .inl (by rw [withReturns_of_line hline])

/-- No comment with a slash starts only because of the carriage returns. -/
theorem no_slash_withReturns {d : Char} (hd : d = '/' ∨ d = '*')
    (h : ¬(c = '/' ∧ cs.head? = some d)) : ¬(c = '/' ∧ (withReturns cs).head? = some d) :=
  fun ⟨hc, hhead⟩ => h ⟨hc, head?_of_withReturns hd hhead⟩

end Lexemes

end Lexing

/-! ## One lexeme -/

namespace Lexer

/-- The state of reading with carriage returns before the line feeds ahead. -/
def withReturns (l : Lexer) : Lexer :=
  { l with rest := Asm6510.withReturns l.rest }

section Emit

variable {ref : Option Reference} {s : Lexer} {c : Char} {cs : List Char} {x : Lexeme}

/-- Where a carriage return was read along, the next reading is the same. -/
theorem next?_return_taken {p q : Place} (h : p.line = q.line) (cs : List Char) (parens : Nat)
    (n : Nesting) :
    next? ref ⟨'\n' :: Asm6510.withReturns cs, p, parens, n⟩ =
      (withReturns ⟨'\n' :: cs, q, parens, n⟩).next? ref := by
  have hskip : next? ref ⟨'\r' :: '\n' :: Asm6510.withReturns cs, q, parens, n⟩ =
      next? ref ⟨'\n' :: Asm6510.withReturns cs, q.next '\r', parens, n⟩ := by
    apply next?_eq_of_skipBlanks
    simp [skipBlanks, isSkipped, isLineBlank]
  exact (next?_line_feed (q := q.next '\r') h _ parens n).trans hskip.symm

theorem isOpen_of_isPlain {t : Token} (h : t.kind.isPlain = true) : t.isOpen = false := by
  unfold Token.isOpen
  split
  · next hkind =>
    rw [hkind] at h
    cases h
  · next hkind =>
    rw [hkind] at h
    cases h
  · rfl

theorem not_mem_of_unmarked {w rest : List Char} (h : Unmarked w rest) : '\n' ∉ w := by
  induction w with
  | nil => exact List.not_mem_nil
  | cons c w ih =>
    rw [List.mem_cons, not_or]
    exact ⟨Ne.symm h.1, ih h.2.2⟩

theorem withReturns_of_head {t : Token} {following : Option Char} (hkind : t.kind ≠ .blockComment)
    (h : t.isOpen = false ∨ following ≠ some '\n') : t.withReturns following = t := by
  have hopen : ¬(t.isOpen = true ∧ following = some '\n') := by
    rintro ⟨hopen, hfollowing⟩
    rcases h with h | h
    · rw [h] at hopen
      cases hopen
    · exact h hfollowing
  unfold Token.withReturns
  rw [if_neg hkind, if_neg hopen]

theorem emit_of_line (hmore : '\n' ∉ cs.take x.more) (hgap : '\n' ∉ (cs.drop x.more).take x.gap) :
    s.emit c (Asm6510.withReturns cs) x =
      ((s.emit c cs x).1, (s.emit c cs x).2.withReturns) := by
  obtain ⟨htake, hdrop⟩ := take_drop_of_line hmore
  obtain ⟨htakeGap, hdropGap⟩ := take_drop_of_line hgap
  unfold emit withReturns
  simp only [htake, hdrop, htakeGap, hdropGap]

/-- The lexeme `x'` is read with carriage returns where `x` is read without them: it gives the same
token but for the carriage returns in it, and what is read behind it is the same. -/
structure ReadsAlike (ref : Option Reference) (s : Lexer) (c : Char) (cs : List Char)
    (x x' : Lexeme) : Prop where
  token : (s.emit c (Asm6510.withReturns cs) x').1 =
    (s.emit c cs x).1.withReturns (cs.drop x.more).head?
  behind : (s.emit c (Asm6510.withReturns cs) x').2.next? ref =
    (s.emit c cs x).2.withReturns.next? ref

theorem readsAlike_of_line (hmore : '\n' ∉ cs.take x.more)
    (hgap : '\n' ∉ (cs.drop x.more).take x.gap) (hkind : (s.emit c cs x).1.kind ≠ .blockComment)
    (hopen : (s.emit c cs x).1.isOpen = false ∨ (cs.drop x.more).head? ≠ some '\n') :
    ReadsAlike ref s c cs x x := by
  have hemit := emit_of_line (s := s) (c := c) hmore hgap
  exact ⟨by rw [hemit, withReturns_of_head hkind hopen], by rw [hemit]⟩

theorem readsAlike_lineComment (s : Lexer) (c : Char) (cs : List Char) :
    ReadsAlike ref s c cs (lineComment cs) (lineComment (Asm6510.withReturns cs)) := by
  have hdrop : cs.drop (lineComment cs).more = cs.dropWhile (· != '\n') := drop_run _ cs
  by_cases hline : '\n' ∈ cs
  · obtain ⟨w, rest, rfl, hw⟩ := List.eq_append_cons_of_mem hline
    obtain ⟨htake, hrest⟩ : (w ++ '\n' :: rest).takeWhile (· != '\n') = w ∧
        (w ++ '\n' :: rest).dropWhile (· != '\n') = '\n' :: rest :=
      takeWhile_line hw (.inr rfl)
    obtain ⟨htake', hrest'⟩ : (w ++ '\r' :: '\n' :: Asm6510.withReturns rest).takeWhile
        (· != '\n') = w ++ ['\r'] ∧ (w ++ '\r' :: '\n' :: Asm6510.withReturns rest).dropWhile
        (· != '\n') = '\n' :: Asm6510.withReturns rest := by
      rw [List.append_cons]
      exact takeWhile_line (by simpa using hw) (.inr rfl)
    rw [withReturns_line hw]
    refine ⟨?_, ?_⟩
    · rw [hdrop, withReturns_line hw, emit_lineComment, emit_lineComment, htake, htake', hrest]
      exact congrArg (Token.mk .lineComment · s.place s.nesting.endLine.top Note.none)
        (ofList_return (c :: w))
    · rw [withReturns_line hw, emit_lineComment, emit_lineComment, htake, hrest, htake', hrest']
      refine next?_return_taken ?_ rest _ _
      rw [← List.cons_append, Place.after_append]
      rfl
  · have hnone : (cs.drop (lineComment cs).more).head? ≠ some '\n' := fun h =>
      hline (List.mem_of_mem_drop (List.mem_of_head? h))
    rw [withReturns_of_line hline]
    refine readsAlike_of_line (fun h => hline (List.mem_of_mem_take h)) ?_ ?_ (.inr hnone)
    · exact List.not_mem_nil
    · rw [(emit_kind s c cs _).1]
      exact TokenKind.noConfusion

theorem readsAlike_blockComment (s : Lexer) (rest : List Char) :
    ReadsAlike ref s '/' ('*' :: rest) (blockComment rest)
      (blockComment (Asm6510.withReturns rest)) := by
  have hmore : (blockComment (Asm6510.withReturns rest)).more =
      (Asm6510.withReturns (('*' :: rest).take (blockComment rest).more)).length := by
    show blockCommentSize _ + 1 = _
    rw [blockCommentSize_withReturns]
    rfl
  have htake := take_withReturns (blockComment rest).more ('*' :: rest)
  have hdrop := drop_withReturns (blockComment rest).more ('*' :: rest)
  rw [← hmore] at htake hdrop
  have hspelled : '/' :: Asm6510.withReturns (('*' :: rest).take (blockComment rest).more) =
      Asm6510.withReturns ('/' :: ('*' :: rest).take (blockComment rest).more) := rfl
  refine ⟨?_, ?_⟩
  · show Token.mk .blockComment (String.ofList ('/' :: (Asm6510.withReturns ('*' :: rest)).take _))
      s.place s.nesting.top Note.none = Token.mk .blockComment (String.ofList
        (Asm6510.withReturns (String.ofList ('/' :: ('*' :: rest).take _)).toList))
      s.place s.nesting.top Note.none
    rw [htake, String.toList_ofList, hspelled]
  · unfold emit withReturns
    simp only [htake, hdrop]
    rw [hspelled, Place.after_withReturns]
    rfl

theorem emit_string {w rest : List Char} (s : Lexer) (c : Char)
    (h : stringSize (w ++ rest) = w.length) :
    s.emit c (w ++ rest) (string (w ++ rest)) =
      (⟨.string, String.ofList (c :: w), s.place,
          (s.nesting.push s.place .stringLiteral "").pop.top, Note.none⟩,
        ⟨rest, s.place.after (c :: w), s.parens,
          (s.nesting.push s.place .stringLiteral "").pop⟩) := by
  have htake : (w ++ rest).take (string (w ++ rest)).more = w := by
    show (w ++ rest).take (stringSize (w ++ rest)) = w
    rw [h, List.take_left]
  have hdrop : (w ++ rest).drop (string (w ++ rest)).more = rest := by
    show (w ++ rest).drop (stringSize (w ++ rest)) = rest
    rw [h, List.drop_left]
  unfold emit
  rw [htake, hdrop]
  rfl

theorem readsAlike_string (s : Lexer) (c : Char) (cs : List Char) :
    ReadsAlike ref s c cs (string cs) (string (Asm6510.withReturns cs)) := by
  have hkind : (s.emit c cs (string cs)).1.kind ≠ .blockComment := by
    rw [(emit_kind s c cs _).1]
    exact TokenKind.noConfusion
  have hopen : (s.emit c cs (string cs)).1.isOpen = !closesString (cs.take (stringSize cs)) := by
    show (!closesString (String.ofList (c :: cs.take (stringSize cs))).toList.tail) = _
    rw [String.toList_ofList]
    rfl
  cases hcloses : closesString (cs.take (stringSize cs)) with
  | true =>
    have hline := not_mem_of_closesString hcloses
    have hsame : string (Asm6510.withReturns cs) = string cs := by
      have hwhole := stringSize_of_closes hcloses (Asm6510.withReturns (cs.drop (stringSize cs)))
      have hlength := stringSize_of_closes hcloses (cs.drop (stringSize cs))
      rw [← withReturns_of_line hline, ← withReturns_append, List.take_append_drop,
        withReturns_of_line hline] at hwhole
      rw [List.take_append_drop] at hlength
      rw [string, string, hwhole, ← hlength]
    rw [hcloses] at hopen
    rw [hsame]
    exact readsAlike_of_line hline List.not_mem_nil hkind (.inl hopen)
  | false =>
    by_cases hline : '\n' ∈ cs
    · obtain ⟨w, rest, rfl, hw⟩ := List.eq_append_cons_of_mem hline
      obtain ⟨hsize, hreturn⟩ :=
        stringSize_open hw hcloses (Asm6510.withReturns rest)
      have hsplit : w ++ '\r' :: '\n' :: Asm6510.withReturns rest =
          (w ++ ['\r']) ++ '\n' :: Asm6510.withReturns rest := by simp
      have hreturn' : stringSize ((w ++ ['\r']) ++ '\n' :: Asm6510.withReturns rest) =
          (w ++ ['\r']).length := by
        rw [← hsplit, hreturn, List.length_append]
        rfl
      have hfollowing : ((w ++ '\n' :: rest).drop (string (w ++ '\n' :: rest)).more).head? =
          some '\n' := by
        show ((w ++ '\n' :: rest).drop (stringSize (w ++ '\n' :: rest))).head? = _
        rw [hsize, List.drop_left]
        rfl
      rw [hcloses] at hopen
      rw [withReturns_line hw, hsplit]
      refine ⟨?_, ?_⟩
      · rw [withReturns_line hw, hsplit, emit_string s c hreturn', hfollowing, Token.withReturns,
          if_neg hkind, if_pos ⟨hopen, rfl⟩, emit_string s c hsize]
        exact congrArg (Token.mk .string · _ _ _) (ofList_return (c :: w))
      · rw [withReturns_line hw, hsplit, emit_string s c hreturn', emit_string s c hsize]
        refine next?_return_taken ?_ rest _ _
        rw [← List.cons_append, Place.after_append]
        rfl
    · have hnone : (cs.drop (string cs).more).head? ≠ some '\n' := fun h =>
        hline (List.mem_of_mem_drop (List.mem_of_head? h))
      rw [withReturns_of_line hline]
      exact readsAlike_of_line (fun h => hline (List.mem_of_mem_take h)) List.not_mem_nil hkind
        (.inr hnone)

/-- The comma of an operand, where only blanks are left of its line. -/
theorem readsAlike_comma {w rest : List Char} (s : Lexer) (hw : '\n' ∉ w) :
    ReadsAlike ref s ',' (w ++ '\n' :: rest) { operator ',' [] with gap := w.length }
      { operator ',' [] with gap := w.length + 1 } := by
  have hdrop : (w ++ '\r' :: '\n' :: Asm6510.withReturns rest).drop (w.length + 1) =
      '\n' :: Asm6510.withReturns rest := by
    rw [← List.drop_drop, List.drop_left]
    rfl
  have htake : (w ++ '\r' :: '\n' :: Asm6510.withReturns rest).take (w.length + 1) =
      w ++ ['\r'] := by
    rw [List.take_length_add_append]
    rfl
  refine ⟨rfl, ?_⟩
  rw [withReturns_line hw]
  have hline : (s.emit ',' (w ++ '\n' :: rest) { operator ',' [] with gap := w.length }).2 =
      ⟨'\n' :: rest, (s.place.after [',']).after w, s.parens, s.nesting⟩ := by
    show (⟨(w ++ '\n' :: rest).drop w.length, (s.place.after [',']).after
      ((w ++ '\n' :: rest).take w.length), s.parens, s.nesting⟩ : Lexer) = _
    rw [List.drop_left, List.take_left]
  have hreturn : (s.emit ',' (w ++ '\r' :: '\n' :: Asm6510.withReturns rest)
      { operator ',' [] with gap := w.length + 1 }).2 =
      ⟨'\n' :: Asm6510.withReturns rest, (s.place.after [',']).after (w ++ ['\r']), s.parens,
        s.nesting⟩ := by
    show (⟨(w ++ '\r' :: '\n' :: Asm6510.withReturns rest).drop (w.length + 1),
      (s.place.after [',']).after ((w ++ '\r' :: '\n' :: Asm6510.withReturns rest).take
        (w.length + 1)), s.parens, s.nesting⟩ : Lexer) = _
    rw [hdrop, htake]
  rw [hline, hreturn]
  refine next?_return_taken ?_ rest _ _
  rw [Place.after_append]
  rfl

/-- What is read outside of strings and comments is read alike with carriage returns. -/
theorem readsAlike_modeAction {mode : Mode} (hmode : mode ≠ .stringLiteral) (hquote : c ≠ '"')
    (hline : c ≠ '\n') (hmark : startsComment c cs.head? = false)
    (h : modeAction ref mode c cs = .emit x) (s : Lexer) :
    ∃ x', modeAction ref mode c (Asm6510.withReturns cs) = .emit x' ∧
      ReadsAlike ref s c cs x x' := by
  rcases modeAction_withReturns hquote hmode ref cs with
    hsame | ⟨w, rest, hw, rfl, rfl, hl, hr⟩
  · obtain ⟨y, hform, hlike⟩ := modeAction_form hmode h
    have hplain := hform.plainAt hquote hline hmark
    have hkind : (s.emit c cs x).1.kind.isPlain = true := by
      rw [(emit_kind s c cs x).1, hlike.kind_eq]
      exact hplain.kind_plain
    have hmore : '\n' ∉ cs.take x.more := by
      rw [hlike.more_eq]
      exact not_mem_of_unmarked hplain.unmarked.2.2
    have hgap : '\n' ∉ (cs.drop x.more).take x.gap := fun hmem =>
      absurd ((modeAction_proper h).gap_blank _ hmem) (by decide)
    refine ⟨x, hsame.trans h, readsAlike_of_line hmore hgap ?_ (.inl (isOpen_of_isPlain hkind))⟩
    intro hblock
    rw [hblock] at hkind
    cases hkind
  · cases hl.symm.trans h
    exact ⟨_, hr, readsAlike_comma s hw⟩

/-- **A lexeme is read alike with carriage returns.** -/
theorem exists_readsAlike {mode : Mode} {parens : Nat} (hc : c ≠ '\n')
    (h : actionAt ref mode parens c cs = .emit x) (s : Lexer) :
    ∃ x', actionAt ref mode parens c (Asm6510.withReturns cs) = .emit x' ∧
      ReadsAlike ref s c cs x x' := by
  by_cases hslash : c = '/' ∧ cs.head? = some '/'
  · obtain ⟨rfl, hcs⟩ := hslash
    obtain ⟨v, rfl⟩ := List.head?_eq_some_iff.1 hcs
    cases h
    exact ⟨_, rfl, readsAlike_lineComment s '/' ('/' :: v)⟩
  by_cases hstar : c = '/' ∧ cs.head? = some '*'
  · obtain ⟨rfl, hcs⟩ := hstar
    obtain ⟨v, rfl⟩ := List.head?_eq_some_iff.1 hcs
    cases h
    exact ⟨_, rfl, readsAlike_blockComment s v⟩
  rw [actionAt_of_no_slash hslash hstar] at h
  rw [actionAt_of_no_slash (no_slash_withReturns (.inl rfl) hslash)
    (no_slash_withReturns (.inr rfl) hstar)]
  by_cases hsemi : c = ';' ∧ parens = 0
  · rw [if_pos hsemi] at h ⊢
    cases h
    exact ⟨_, rfl, readsAlike_lineComment s c cs⟩
  rw [if_neg hsemi] at h ⊢
  by_cases hstring : c = '"' ∨ mode = .stringLiteral
  · have hread : ∀ cs, modeAction ref mode c cs = .emit (string cs) := by
      rcases hstring with rfl | rfl
      · refine modeAction_quote ?_ ref
        rintro rfl
        exact instructionAction_ne_emit _ _ h
      · exact fun cs => rfl
    rw [hread] at h
    cases h
    exact ⟨_, hread _, readsAlike_string s c cs⟩
  · obtain ⟨hquote, hmode⟩ := not_or.1 hstring
    refine readsAlike_modeAction hmode hquote hc ?_ h s
    rw [← Bool.not_eq_true]
    simp only [startsComment, Bool.and_eq_true, Bool.or_eq_true, beq_iff_eq]
    rintro ⟨hc, hcs | hcs⟩
    · exact hslash ⟨hc, hcs⟩
    · exact hstar ⟨hc, hcs⟩

/-- Where no token is read, the same is done with carriage returns. -/
theorem actionAt_withReturns {mode : Mode} {parens : Nat}
    (h : ∀ x, actionAt ref mode parens c cs ≠ .emit x) :
    actionAt ref mode parens c (Asm6510.withReturns cs) = actionAt ref mode parens c cs := by
  have hnone : ∀ d : Char, d = '/' ∨ d = '*' → ¬(c = '/' ∧ cs.head? = some d) := by
    rintro d hd ⟨rfl, hcs⟩
    obtain ⟨v, rfl⟩ := List.head?_eq_some_iff.1 hcs
    rcases hd with rfl | rfl
    · exact h _ rfl
    · exact h _ rfl
  have hslash := hnone '/' (.inl rfl)
  have hstar := hnone '*' (.inr rfl)
  rw [actionAt_of_no_slash hslash hstar] at h ⊢
  rw [actionAt_of_no_slash (no_slash_withReturns (.inl rfl) hslash)
    (no_slash_withReturns (.inr rfl) hstar)]
  by_cases hsemi : c = ';' ∧ parens = 0
  · rw [if_pos hsemi] at h
    exact absurd rfl (h _)
  rw [if_neg hsemi] at h ⊢
  rw [if_neg hsemi]
  by_cases hmode : mode = .instruction
  · subst hmode
    rfl
  have hquote : c ≠ '"' := by
    rintro rfl
    exact h _ (modeAction_quote hmode ref cs)
  have hstring : mode ≠ .stringLiteral := by
    rintro rfl
    exact h _ rfl
  rcases modeAction_withReturns hquote hstring ref cs with hsame | ⟨w, rest, -, -, -, hl, -⟩
  · exact hsame
  · exact absurd hl (h _)

end Emit

/-! ## Readings and runs -/

section Readings

variable {ref : Option Reference} {l m : Lexer} {t : Token}

theorem isSkipped_withReturns {mode : Mode} {cs : List Char}
    (h : ∀ c ∈ cs, isSkipped mode c = true) :
    ∀ c ∈ Asm6510.withReturns cs, isSkipped mode c = true := by
  intro c hc
  obtain ⟨d, hd, hc⟩ := List.mem_flatMap.1 hc
  split at hc
  · next hline =>
    rcases List.mem_cons.1 hc with rfl | hc
    · rfl
    · rw [List.mem_singleton.1 hc, ← hline]
      exact h d hd
  · rw [List.mem_singleton.1 hc]
    exact h d hd

/-- The blanks ahead with carriage returns, and what is behind them. -/
theorem skipBlanks_withReturns (tail : List Char) {rest : List Char}
    (h : Asm6510.withReturns l.skipBlanks.rest = tail ++ rest)
    (htail : ∀ c ∈ tail, isSkipped l.nesting.top.mode c = true)
    (hrest : ∀ c ∈ rest.head?, isSkipped l.nesting.top.mode c = false) :
    l.withReturns.skipBlanks =
      { l.skipBlanks with rest := rest, place := l.skipBlanks.place.after tail } := by
  have hblanks : ∀ c ∈ Asm6510.withReturns l.skipped ++ tail,
      isSkipped l.nesting.top.mode c = true := by
    intro c hc
    rcases List.mem_append.1 hc with hc | hc
    · exact isSkipped_withReturns (fun c hc => List.mem_takeWhile_imp hc) c hc
    · exact htail c hc
  have hstop : rest.takeWhile (isSkipped l.nesting.top.mode) = [] ∧
      rest.dropWhile (isSkipped l.nesting.top.mode) = rest := by
    cases rest with
    | nil => exact ⟨rfl, rfl⟩
    | cons c rest =>
      have hc : isSkipped l.nesting.top.mode c = false := hrest c rfl
      simp [hc]
  have hsplit : Asm6510.withReturns l.rest = (Asm6510.withReturns l.skipped ++ tail) ++ rest := by
    rw [List.append_assoc, ← h, ← withReturns_append, ← skipped_append]
  unfold skipBlanks withReturns
  rw [hsplit]
  simp only [List.takeWhile_append_of_pos hblanks, List.dropWhile_append_of_pos hblanks, hstop.1,
    hstop.2, List.append_nil]
  rw [Place.after_append, Place.after_withReturns]
  rfl

/-- Blanks end at the same character with carriage returns. -/
theorem skipBlanks_withReturns_cons {c : Char} {cs : List Char}
    (h : l.skipBlanks.rest = c :: cs) (hc : c ≠ '\n') :
    l.withReturns.skipBlanks = { l.skipBlanks with rest := c :: Asm6510.withReturns cs } := by
  have hrest : Asm6510.withReturns l.skipBlanks.rest = [] ++ c :: Asm6510.withReturns cs := by
    rw [h, withReturns_cons hc]
    rfl
  refine skipBlanks_withReturns [] hrest (fun d hd => absurd hd List.not_mem_nil) ?_
  intro d hd
  rw [← Option.some.inj hd]
  exact skipBlanks_head h

theorem ne_line_feed {c : Char} {cs : List Char} (h : l.skipBlanks.rest = c :: cs)
    (hx : actionAt ref l.skipBlanks.nesting.top.mode l.skipBlanks.parens c cs ≠ .newline) :
    c ≠ '\n' := by
  rintro rfl
  exact hx (actionAt_newline (endsAtLine_of_skipBlanks h) _ _)

/-- **The next reading with carriage returns** gives the same token but for the carriage returns in
it, and what is read behind it is the same. -/
theorem next?_withReturns (h : l.next? ref = some (t, m)) :
    ∃ gap tail m', l.Reads gap t tail m ∧
      l.withReturns.next? ref = some (t.withReturns (tail ++ m.rest).head?, m') ∧
      m'.next? ref = m.withReturns.next? ref := by
  fun_induction next? ref l with
  | case1 l s hr =>
    obtain ⟨gap, tail, hreads⟩ :=
      next?_reads (next?_nil rfl hr : l.next? ref = some (s.endToken, s))
    obtain ⟨rfl, rfl⟩ := Prod.mk.inj (Option.some.inj h)
    have hskip : l.withReturns.skipBlanks = s := by
      have hend : Asm6510.withReturns s.rest = [] ++ [] := by rw [hr]; rfl
      rw [skipBlanks_withReturns [] hend (by simp) (by simp), Place.after_nil, ← hr]
    refine ⟨gap, tail, s, hreads, ?_, ?_⟩
    · rw [next?_nil hskip hr, withReturns_of_head TokenKind.noConfusion (.inl rfl)]
    · rw [withReturns, hr, withReturns_nil, ← hr]
  | case2 l s c cs hr x hx =>
    have hc : c ≠ '\n' := ne_line_feed hr (by rw [hx]; exact Action.noConfusion)
    obtain ⟨x', hx', halike⟩ := exists_readsAlike hc hx s
    have hreads := (reads_emit hr (actionAt_proper hx)).behind l.skipped_white l.skipped_append rfl
    have htail : (cs.drop x.more).take x.gap ++ (s.emit c cs x).2.rest = cs.drop x.more :=
      List.take_append_drop _ _
    rw [Option.some.inj h] at hreads htail
    obtain ⟨htoken, hbehind⟩ := halike
    rw [Option.some.inj h] at htoken hbehind
    rw [← htail] at htoken
    exact ⟨_, _, _, hreads,
      (next?_emit (skipBlanks_withReturns_cons hr hc) rfl hx').trans
        (congrArg some (Prod.ext htoken rfl)), hbehind⟩
  | case3 l s c cs hr hx ih =>
    obtain ⟨gap, tail, m', hreads, hnext, hbehind⟩ := ih h
    obtain rfl : c = '\n' := actionAt_quiet.1 hx
    have hs : s.Reads (['\n'] ++ gap) t tail m := hreads.behind (by simp [isWhite]) hr rfl
    refine ⟨_, _, m', hs.behind l.skipped_white l.skipped_append rfl, ?_, hbehind⟩
    have hskip : l.withReturns.skipBlanks =
        { s with rest := '\n' :: Asm6510.withReturns cs, place := s.place.after ['\r'] } := by
      refine skipBlanks_withReturns ['\r'] (by rw [hr]; rfl) (by simp [isSkipped, isLineBlank]) ?_
      intro d hd
      rw [← Option.some.inj hd]
      exact skipBlanks_head hr
    have haction : actionAt ref s.nesting.top.mode s.parens '\n' (Asm6510.withReturns cs) =
        .newline := actionAt_newline (endsAtLine_of_skipBlanks hr) _ _
    rw [next?_newline hskip rfl haction, ← hnext]
    rfl
  | case4 l s c cs hr hx hp ih =>
    obtain ⟨gap, tail, m', hreads, hnext, hbehind⟩ := ih h
    refine ⟨_, _, m', hreads.behind l.skipped_white l.skipped_append rfl, ?_, hbehind⟩
    have hc : c ≠ '\n' := ne_line_feed hr (by rw [hx]; exact Action.noConfusion)
    have haction : actionAt ref s.nesting.top.mode s.parens c (Asm6510.withReturns cs) = .leave :=
      (actionAt_withReturns (by rw [hx]; exact fun _ => Action.noConfusion)).trans hx
    rw [withReturns, show s.rest = c :: cs from hr, withReturns_cons hc] at hnext
    exact (next?_leave (skipBlanks_withReturns_cons hr hc) rfl haction hp).trans hnext
  | case5 => cases h
  | case6 l s c cs hr hx hp ih =>
    obtain ⟨gap, tail, m', hreads, hnext, hbehind⟩ := ih h
    refine ⟨_, _, m', hreads.behind l.skipped_white l.skipped_append rfl, ?_, hbehind⟩
    have hc : c ≠ '\n' := ne_line_feed hr (by rw [hx]; exact Action.noConfusion)
    have haction : actionAt ref s.nesting.top.mode s.parens c (Asm6510.withReturns cs) =
        .operand :=
      (actionAt_withReturns (by rw [hx]; exact fun _ => Action.noConfusion)).trans hx
    rw [withReturns, show s.rest = c :: cs from hr, withReturns_cons hc] at hnext
    exact (next?_operand (skipBlanks_withReturns_cons hr hc) rfl haction hp).trans hnext
  | case7 => cases h

/-- The character behind a token in the text. -/
theorem Reads.charIn? {before gap tail : List Char} (h : l.Reads gap t tail m)
    (hplace : l.place = Place.start.after before) :
    (t.place.after t.spelling.toList).charIn? .start (before ++ l.rest) =
      (tail ++ m.rest).head? := by
  have htext : before ++ l.rest = (before ++ (gap ++ t.spelling.toList)) ++ (tail ++ m.rest) := by
    rw [h.rest_eq]
    simp only [List.append_assoc]
  rw [htext, h.token_place, hplace, ← Place.after_append, ← Place.after_append]
  exact Place.charIn?_after _ _ _

/-- At the end of the text the state stays as it is. -/
theorem eq_of_next?_of_nil {m' : Lexer} (hm : m.rest = []) (hm' : m'.rest = [])
    (h : m'.next? ref = m.next? ref) : m' = m := by
  have hstay : ∀ {l : Lexer}, l.rest = [] → l.skipBlanks = l := by
    rintro ⟨rest, place, parens, nesting⟩ rfl
    rfl
  rw [next?_nil (hstay hm) hm, next?_nil (hstay hm') hm'] at h
  exact (Prod.mk.inj (Option.some.inj h)).2

theorem run_withReturns {before : List Char} (hl : l.nesting.Orderly)
    (hplace : l.place = Place.start.after before) :
    l.withReturns.run ref =
      ((l.run ref).1.map fun t => t.withReturns
        ((t.place.after t.spelling.toList).charIn? .start (before ++ l.rest)), (l.run ref).2) := by
  revert before
  fun_induction run ref l with
  | case1 l hnone => exact absurd hnone (next?_ne_none hl)
  | case2 l t m hnext hend =>
    intro before hplace
    obtain ⟨gap, tail, m', hreads, hnext', hbehind⟩ := next?_withReturns hnext
    have hm : m.rest = [] := (List.append_eq_nil_iff.1 (hreads.rest_end hend)).2
    have hm' : m'.rest = [] := by
      obtain ⟨gap', tail', hreads'⟩ := next?_reads hnext'
      exact (List.append_eq_nil_iff.1 (hreads'.rest_end hend)).2
    have hstay : m.withReturns = m := by
      rw [withReturns, hm, withReturns_nil, ← hm]
    rw [hstay] at hbehind
    rw [run_of_end hnext' hend, eq_of_next?_of_nil hm hm' hbehind, List.map_singleton,
      hreads.charIn? hplace]
  | case3 l t m hnext hmore ts last hrun ih =>
    intro before hplace
    have horderly := next?_orderly hnext hl
    obtain ⟨gap, tail, m', hreads, hnext', hbehind⟩ := next?_withReturns hnext
    have hrest : m'.run ref = m.withReturns.run ref :=
      (run_congr_of_next? (l := m.withReturns) horderly hbehind.symm).symm
    have hplace' :
        m.place = Place.start.after (before ++ (gap ++ (t.spelling.toList ++ tail))) := by
      rw [hreads.place_eq, hplace, ← Place.after_append]
    have htext : before ++ (gap ++ (t.spelling.toList ++ tail)) ++ m.rest = before ++ l.rest := by
      rw [hreads.rest_eq]
      simp only [List.append_assoc]
    have hih := ih horderly hplace'
    rw [hrun, htext] at hih
    rw [run_of_token hnext' hmore, hrest, hih, List.map_cons, hreads.charIn? hplace]

end Readings

end Lexer

/-- **A text reads the same with carriage returns before its line feeds**: the tokens are the same
in kind, place, context and note, and so is the state at the end. Line comments and strings that are
not closed have a carriage return more if they end at the end of a line, and block comments have one
before each line feed. -/
theorem tokenize_withReturns (ref : Option Reference) (limit : Int) (text : String) :
    tokenize ref limit (String.ofList (withReturns text.toList)) =
      ((tokenize ref limit text).1.map fun t => t.withReturns
        ((t.place.after t.spelling.toList).charIn? .start text.toList),
      (tokenize ref limit text).2) := by
  have hstart : (Lexer.ofText limit text).place = Place.start.after [] := rfl
  unfold tokenize
  rw [Lexer.ofText, String.toList_ofList]
  exact Lexer.run_withReturns (Nesting.orderly_ofLimit limit) hstart

end Asm6510
