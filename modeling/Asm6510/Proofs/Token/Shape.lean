import Asm6510.Proofs.Token.Progress
import Mathlib

/-!
# What tokens are spelled with

* `Unmarked`: characters in which no comment starts and no line ends, before others.
* `Lexeme.Shape`: a lexeme is a comment, a string, or spelled with unmarked characters
  (`Lexing.actionAt_shape`).
* `Nesting.Stringless`: outside of a reading no string is open.
* `Token.Shape`: the same for a token and the characters behind it.
* `Spelled`: the tokens of a text in their places, with their shapes.

Main statement: `tokenize_spelled`, the tokens of a text are spelled so. It follows from what one
reading can do (`Lexer.next?_cases`).
-/

namespace Asm6510

/-- Whether a comment with a slash starts at a character, given the character behind it. -/
def startsComment (c : Char) (following : Option Char) : Bool :=
  c == '/' && (following == some '/' || following == some '*')

/-- In the characters `w`, which stand before `rest`, no comment with a slash starts and no line
ends. -/
def Unmarked : (w rest : List Char) → Prop
  | [], _ => True
  | c :: w, rest => c ≠ '\n' ∧ startsComment c (w ++ rest).head? = false ∧ Unmarked w rest

/-- The kinds of tokens other than comments, strings and the end of the text. -/
def TokenKind.isPlain : TokenKind → Bool
  | lineComment => false
  | blockComment => false
  | string => false
  | endOfText => false
  | _ => true

/-- Whether a change of the nesting opens a string. -/
def Nesting.Edit.entersString : Nesting.Edit → Bool
  | .push mode _ => mode == .stringLiteral
  | _ => false

namespace Lexeme

/-- All changes of the nesting that a lexeme makes. -/
def edits (x : Lexeme) : List Nesting.Edit :=
  x.opening ++ x.closing ++ x.following

/-- A lexeme at `c :: cs` that is spelled with unmarked characters. -/
structure PlainAt (c : Char) (cs : List Char) (x : Lexeme) : Prop where
  kind_plain : x.kind.isPlain = true
  unmarked : Unmarked (c :: cs.take x.more) (cs.drop x.more)
  outside : ∀ e ∈ x.edits, e.entersString = false

/-- What a lexeme at `c :: cs` is: a comment to the end of the line, a comment up to its closing
mark, a string, or spelled with unmarked characters. A string is opened and closed by its own
lexeme. -/
inductive Shape (c : Char) (cs : List Char) (x : Lexeme) : Prop
  | lineComment (start_ne : c ≠ '\n') (kind_eq : x.kind = .lineComment)
      (more_eq : x.more = Lexing.run (· != '\n') cs)
      (outside : ∀ e ∈ x.edits, e.entersString = false)
  | blockComment {rest : List Char} (start_eq : c :: cs = '/' :: '*' :: rest)
      (kind_eq : x.kind = .blockComment) (more_eq : x.more = Lexing.blockCommentSize rest + 1)
      (outside : ∀ e ∈ x.edits, e.entersString = false)
  | string (start_eq : c = '"') (kind_eq : x.kind = .string)
      (more_eq : x.more = Lexing.stringSize cs)
      (opening_eq : x.opening = [.push .stringLiteral ""]) (closing_eq : x.closing = [.pop])
      (following_eq : x.following = [])
  | plain (h : x.PlainAt c cs)

end Lexeme

/-! ## Forms of lexemes -/

theorem unmarked_of_bare {w : List Char} (h : ∀ d ∈ w, d ∉ Lexing.separators)
    (rest : List Char) : Unmarked w rest := by
  induction w with
  | nil => trivial
  | cons c w ih =>
    obtain ⟨hc, hw⟩ := List.forall_mem_cons.1 h
    have hslash : c ≠ '/' := fun heq => hc (heq ▸ by decide)
    refine ⟨fun heq => hc (heq ▸ by decide), ?_, ih hw⟩
    rw [startsComment, beq_eq_false_iff_ne.2 hslash, Bool.false_and]

theorem Lexing.drop_run (p : Char → Bool) (cs : List Char) :
    cs.drop (Lexing.run p cs) = cs.dropWhile p := by
  induction cs with
  | nil => rfl
  | cons c cs ih =>
    by_cases hc : p c = true
    · rw [Lexing.run, List.takeWhile_cons_of_pos hc, List.dropWhile_cons_of_pos hc]
      exact ih
    · rw [Lexing.run, List.takeWhile_cons_of_neg hc, List.dropWhile_cons_of_neg hc]
      rfl

namespace Lexing

open Lexeme

variable {ref : Option Reference} {c : Char} {cs : List Char} {x y : Lexeme}

theorem ofPair?_bare {d : Char} {kind : TokenKind} (h : TokenKind.ofPair? c d = some kind) :
    kind.isPlain = true ∧ c ∉ separators ∧ d ∉ separators := by
  unfold TokenKind.ofPair? at h
  split at h
  all_goals cases h
  all_goals decide

theorem ofChar_isPlain (c : Char) : (TokenKind.ofChar c).isPlain = true := by
  unfold TokenKind.ofChar
  split <;> rfl

theorem plainAt_operator (hc : c ≠ '\n') (hmark : startsComment c cs.head? = false) :
    (operator c cs).PlainAt c cs := by
  unfold operator
  dsimp only
  split
  · next kind hpair =>
    split at hpair
    · obtain ⟨hkind, hc, hd⟩ := ofPair?_bare hpair
      refine ⟨hkind, unmarked_of_bare (List.forall_mem_cons.2 ⟨hc, bareTo_one hd⟩) _, ?_⟩
      exact fun e he => absurd he (by simp [edits, plain])
    · cases hpair
  · refine ⟨ofChar_isPlain c, ⟨hc, hmark, trivial⟩, fun e he => ?_⟩
    simp only [edits, plain, List.nil_append, List.append_nil] at he
    split at he
    · rw [List.mem_singleton.1 he]
      rfl
    · rw [List.mem_singleton.1 he]
      rfl
    · cases he

theorem mem_edits_of_worded (h : x.Worded c cs) {e : Nesting.Edit} (he : e ∈ x.edits) :
    (∃ name, e = .push .directive name) ∨ e = .pop ∨ e = .push .instruction "" := by
  rw [edits, h.opening_eq, List.nil_append, List.mem_append] at he
  rcases he with he | he
  · exact .inl (h.closing e he)
  · rcases h.following with hf | hf | hf
    all_goals rw [hf] at he
    · cases he
    · exact .inr (.inl (List.mem_singleton.1 he))
    · exact .inr (.inr (List.mem_singleton.1 he))

theorem plainAt_worded (h : x.Worded c cs) : x.PlainAt c cs := by
  refine ⟨?_, ?_, fun e he => ?_⟩
  · have hkind := h.kind
    revert hkind
    cases x.kind <;> first | exact fun _ => rfl | exact Bool.noConfusion
  · rcases h.apart with ⟨-, hc, hcs⟩ | ⟨-, value, rest, hvalue, hquoted⟩
    · exact unmarked_of_bare (List.forall_mem_cons.2 ⟨hc, hcs⟩) _
    · -- A slash between apostrophes has an apostrophe behind it.
      have hmark : startsComment value (some '\'') = false := by simp [startsComment]
      rcases hquoted with ⟨rfl, rfl, hmore⟩ | ⟨rfl, rfl, hmore⟩
      · rw [hmore]
        exact ⟨by decide, rfl, hvalue, hmark, by decide, rfl, trivial⟩
      · rw [hmore]
        exact ⟨by decide, rfl, by decide, rfl, hvalue, hmark, by decide, rfl, trivial⟩
  · rcases mem_edits_of_worded h he with ⟨name, rfl⟩ | rfl | rfl <;> rfl

theorem plainAt_of_like (hy : y.PlainAt c cs) (h : x.Like c cs y) : x.PlainAt c cs := by
  refine ⟨h.kind_eq ▸ hy.kind_plain, h.more_eq ▸ hy.unmarked, ?_⟩
  have houtside := hy.outside
  simp only [edits, List.forall_mem_append] at houtside ⊢
  rw [h.closing_eq, h.following_eq]
  refine ⟨⟨?_, houtside.1.2⟩, houtside.2⟩
  rcases h.opening with hopening | ⟨-, -, e, hopening, rfl | rfl | rfl⟩
  · rw [hopening]
    exact houtside.1.1
  all_goals rw [hopening]
  all_goals exact List.forall_mem_singleton.2 rfl

theorem Form.plainAt (h : Form ref c cs x) (hquote : c ≠ '"') (hline : c ≠ '\n')
    (hmark : startsComment c cs.head? = false) : x.PlainAt c cs := by
  rcases h.cases_worded with ⟨hc, -⟩ | ⟨-, rfl⟩ | hworded
  · exact absurd hc hquote
  · exact plainAt_operator hline hmark
  · exact plainAt_worded hworded

/-! ## Modes -/

/-- In every mode but that of strings, what is read at a character that is not skipped has a
shape. -/
theorem modeAction_shape {mode : Mode} (hmode : mode ≠ .stringLiteral)
    (hskip : isSkipped mode c = false) (hmark : startsComment c cs.head? = false)
    (h : modeAction ref mode c cs = .emit x) : x.Shape c cs := by
  have hline : c ≠ '\n' := by
    rintro rfl
    cases mode with
    | directive | instruction | operand => cases h
    | _ => cases hskip
  obtain ⟨y, hform, hlike⟩ := modeAction_form hmode h
  by_cases hquote : c = '"'
  · subst hquote
    rcases hform.cases_worded with ⟨-, rfl⟩ | ⟨hne, -⟩ | hworded
    · refine .string rfl hlike.kind_eq hlike.more_eq ?_ hlike.closing_eq hlike.following_eq
      exact hlike.opening.resolve_right fun hbracket => absurd hbracket.2.1 (by decide)
    · exact absurd rfl hne
    · exact .plain (plainAt_of_like (plainAt_worded hworded) hlike)
  · exact .plain (plainAt_of_like (hform.plainAt hquote hline hmark) hlike)

/-- What is read is a comment to the end of the line, a comment with a closing mark, or what the
mode makes of characters that start no comment. -/
theorem actionAt_emit_cases {mode : Mode} {parens : Nat}
    (h : actionAt ref mode parens c cs = .emit x) :
    x = lineComment cs ∧ (c = '/' ∧ cs.head? = some '/' ∨
        startsComment c cs.head? = false ∧ c = ';' ∧ parens = 0) ∨
      (∃ rest, c = '/' ∧ cs = '*' :: rest ∧ x = blockComment rest) ∨
      startsComment c cs.head? = false ∧ ¬(c = ';' ∧ parens = 0) ∧
        modeAction ref mode c cs = .emit x := by
  unfold actionAt at h
  split at h
  · cases h
    exact .inl ⟨rfl, .inl ⟨rfl, rfl⟩⟩
  · next rest =>
    cases h
    exact .inr (.inl ⟨rest, rfl, rfl, rfl⟩)
  · next hline hblock =>
    have hmark : startsComment c cs.head? = false := by
      rw [startsComment, Bool.and_eq_false_imp]
      intro hc
      rcases cs with _ | ⟨d, rest⟩
      · rfl
      · have hd1 : d ≠ '/' := fun hd => hline rest (beq_iff_eq.1 hc) (by rw [hd])
        have hd2 : d ≠ '*' := fun hd => hblock rest (beq_iff_eq.1 hc) (by rw [hd])
        simp [hd1, hd2]
    split at h
    · next hc =>
      cases h
      exact .inl ⟨rfl, .inr ⟨hmark, hc⟩⟩
    · next hc => exact .inr (.inr ⟨hmark, hc, h⟩)

/-- **Whatever is read has a shape.** -/
theorem actionAt_shape {mode : Mode} {parens : Nat} (hmode : mode ≠ .stringLiteral)
    (hskip : isSkipped mode c = false) (h : actionAt ref mode parens c cs = .emit x) :
    x.Shape c cs := by
  rcases actionAt_emit_cases h with ⟨rfl, hc⟩ | ⟨rest, rfl, rfl, rfl⟩ | ⟨hmark, -, hread⟩
  · refine .lineComment ?_ rfl rfl fun e he => ?_
    · rcases hc with ⟨rfl, -⟩ | ⟨-, rfl, -⟩ <;> decide
    · simp only [edits, lineComment, Lexeme.after, plain, List.append_nil,
        List.mem_singleton] at he
      rw [he]
      rfl
  · exact .blockComment rfl rfl rfl fun e he => absurd he (by simp [edits, blockComment, plain])
  · exact modeAction_shape hmode hskip hmark hread

end Lexing

/-! ## Strings on the stack -/

namespace Nesting

variable {n : Nesting}

/-- The stack is within its bound, and no string is open. -/
structure Stringless (n : Nesting) : Prop extends n.Bounded where
  frames_ne : ∀ f ∈ n.frames, f.mode ≠ .stringLiteral

theorem stringless_ofLimit (limit : Int) : (ofLimit limit).Stringless :=
  ⟨bounded_ofLimit limit, fun _ hf => absurd hf List.not_mem_nil⟩

theorem Stringless.top_ne (h : n.Stringless) : n.top.mode ≠ .stringLiteral := by
  intro htop
  obtain ⟨f, below, hframes, hmode⟩ := exists_frame htop (by decide)
  exact h.frames_ne f (by rw [hframes]; exact List.mem_cons_self) hmode

theorem Stringless.pop (h : n.Stringless) : n.pop.Stringless := by
  refine ⟨h.toBounded.pop, ?_⟩
  unfold Nesting.pop
  split
  · exact fun f hf => h.frames_ne f (List.mem_of_mem_tail hf)
  · exact h.frames_ne

theorem Stringless.push (h : n.Stringless) (place : Place) {mode : Mode}
    (hmode : mode ≠ .stringLiteral) (directive : String) :
    (n.push place mode directive).Stringless := by
  refine ⟨h.toBounded.push place mode directive, ?_⟩
  unfold Nesting.push
  split
  · exact h.frames_ne
  · exact List.forall_mem_cons.2 ⟨hmode, h.frames_ne⟩

theorem Stringless.edit (h : n.Stringless) (place : Place) {e : Edit}
    (he : e.entersString = false) : (n.edit place e).Stringless := by
  refine edit_rec ?_ h.pop h
  rintro mode directive rfl
  exact h.push place (beq_eq_false_iff_ne.1 he) directive

theorem Stringless.apply (h : n.Stringless) (place : Place) {edits : List Edit}
    (he : ∀ e ∈ edits, e.entersString = false) : (n.apply place edits).Stringless := by
  induction edits generalizing n with
  | nil => exact h
  | cons e edits ih =>
    exact ih (h.edit place (he e List.mem_cons_self))
      fun e' he' => he e' (List.mem_cons_of_mem _ he')

/-- Leaving takes back the entering right before it. -/
theorem Bounded.push_pop (h : n.Bounded) (place : Place) (mode : Mode) (directive : String) :
    (n.push place mode directive).pop.frames = n.frames := by
  unfold Nesting.push
  split
  · unfold Nesting.pop
    rw [if_neg (Nat.succ_ne_zero _)]
  · rename_i hroom
    have hrefused : n.refused = 0 := by
      by_contra hrefused
      exact hroom (decide_eq_true (h.full hrefused))
    unfold Nesting.pop
    rw [if_pos hrefused]
    rfl

theorem Stringless.push_pop (h : n.Stringless) (place : Place) (mode : Mode) (directive : String) :
    (n.push place mode directive).pop.Stringless := by
  refine ⟨(h.toBounded.push place mode directive).pop, ?_⟩
  rw [h.toBounded.push_pop]
  exact h.frames_ne

end Nesting

/-! ## Tokens -/

/-- What a token is, with the characters `behind` it: the end of the text, a comment, a string, or
spelled with unmarked characters. -/
inductive Token.Shape (t : Token) (behind : List Char) : Prop
  | endOfText (kind_eq : t.kind = .endOfText) (behind_eq : behind = [])
  | lineComment (kind_eq : t.kind = .lineComment)
      (start_ne : t.spelling.toList.head? ≠ some '\n')
      (line_ends : behind = [] ∨ behind.head? = some '\n')
  | blockComment {rest : List Char} (kind_eq : t.kind = .blockComment)
      (spelling_eq : t.spelling.toList = '/' :: '*' :: rest.take (Lexing.blockCommentSize rest))
      (behind_eq : behind = rest.drop (Lexing.blockCommentSize rest))
  | string {rest : List Char} (kind_eq : t.kind = .string)
      (spelling_eq : t.spelling.toList = '"' :: rest.take (Lexing.stringSize rest))
      (behind_eq : behind = rest.drop (Lexing.stringSize rest))
  | plain (kind_plain : t.kind.isPlain = true) (unmarked : Unmarked t.spelling.toList behind)

namespace Lexer

open Lexing

variable {ref : Option Reference} {l l' : Lexer} {t : Token}

/-- A state behind some blanks; its nesting may be any. -/
structure Behind (l : Lexer) (gap : List Char) (m : Lexer) : Prop where
  white : ∀ c ∈ gap, isWhite c = true
  rest_eq : l.rest = gap ++ m.rest
  place_eq : m.place = l.place.after gap
  parens_eq : m.parens = l.parens

theorem Behind.trans {m : Lexer} {gap gap' : List Char} (h : l.Behind gap m)
    (h' : m.Behind gap' l') : l.Behind (gap ++ gap') l' := by
  refine ⟨List.forall_mem_append.2 ⟨h.white, h'.white⟩, ?_, ?_, h'.parens_eq.trans h.parens_eq⟩
  · rw [h.rest_eq, h'.rest_eq, List.append_assoc]
  · rw [h'.place_eq, h.place_eq, Place.after_append]

theorem behind_skipBlanks (l : Lexer) : l.Behind l.skipped l.skipBlanks :=
  ⟨l.skipped_white, l.skipped_append, rfl, rfl⟩

theorem behind_nesting (l : Lexer) (n : Nesting) : l.Behind [] { l with nesting := n } :=
  ⟨fun _ hc => absurd hc List.not_mem_nil, rfl, rfl, rfl⟩

theorem behind_newline {cs : List Char} (h : l.rest = '\n' :: cs) (n : Nesting) :
    l.Behind ['\n'] { l with rest := cs, place := l.place.next '\n', nesting := n } :=
  ⟨List.forall_mem_singleton.2 rfl, h, rfl, rfl⟩

theorem skipBlanks_head {c : Char} {cs : List Char} (h : l.skipBlanks.rest = c :: cs) :
    isSkipped l.skipBlanks.nesting.top.mode c = false := by
  have hdrop : l.rest.dropWhile (isSkipped l.nesting.top.mode) = c :: cs := h
  have hhead := List.head?_dropWhile_not (isSkipped l.nesting.top.mode) l.rest
  rw [hdrop] at hhead
  have hkept : isSkipped l.nesting.top.mode c = false := by simpa using hhead
  exact hkept

/-- **What one reading can do.** Blanks are skipped, and the nesting changes only by leaving
contexts and by beginning an operand. Then the end of the text is read, or a lexeme. -/
theorem next?_cases (h : l.next? ref = some (t, l')) {P : Nesting → Prop}
    (hpop : ∀ n, P n → P n.pop) (hpush : ∀ n place, P n → P (n.push place .operand ""))
    (hl : P l.nesting) :
    ∃ gap m, l.Behind gap m ∧ P m.nesting ∧
      (m.rest = [] ∧ t = m.endToken ∧ l' = m ∨
        ∃ c cs x, m.rest = c :: cs ∧ isSkipped m.nesting.top.mode c = false ∧
          actionAt ref m.nesting.top.mode m.parens c cs = .emit x ∧ m.emit c cs x = (t, l')) := by
  fun_induction next? ref l with
  | case1 l s hr =>
    obtain ⟨rfl, rfl⟩ := Prod.mk.inj (Option.some.inj h)
    exact ⟨_, s, l.behind_skipBlanks, hl, .inl ⟨hr, rfl, rfl⟩⟩
  | case2 l s c cs hr x hx =>
    exact ⟨_, s, l.behind_skipBlanks, hl,
      .inr ⟨c, cs, x, hr, skipBlanks_head hr, hx, Option.some.inj h⟩⟩
  | case3 l s c cs hr hx ih =>
    obtain ⟨gap, m, hm, hrest⟩ := ih h (hpop _ hl)
    obtain rfl : c = '\n' := actionAt_quiet.1 hx
    exact ⟨_, m, l.behind_skipBlanks.trans ((behind_newline hr _).trans hm), hrest⟩
  | case4 l s c cs hr hx hp ih =>
    obtain ⟨gap, m, hm, hrest⟩ := ih h (hpop _ hl)
    exact ⟨_, m, l.behind_skipBlanks.trans ((behind_nesting s _).trans hm), hrest⟩
  | case5 => cases h
  | case6 l s c cs hr hx hp ih =>
    obtain ⟨gap, m, hm, hrest⟩ := ih h (hpush _ _ (hpop _ hl))
    exact ⟨_, m, l.behind_skipBlanks.trans ((behind_nesting s _).trans hm), hrest⟩
  | case7 => cases h

theorem stringless_emit {c : Char} {cs : List Char} {x : Lexeme} (hx : x.Shape c cs)
    (hl : l.nesting.Stringless) : (l.emit c cs x).2.nesting.Stringless := by
  have hedits : (∀ e ∈ x.edits, e.entersString = false) → (l.emit c cs x).2.nesting.Stringless := by
    intro houtside
    simp only [Lexeme.edits, List.forall_mem_append] at houtside
    exact ((hl.apply _ houtside.1.1).apply _ houtside.1.2).apply _ houtside.2
  cases hx with
  | lineComment _ _ _ houtside => exact hedits houtside
  | blockComment _ _ _ houtside => exact hedits houtside
  | plain h => exact hedits h.outside
  | string _ _ _ hopening hclosing hfollowing =>
    unfold emit
    rw [hopening, hclosing, hfollowing]
    exact hl.push_pop _ _ _

theorem shape_emit {c : Char} {cs : List Char} {x : Lexeme} (hproper : x.Proper cs)
    (hx : x.Shape c cs) : (l.emit c cs x).1.Shape (cs.drop x.more) := by
  have hkind := (emit_kind l c cs x).1
  have hspelling : (l.emit c cs x).1.spelling.toList = c :: cs.take x.more := by
    rw [emit_spelling l c cs hproper, String.toList_ofList]
  cases hx with
  | lineComment start_ne kind_eq more_eq =>
    refine .lineComment (hkind.trans kind_eq) ?_ ?_
    · rw [hspelling]
      simpa using start_ne
    rw [more_eq, drop_run]
    cases hbehind : cs.dropWhile (· != '\n') with
    | nil => exact .inl rfl
    | cons d ds =>
      have hhead := List.head?_dropWhile_not (· != '\n') cs
      rw [hbehind] at hhead
      simpa using hhead
  | @blockComment rest start_eq kind_eq more_eq =>
    obtain ⟨rfl, rfl⟩ := List.cons.inj start_eq
    rw [more_eq] at hspelling ⊢
    exact .blockComment (hkind.trans kind_eq) hspelling rfl
  | string start_eq kind_eq more_eq =>
    subst start_eq
    rw [more_eq] at hspelling ⊢
    exact .string (hkind.trans kind_eq) hspelling rfl
  | plain h =>
    refine .plain (by rw [hkind]; exact h.kind_plain) ?_
    rw [hspelling]
    exact h.unmarked

end Lexer

/-- Tokens lie in the characters `ahead`, which stand behind the characters `before` of a text, with
blanks before each token. A token is spelled by the characters at its place and has a shape. -/
def Spelled (before ahead : List Char) : List Token → Prop
  | [] => True
  | t :: ts => ∃ gap behind,
      (∀ c ∈ gap, Lexing.isWhite c = true) ∧
      ahead = gap ++ (t.spelling.toList ++ behind) ∧
      t.place = Place.behind (before ++ gap) ∧
      (t.kind = .endOfText ↔ t.spelling = "") ∧
      t.Shape behind ∧
      Spelled (before ++ gap ++ t.spelling.toList) behind ts

namespace Lexer

open Lexing

variable {ref : Option Reference} {l l' : Lexer} {t : Token}

theorem reads_end (h : l.rest = []) : l.Reads [] l.endToken [] l :=
  ⟨fun _ hc => absurd hc List.not_mem_nil, fun _ hc => absurd hc List.not_mem_nil,
    by simp [endToken, Token.spelling, Note.none], rfl, rfl, ⟨fun _ => rfl, fun _ => rfl⟩,
    fun _ => h⟩

theorem next?_shape (h : l.next? ref = some (t, l')) (hl : l.nesting.Stringless) :
    l'.nesting.Stringless ∧ ∃ gap tail, l.Reads gap t tail l' ∧ t.Shape (tail ++ l'.rest) := by
  obtain ⟨gap, m, hbehind, hm, ⟨hrest, rfl, rfl⟩ | ⟨c, cs, x, hrest, hskip, hx, hemit⟩⟩ :=
    next?_cases h (fun _ hn => hn.pop) (fun _ place hn => hn.push place (by decide) "") hl
  · exact ⟨hm, _, _, (reads_end hrest).behind hbehind.white hbehind.rest_eq hbehind.place_eq,
      .endOfText rfl hrest⟩
  · have hshape := actionAt_shape hm.top_ne hskip hx
    have hproper := actionAt_proper hx
    have hstring := stringless_emit hshape hm
    have htoken := shape_emit (l := m) hproper hshape
    have hreads := reads_emit hrest hproper
    have hleft : (m.emit c cs x).2.rest = (cs.drop x.more).drop x.gap := rfl
    rw [hemit] at hstring htoken hreads hleft
    refine ⟨hstring, _, _, hreads.behind hbehind.white hbehind.rest_eq hbehind.place_eq, ?_⟩
    rw [hleft, List.take_append_drop]
    exact htoken

theorem Reads.spelled {before tail gap more : List Char} {ts : List Token}
    (h : l.Reads gap t more l') (hshape : t.Shape (more ++ l'.rest))
    (htail : ∀ c ∈ tail, isWhite c = true) (hplace : l.place = Place.behind (before ++ tail))
    (hts : Spelled (before ++ (tail ++ gap) ++ t.spelling.toList) (more ++ l'.rest) ts) :
    Spelled before (tail ++ l.rest) (t :: ts) := by
  refine ⟨tail ++ gap, more ++ l'.rest, List.forall_mem_append.2 ⟨htail, h.gap_white⟩, ?_, ?_,
    h.spelling_eq, hshape, hts⟩
  · rw [h.rest_eq, List.append_assoc]
  · rw [h.token_place, hplace, ← Place.behind_append, List.append_assoc]

/-- The tokens up to the end of the text, from any state: `before` is what stands before the blanks
`tail` that the last reading took along. -/
theorem run_spelled (ref : Option Reference) (l : Lexer) {before tail : List Char}
    (hl : l.nesting.Stringless) (htail : ∀ c ∈ tail, isWhite c = true)
    (hplace : l.place = Place.behind (before ++ tail)) :
    Spelled before (tail ++ l.rest) (l.run ref).1 := by
  fun_induction Lexer.run ref l generalizing before tail with
  | case1 l hnone => trivial
  | case2 l t l' hnext hend =>
    obtain ⟨-, gap, more, hreads, hshape⟩ := next?_shape hnext hl
    exact hreads.spelled hshape htail hplace trivial
  | case3 l t l' hnext hmore ts last hrun ih =>
    obtain ⟨hl', gap, more, hreads, hshape⟩ := next?_shape hnext hl
    have hplace' :
        l'.place = Place.behind (before ++ (tail ++ gap) ++ t.spelling.toList ++ more) := by
      rw [hreads.place_eq, hplace, ← Place.behind_append]
      simp only [List.append_assoc]
    have hts := ih hl' hreads.tail_white hplace'
    rw [hrun] at hts
    exact hreads.spelled hshape htail hplace hts

end Lexer

/-- **The tokens of a text are spelled in it.** -/
theorem tokenize_spelled (ref : Option Reference) (limit : Int) (text : String) :
    Spelled [] text.toList (tokenize ref limit text).1 :=
  Lexer.run_spelled ref (Lexer.ofText limit text) (Nesting.stringless_ofLimit limit)
    (fun _ hc => absurd hc List.not_mem_nil) rfl

end Asm6510
