import Asm6510.Proofs.Token.Composition
import Mathlib

/-!
# The text of a line comment

A line comment is read up to the end of its line, and what is read before it stops at its mark. So
another text in the comment gives the same tokens before it, and behind it the same state in another
column of its line.

* `CommentMark`: the marks of line comments, and what stands before them.
* `Nesting.Reached`: no push was refused beyond a place.
* `Lexer.next?_comment`: the reading of a comment, with any text in it.

Main statement: `tokenize_comment`, the tokens with any text in one of the comments.
-/

namespace Asm6510

/-- Two beginnings of a text that end at the same place are the same. -/
theorem Place.after_inj {p : Place} {xs ys text : List Char} (hx : xs <+: text) (hy : ys <+: text)
    (h : p.after xs = p.after ys) : xs = ys := by
  have hnil : ∀ (q : Place) (zs : List Char), q.after zs = q → zs = [] := by
    intro q zs hzs
    by_contra hne
    have hbefore := q.before_after hne
    rw [hzs, before_iff] at hbefore
    omega
  rcases List.prefix_or_prefix_of_prefix hx hy with ⟨zs, rfl⟩ | ⟨zs, rfl⟩
  · rw [after_append] at h
    rw [hnil _ _ h.symm, List.append_nil]
  · rw [after_append] at h
    rw [hnil _ _ h, List.append_nil]

/-- Behind a line feed it does not matter where the line ended. -/
theorem Place.next_line_feed {p q : Place} (h : p.line = q.line) : p.next '\n' = q.next '\n' := by
  unfold next
  rw [h]
  rfl

open Lexing

/-- The mark of a line comment. A semicolon between apostrophes would be a character. -/
def CommentMark (front mark : List Char) : Prop :=
  mark = ['/', '/'] ∨ mark = [';'] ∧ front.getLast? ≠ some '\''

theorem CommentMark.stops {front mark : List Char} (h : CommentMark front mark) :
    ∃ d more, mark = d :: more ∧ ∀ rest, Stops front d (more ++ rest) := by
  rcases h with rfl | ⟨rfl, hlast⟩
  · refine ⟨'/', ['/'], rfl, fun rest => ⟨rfl, fun _ => .inr ?_⟩⟩
    simp
  · exact ⟨';', [], rfl, fun rest => ⟨rfl, fun hquote => absurd hquote hlast⟩⟩

theorem CommentMark.suffix {front mark w : List Char} (h : CommentMark front mark)
    (hw : w <:+ front) : CommentMark w mark := by
  refine h.imp_right fun ⟨hmark, hlast⟩ => ⟨hmark, fun hquote => hlast ?_⟩
  obtain ⟨before, rfl⟩ := hw
  rw [List.getLast?_append, hquote]
  rfl

/-! ## The rest of a line -/

section Line

variable {body back : List Char}

/-- A line goes on to its line feed or to the end of the text. -/
theorem takeWhile_line (hbody : '\n' ∉ body) (hback : back = [] ∨ back.head? = some '\n') :
    (body ++ back).takeWhile (· != '\n') = body ∧ (body ++ back).dropWhile (· != '\n') = back := by
  have hall : ∀ c ∈ body, (c != '\n') = true := by
    intro c hc
    exact bne_iff_ne.2 fun heq => hbody (heq ▸ hc)
  have hstop : back.takeWhile (· != '\n') = [] ∧ back.dropWhile (· != '\n') = back := by
    rcases hback with rfl | hhead
    · exact ⟨rfl, rfl⟩
    · obtain ⟨rest, rfl⟩ := List.head?_eq_some_iff.1 hhead
      exact ⟨rfl, rfl⟩
  rw [List.takeWhile_append_of_pos hall, List.dropWhile_append_of_pos hall, hstop.1, hstop.2,
    List.append_nil]
  exact ⟨rfl, rfl⟩

theorem line_of_takeWhile (h : (body ++ back).takeWhile (· != '\n') = body) :
    '\n' ∉ body ∧ (back = [] ∨ back.head? = some '\n') := by
  have hall : ∀ c ∈ body, (c != '\n') = true := by
    intro c hc
    rw [← h] at hc
    exact List.mem_takeWhile_imp (p := (· != '\n')) hc
  refine ⟨fun hmem => absurd (hall _ hmem) (by decide), ?_⟩
  rw [List.takeWhile_append_of_pos hall, List.append_right_eq_self] at h
  cases back with
  | nil => exact .inl rfl
  | cons c back =>
    rw [List.takeWhile_cons] at h
    split at h
    · cases h
    · rename_i hc
      exact .inr (by simpa using hc)

end Line

/-! ## Reading a comment -/

namespace Lexer

variable {ref : Option Reference} {l m : Lexer} {t : Token} {c : Char} {cs : List Char}

def commentToken (literal : List Char) (place : Place) (context : Context) : Token :=
  ⟨.lineComment, String.ofList literal, place, context, Note.none⟩

theorem emit_lineComment (l : Lexer) (c : Char) (cs : List Char) :
    l.emit c cs (lineComment cs) =
      (commentToken (c :: cs.takeWhile (· != '\n')) l.place l.nesting.endLine.top,
        ⟨cs.dropWhile (· != '\n'), l.place.after (c :: cs.takeWhile (· != '\n')), l.parens,
          l.nesting.endLine⟩) := by
  have hmore : (lineComment cs).more = (cs.takeWhile (· != '\n')).length := rfl
  have htake : cs.take (lineComment cs).more = cs.takeWhile (· != '\n') := by
    rw [hmore]
    exact (List.prefix_iff_eq_take.1 (List.takeWhile_prefix _)).symm
  have hdrop : cs.drop (lineComment cs).more = cs.dropWhile (· != '\n') := drop_run _ cs
  unfold emit
  rw [htake, hdrop]
  rfl

theorem skipBlanks_of_not_white (hrest : l.rest = c :: cs) (hc : isWhite c = false) :
    l.skipBlanks = l := by
  have hskip : isSkipped l.nesting.top.mode c = false := by
    rw [← Bool.not_eq_true]
    intro h
    rw [isWhite_of_isSkipped h] at hc
    cases hc
  obtain ⟨rest, place, parens, nesting⟩ := l
  dsimp only at hrest hskip
  subst hrest
  simp [skipBlanks, hskip, Place.after]

/-- Where a semicolon starts no comment, no comment is read. -/
theorem modeAction_semicolon {mode : Mode} {x : Lexeme}
    (h : modeAction ref mode ';' cs = .emit x) : x.kind ≠ .lineComment := by
  have hoperator : (operator ';' cs).kind ≠ .lineComment := by
    cases cs with
    | nil => decide
    | cons d cs => exact TokenKind.noConfusion
  have hmnemonic : mnemonicAt? ref ';' cs = none := by
    unfold mnemonicAt?
    split
    · rfl
    · rfl
  have hstatement : statement ref ';' cs = operator ';' cs := by
    unfold statement
    rw [hmnemonic]
    rfl
  cases mode with
  | stringLiteral =>
    cases h
    exact TokenKind.noConfusion
  | instruction => cases h
  | directive | expression | addressing | operand =>
    cases h
    exact hoperator
  | normal | forLoop | block | conditional =>
    cases h
    rw [hstatement]
    exact hoperator

/-- In parentheses a semicolon starts no comment. -/
theorem next?_semicolon (hrest : l.rest = ';' :: cs) (hparens : l.parens ≠ 0)
    (h : l.next? ref = some (t, m)) : t.kind ≠ .lineComment := by
  obtain ⟨gap, k, hbehind, -, hread⟩ :=
    next?_cases h (P := fun _ => True) (fun _ _ => trivial) (fun _ _ _ => trivial) trivial
  have hgap : gap = [] := by
    cases gap with
    | nil => rfl
    | cons c gap =>
      have hc : ';' = c := (List.cons.inj (hrest.symm.trans hbehind.rest_eq)).1
      have hwhite := hbehind.white c List.mem_cons_self
      rw [← hc] at hwhite
      cases hwhite
  have hk : k.rest = ';' :: cs := by
    rw [← hrest, hbehind.rest_eq, hgap, List.nil_append]
  rcases hread with ⟨hnil, -, -⟩ | ⟨c, cs', x, hcons, -, hx, hemit⟩
  · rw [hnil] at hk
    cases hk
  · obtain ⟨rfl, rfl⟩ := List.cons.inj (hcons.symm.trans hk)
    have hkind : t.kind = x.kind := by
      rw [← show (k.emit ';' cs' x).1 = t from congrArg Prod.fst hemit]
      exact (emit_kind k ';' cs' x).1
    rw [actionAt_of_no_slash (by simp) (by simp), if_neg (by simp [hbehind.parens_eq, hparens])]
      at hx
    rw [hkind]
    exact modeAction_semicolon hx

/-- Blanks alone are read as the end of the text. -/
theorem next?_white (h : l.next? ref = some (t, m)) (hwhite : ∀ c ∈ l.rest, isWhite c = true) :
    t.kind = .endOfText := by
  obtain ⟨gap, k, hbehind, -, ⟨-, rfl, -⟩ | ⟨c, cs, x, hrest, hskip, hx, -⟩⟩ :=
    next?_cases h (P := fun _ => True) (fun _ _ => trivial) (fun _ _ _ => trivial) trivial
  · rfl
  · have hc : isWhite c = true := hwhite c (by rw [hbehind.rest_eq, hrest]; simp)
    simp only [isSkipped, isLineBlank, Bool.or_eq_false_iff, Bool.and_eq_false_iff] at hskip
    obtain rfl : c = '\n' := by simpa [isWhite, hskip.1] using hc
    rw [actionAt_newline (by simpa using hskip.2)] at hx
    cases hx

end Lexer

/-! ## Where pushes are refused -/

/-- A place that is not behind another one. -/
def Place.UpTo (p q : Place) : Prop :=
  p = q ∨ p.before q = true

theorem Place.UpTo.trans {p q r : Place} (h : p.UpTo q) (h' : q.UpTo r) : p.UpTo r := by
  rcases h with rfl | h
  · exact h'
  · rcases h' with rfl | h'
    · exact .inr h
    · exact .inr (Place.before_trans h h')

theorem Place.upTo_after (p : Place) (cs : List Char) : p.UpTo (p.after cs) := by
  cases cs with
  | nil => exact .inl rfl
  | cons c cs => exact .inr (p.before_after (List.cons_ne_nil c cs))

namespace Nesting

/-- A refused push is noted at its place, unless one was noted before. -/
theorem overflow_push (n : Nesting) (place : Place) (mode : Mode) (directive : String) :
    (n.push place mode directive).overflow = n.overflow ∨
      (n.push place mode directive).overflow = some place := by
  unfold push
  split
  · cases h : n.overflow with
    | none => exact .inr rfl
    | some p => exact .inl rfl
  · exact .inl rfl

theorem overflow_edit (n : Nesting) (place : Place) (x : Edit) :
    (n.edit place x).overflow = n.overflow ∨ (n.edit place x).overflow = some place :=
  edit_rec (P := fun m => m.overflow = n.overflow ∨ m.overflow = some place)
    (fun mode directive _ => n.overflow_push place mode directive) (.inl n.overflow_pop) (.inl rfl)

theorem overflow_apply (n : Nesting) (place : Place) (edits : List Edit) :
    (n.apply place edits).overflow = n.overflow ∨ (n.apply place edits).overflow = some place := by
  induction edits generalizing n with
  | nil => exact .inl rfl
  | cons x edits ih =>
    rcases ih (n.edit place x) with hsame | hplace
    · rw [show n.apply place (x :: edits) = (n.edit place x).apply place edits from rfl, hsame]
      exact n.overflow_edit place x
    · exact .inr hplace

/-- No push was refused beyond the place. -/
def Reached (n : Nesting) (place : Place) : Prop :=
  ∀ p, n.overflow = some p → p.UpTo place

variable {n m : Nesting} {place place' : Place}

theorem Reached.mono (h : n.Reached place) (hle : place.UpTo place') : n.Reached place' :=
  fun p hp => (h p hp).trans hle

theorem Reached.of_overflow (h : n.Reached place)
    (hm : m.overflow = n.overflow ∨ m.overflow = some place) : m.Reached place := by
  intro p hp
  rcases hm with hm | hm
  · exact h p (hm.symm.trans hp)
  · exact .inl (Option.some.inj (hm.symm.trans hp)).symm

theorem Reached.pop (h : n.Reached place) : n.pop.Reached place :=
  h.of_overflow (.inl n.overflow_pop)

theorem Reached.push (h : n.Reached place) (mode : Mode) (directive : String) :
    (n.push place mode directive).Reached place :=
  h.of_overflow (n.overflow_push place mode directive)

theorem Reached.apply (h : n.Reached place) (edits : List Edit) :
    (n.apply place edits).Reached place :=
  h.of_overflow (n.overflow_apply place edits)

end Nesting

namespace Lexer

variable {ref : Option Reference} {l m : Lexer} {t : Token}

theorem reached_emit (h : l.nesting.Reached l.place) (c : Char) (cs : List Char) (x : Lexeme) :
    (l.emit c cs x).2.nesting.Reached (l.emit c cs x).2.place := by
  have hopen := (h.apply x.opening).mono (l.place.upTo_after (c :: cs.take x.more))
  exact ((hopen.apply x.closing).apply x.following).mono (Place.upTo_after _ _)

/-- A reading refuses pushes only where it has come. -/
theorem next?_reached (h : l.next? ref = some (t, m)) (hl : l.nesting.Reached l.place) :
    m.nesting.Reached m.place := by
  have hskip : ∀ l : Lexer, l.nesting.Reached l.place →
      l.skipBlanks.nesting.Reached l.skipBlanks.place :=
    fun l hl => hl.mono (l.place.upTo_after _)
  fun_induction next? ref l with
  | case1 l s hr =>
    obtain ⟨-, rfl⟩ := Prod.mk.inj (Option.some.inj h)
    exact hskip l hl
  | case2 l s c cs hr x hx =>
    rw [← show (s.emit c cs x).2 = m from congrArg Prod.snd (Option.some.inj h)]
    exact reached_emit (hskip l hl) c cs x
  | case3 l s c cs hr hx ih =>
    exact ih h ((hskip l hl).pop.mono (.inr (s.place.before_next c)))
  | case4 l s c cs hr hx hp ih => exact ih h (hskip l hl).pop
  | case5 => cases h
  | case6 l s c cs hr hx hp ih => exact ih h ((hskip l hl).pop.push _ _)
  | case7 => cases h

/-! ## A comment with any text -/

variable {w mark tail : List Char}

/-- **A comment is read in the same way with any text in it.** -/
theorem next?_comment (hl : l.nesting.Orderly) (hreached : l.nesting.Reached l.place)
    (hw : ∀ c ∈ w, isWhite c = true) (hmark : CommentMark w mark)
    (h : next? ref { l with rest := w ++ (mark ++ tail) } = some (t, m))
    (ht : t.kind = .lineComment) :
    ∃ parens n, Nesting.Reached n (l.place.after w) ∧ ∀ other : List Char,
      next? ref { l with rest := w ++ (mark ++ other) } =
        some (commentToken (mark ++ other.takeWhile (· != '\n')) (l.place.after w) n.top,
          ⟨other.dropWhile (· != '\n'),
            l.place.after (w ++ (mark ++ other.takeWhile (· != '\n'))), parens, n⟩) := by
  -- the state behind the blanks does not depend on what follows them
  obtain ⟨u, k, hend, -⟩ := next?_returns ref (l := { l with rest := w }) hl
  have hkind := next?_white hend hw
  have hresume := next?_resume hend hkind
  have hplace : k.place = l.place.after w := by
    obtain ⟨gap, tail, hreads⟩ := next?_reads hend
    have hleft := hreads.rest_end hkind
    have hrest : w = gap ++ (u.spelling.toList ++ (tail ++ k.rest)) := hreads.rest_eq
    rw [hreads.place_eq, hrest, hleft, (List.append_eq_nil_iff.1 hleft).1]
  have hk := next?_reached hend hreached
  rw [hplace] at hk
  -- nor does it depend on the text of a comment that one is read
  obtain ⟨d, more, rfl, hread⟩ : ∃ d more, mark = d :: more ∧ isWhite d = false ∧
      ∀ other : List Char, actionAt ref k.nesting.top.mode k.parens d (more ++ other) =
          .emit (lineComment (more ++ other)) ∧
        (more ++ other).takeWhile (· != '\n') = more ++ other.takeWhile (· != '\n') ∧
        (more ++ other).dropWhile (· != '\n') = other.dropWhile (· != '\n') := by
    rcases hmark with rfl | ⟨rfl, -⟩
    · exact ⟨'/', ['/'], rfl, rfl, fun _ => ⟨rfl, rfl, rfl⟩⟩
    · have hparens : k.parens = 0 := by
        by_contra hparens
        have hsemicolon : next? ref { k with rest := ';' :: tail } = some (t, m) :=
          (hresume _).symm.trans h
        exact @next?_semicolon ref { k with rest := ';' :: tail } m t _ rfl hparens hsemicolon ht
      refine ⟨';', [], rfl, rfl, fun other => ⟨?_, rfl, rfl⟩⟩
      rw [actionAt_of_no_slash (by simp) (by simp), if_pos ⟨rfl, hparens⟩]
  obtain ⟨hwhite, hread⟩ := hread
  refine ⟨k.parens, k.nesting.endLine, hk.apply [.endLine], fun other => ?_⟩
  obtain ⟨hx, htake, hdrop⟩ := hread other
  have hcomment : next? ref { k with rest := d :: (more ++ other) } =
      some (emit { k with rest := d :: (more ++ other) } d (more ++ other)
        (lineComment (more ++ other))) :=
    next?_emit (skipBlanks_of_not_white rfl hwhite) rfl hx
  rw [emit_lineComment, htake, hdrop, hplace, ← Place.after_append] at hcomment
  rw [hplace] at hresume
  exact (hresume (d :: more ++ other)).trans hcomment

theorem mem_run_place {u : Token} (hu : u ∈ (l.run ref).1) :
    ∃ read, read <+: l.rest ∧ u.place = l.place.after read := by
  fun_induction run ref l with
  | case1 l hnone => exact absurd hu List.not_mem_nil
  | case2 l t m hnext hend =>
    obtain ⟨gap, tail, hreads⟩ := next?_reads hnext
    rw [List.mem_singleton.1 hu]
    exact ⟨gap, ⟨_, hreads.rest_eq.symm⟩, hreads.token_place⟩
  | case3 l t m hnext hmore ts last hrun ih =>
    obtain ⟨gap, tail, hreads⟩ := next?_reads hnext
    rcases List.mem_cons.1 hu with rfl | hu
    · exact ⟨gap, ⟨_, hreads.rest_eq.symm⟩, hreads.token_place⟩
    · rw [hrun] at ih
      obtain ⟨read, ⟨rest, hread⟩, hplace⟩ := ih hu
      refine ⟨gap ++ (t.spelling.toList ++ tail) ++ read, ⟨rest, ?_⟩, ?_⟩
      · rw [hreads.rest_eq, ← hread]
        simp only [List.append_assoc]
      · rw [hplace, hreads.place_eq, ← Place.after_append]

/-- A reading stands before what is found behind it: what it took, and what it left. -/
theorem Reads.exists_taken {gap blanks read rest : List Char} (h : l.Reads gap t blanks m)
    (hread : read <+: m.rest) (hrest : l.rest = w ++ rest)
    (hplace : m.place.after read = l.place.after w) :
    ∃ taken, w = taken ++ read ∧ m.rest = read ++ rest ∧ m.place = l.place.after taken := by
  obtain ⟨left, hleft⟩ := hread
  have hwhole : l.rest = gap ++ (t.spelling.toList ++ blanks) ++ read ++ left := by
    rw [h.rest_eq, ← hleft]
    simp only [List.append_assoc]
  have hw : w = gap ++ (t.spelling.toList ++ blanks) ++ read := by
    refine Place.after_inj (p := l.place) ⟨_, hrest.symm⟩ ⟨_, hwhole.symm⟩ ?_
    rw [Place.after_append, ← h.place_eq, hplace]
  refine ⟨_, hw, ?_, h.place_eq⟩
  rw [← hleft]
  rw [hrest, hw] at hwhole
  rw [List.append_cancel_left hwhole]

/-- What is read before a comment does not depend on its text. -/
theorem next?_before_comment {read : List Char} (hrest : l.rest = w ++ (mark ++ tail))
    (hmark : CommentMark w mark) (h : l.next? ref = some (t, m))
    (hm : m.rest = read ++ (mark ++ tail)) (other : List Char) :
    next? ref { l with rest := w ++ (mark ++ other) } =
      some (t, { m with rest := read ++ (mark ++ other) }) := by
  obtain ⟨d, more, rfl, hstops⟩ := hmark.stops
  have hleft : (more ++ tail).length < m.rest.length := by
    rw [hm]
    simp
    omega
  obtain ⟨v, -, hv, hnext⟩ := next?_before hrest (hstops _) (hstops other) h hleft
  obtain rfl : v = read := List.append_cancel_right (hv.symm.trans hm)
  exact hnext

/-- **A run over a text with any text in one of its comments**: the tokens before the comment are
the same, and behind it is the same state in another column. -/
theorem run_comment (hl : l.nesting.Orderly) (hreached : l.nesting.Reached l.place)
    (hrest : l.rest = w ++ (mark ++ tail)) (hmark : CommentMark w mark)
    (ht : t ∈ (l.run ref).1) (hkind : t.kind = .lineComment)
    (hplace : t.place = l.place.after w) :
    ∃ before parens n, Nesting.Orderly n ∧ n.Reached (l.place.after w) ∧
      t = commentToken (mark ++ tail.takeWhile (· != '\n')) (l.place.after w) n.top ∧
      ∀ other : List Char,
        let behind : Lexer := ⟨other.dropWhile (· != '\n'),
          l.place.after (w ++ (mark ++ other.takeWhile (· != '\n'))), parens, n⟩
        run ref { l with rest := w ++ (mark ++ other) } =
          (before ++ commentToken (mark ++ other.takeWhile (· != '\n')) (l.place.after w) n.top ::
            (behind.run ref).1, (behind.run ref).2) := by
  revert w
  fun_induction run ref l with
  | case1 l hnone => exact absurd ht List.not_mem_nil
  | case2 l u m hnext hend =>
    rw [List.mem_singleton.1 ht, hend] at hkind
    cases hkind
  | case3 l u m hnext hmore ts last hrun ih =>
    intro w hrest hmark hplace
    have horderly := next?_orderly hnext hl
    obtain ⟨gap, blanks, hreads⟩ := next?_reads hnext
    by_cases htu : t = u
    · -- the comment is the next token, so only blanks stand before it
      subst htu
      have hgap : gap = w := by
        refine Place.after_inj (p := l.place) ⟨_, hreads.rest_eq.symm⟩ ⟨_, hrest.symm⟩ ?_
        rw [← hreads.token_place, hplace]
      have hcomment : next? ref { l with rest := w ++ (mark ++ tail) } = some (t, m) := by
        rw [← hrest]
        exact hnext
      obtain ⟨parens, n, hn, hread⟩ := next?_comment hl hreached
        (fun c hc => hreads.gap_white c (hgap ▸ hc)) hmark hcomment hkind
      rw [hread tail] at hcomment
      obtain ⟨rfl, rfl⟩ := Prod.mk.inj (Option.some.inj hcomment)
      refine ⟨[], parens, n, horderly, hn, rfl, fun other => ?_⟩
      exact run_of_token (hread other) TokenKind.noConfusion
    · have hts : t ∈ (m.run ref).1 := by
        rw [hrun]
        exact (List.mem_cons.1 ht).resolve_left htu
      obtain ⟨read, hread, htplace⟩ := mem_run_place hts
      obtain ⟨taken, rfl, hm, hmplace⟩ :=
        hreads.exists_taken hread hrest (htplace.symm.trans hplace)
      have hplaces : ∀ xs, m.place.after (read ++ xs) = l.place.after (taken ++ read ++ xs) := by
        intro xs
        rw [hmplace, ← Place.after_append, List.append_assoc]
      have hreadplace : m.place.after read = l.place.after (taken ++ read) := by
        have := hplaces []
        rwa [List.append_nil, List.append_nil] at this
      obtain ⟨before, parens, n, hn, hupto, htoken, hothers⟩ :=
        ih horderly (next?_reached hnext hreached) hts hm (hmark.suffix ⟨taken, rfl⟩) htplace
      rw [hreadplace] at hupto htoken
      refine ⟨u :: before, parens, n, hn, hupto, htoken, fun other => ?_⟩
      rw [run_of_token (next?_before_comment hrest hmark hnext hm other) hmore, hothers other,
        hreadplace, hplaces]
      rfl

/-! ## Behind the comment -/

/-- At a line feed only the line of a place counts. -/
theorem next?_line_feed {p q : Place} (hline : p.line = q.line) (cs : List Char) (parens : Nat)
    (n : Nesting) :
    next? ref ⟨'\n' :: cs, p, parens, n⟩ = next? ref ⟨'\n' :: cs, q, parens, n⟩ := by
  have hnext := Place.next_line_feed hline
  cases hskip : isSkipped n.top.mode '\n' with
  | true =>
    apply next?_eq_of_skipBlanks
    simp only [skipBlanks, List.dropWhile_cons, List.takeWhile_cons, hskip, ↓reduceIte,
      Place.after_cons, hnext]
  | false =>
    have hstay : ∀ r : Place,
        skipBlanks ⟨'\n' :: cs, r, parens, n⟩ = ⟨'\n' :: cs, r, parens, n⟩ := by
      intro r
      simp [skipBlanks, hskip, Place.after]
    have hends : n.top.mode.endsAtLine = true := by
      simpa [isSkipped, isLineBlank] using hskip
    rw [next?_newline (hstay p) rfl (actionAt_newline hends _ _),
      next?_newline (hstay q) rfl (actionAt_newline hends _ _), hnext]

theorem run_congr_of_next? (hl : l.nesting.Orderly) (h : l.next? ref = m.next? ref) :
    l.run ref = m.run ref := by
  obtain ⟨t, k, hk, -⟩ := next?_returns ref hl
  have hm := h.symm.trans hk
  by_cases hend : t.kind = .endOfText
  · rw [run_of_end hk hend, run_of_end hm hend]
  · rw [run_of_token hk hend, run_of_token hm hend]

theorem run_nil (p : Place) (parens : Nat) (n : Nesting) :
    run ref ⟨[], p, parens, n⟩ =
      ([⟨.endOfText, "", p, n.top, Note.none⟩], ⟨[], p, parens, n⟩) :=
  run_of_end (next?_nil rfl rfl) rfl

end Lexer

/-- **A text with any text in one of its comments**: the tokens before the comment are the same, and
behind it is the same state in another column. -/
theorem tokenize_comment {ref : Option Reference} {limit : Int} {text : String} {t : Token}
    {front mark tail : List Char} (htext : text.toList = front ++ (mark ++ tail))
    (hmark : CommentMark front mark) (ht : t ∈ (tokenize ref limit text).1)
    (hkind : t.kind = .lineComment) (hplace : t.place = Place.behind front) :
    ∃ before parens n, Nesting.Orderly n ∧ n.Reached (Place.behind front) ∧
      t = Lexer.commentToken (mark ++ tail.takeWhile (· != '\n')) (Place.behind front) n.top ∧
      ∀ other : List Char,
        let behind : Lexer := ⟨other.dropWhile (· != '\n'),
          Place.behind (front ++ (mark ++ other.takeWhile (· != '\n'))), parens, n⟩
        tokenize ref limit (String.ofList (front ++ (mark ++ other))) =
          (before ++ Lexer.commentToken (mark ++ other.takeWhile (· != '\n'))
            (Place.behind front) n.top :: (behind.run ref).1, (behind.run ref).2) := by
  have hreached : (Lexer.ofText limit text).nesting.Reached Place.start := by
    intro p hp
    cases hp
  have hstart : ∀ cs, (Lexer.ofText limit text).place.after cs = Place.behind cs :=
    Place.start_after
  obtain ⟨before, parens, n, hn, hupto, htoken, hrun⟩ :=
    Lexer.run_comment (Nesting.orderly_ofLimit limit) hreached htext hmark ht hkind
      (hplace.trans (hstart front).symm)
  rw [hstart] at hupto htoken
  refine ⟨before, parens, n, hn, hupto, htoken, fun other => ?_⟩
  have hread := hrun other
  simp only [hstart] at hread
  show (Lexer.ofText limit (String.ofList _)).run ref = _
  rw [Lexer.ofText, String.toList_ofList]
  exact hread

end Asm6510
