import Asm6510.Proofs.Token.Shape
import Asm6510.Usage
import Mathlib

/-!
# Scanning a line for comments

The automaton of `inComment` on the pieces that a line is made of.

* `LineState.across`: the state after some characters, with those behind them.
* `openParens`, `severs`: the parentheses that are open after some characters, and whether a
  semicolon stands among them where none is open; `severs_iff` says the latter without recursion.
* `lastLine`: the characters behind the last line feed.

One lemma for each kind of piece: blanks (`across_blanks`), unmarked characters
(`across_unmarked`), the rest of a string (`across_string`) and of a block comment (`across_block`).
`placeInComment_behind` says that a place is in a comment if the scan of the characters before it in
its line ends there.
-/

namespace Asm6510

/-! ## Parentheses and semicolons -/

/-- The number of open parentheses after a character. -/
def parenStep (depth : Nat) (c : Char) : Nat :=
  if c = '(' then depth + 1 else if c = ')' then depth - 1 else depth

/-- The number of open parentheses after some characters. A closing one without partner does not
count. -/
def openParens (depth : Nat) (w : List Char) : Nat :=
  w.foldl parenStep depth

/-- Whether a semicolon stands outside of parentheses. -/
def severs : (depth : Nat) → List Char → Bool
  | _, [] => false
  | depth, c :: w => (c == ';' && depth == 0) || severs (parenStep depth c) w

theorem openParens_append (depth : Nat) (u w : List Char) :
    openParens depth (u ++ w) = openParens (openParens depth u) w :=
  List.foldl_append

theorem severs_append (depth : Nat) (u w : List Char) :
    severs depth (u ++ w) = (severs depth u || severs (openParens depth u) w) := by
  induction u generalizing depth with
  | nil => rfl
  | cons c u ih =>
    rw [List.cons_append, severs, severs, ih, Bool.or_assoc]
    rfl

/-- A semicolon stands outside of parentheses if none is open at it. -/
theorem severs_iff (depth : Nat) (w : List Char) :
    severs depth w = true ↔ ∃ u, u ++ [';'] <+: w ∧ openParens depth u = 0 := by
  induction w generalizing depth with
  | nil =>
    rw [severs]
    constructor
    · intro h
      cases h
    · rintro ⟨u, hu, -⟩
      simp at hu
  | cons c w ih =>
    rw [severs, Bool.or_eq_true, ih, Bool.and_eq_true, beq_iff_eq, beq_iff_eq]
    constructor
    · rintro (⟨rfl, hdepth⟩ | ⟨u, hu, hdepth⟩)
      · exact ⟨[], List.prefix_append [';'] w, hdepth⟩
      · exact ⟨c :: u, (List.cons_prefix_cons.2 ⟨rfl, hu⟩), hdepth⟩
    · rintro ⟨u, hu, hdepth⟩
      cases u with
      | nil => exact .inl ⟨(List.cons_prefix_cons.1 hu).1.symm, hdepth⟩
      | cons d u =>
        obtain ⟨rfl, hmore⟩ := List.cons_prefix_cons.1 hu
        exact .inr ⟨u, hmore, hdepth⟩

theorem severs_eq_false_iff (depth : Nat) (w : List Char) :
    severs depth w = false ↔ ∀ u, u ++ [';'] <+: w → 0 < openParens depth u := by
  rw [← Bool.not_eq_true, severs_iff, not_exists]
  simp only [not_and, Nat.pos_iff_ne_zero, ne_eq]

/-! ## States -/

namespace LineState

/-- The state after the characters `w`, which stand before `rest`. -/
def across (s : LineState) (w rest : List Char) : LineState :=
  s.after w.length (w ++ rest)

theorem across_nil (s : LineState) (rest : List Char) : s.across [] rest = s := by
  rw [across, List.length_nil, after]

theorem across_cons (s : LineState) (c : Char) (w rest : List Char) :
    s.across (c :: w) rest = (s.step c (w ++ rest).head?).across w rest :=
  rfl

theorem across_append (s : LineState) (u w rest : List Char) :
    s.across (u ++ w) rest = (s.across u (w ++ rest)).across w rest := by
  induction u generalizing s with
  | nil => rw [List.nil_append, across_nil]
  | cons c u ih => rw [List.cons_append, across_cons, across_cons, ih, List.append_assoc]

/-- Of what stands behind, only the first character counts. -/
theorem across_congr (s : LineState) (w : List Char) {rest rest' : List Char}
    (h : rest.head? = rest'.head?) : s.across w rest = s.across w rest' := by
  induction w generalizing s with
  | nil => rw [across_nil, across_nil]
  | cons c w ih =>
    have hhead : (w ++ rest).head? = (w ++ rest').head? := by
      rw [List.head?_append, List.head?_append, h]
    rw [across_cons, across_cons, hhead, ih]

theorem across_comment (w rest : List Char) : comment.across w rest = comment := by
  induction w with
  | nil => exact across_nil _ _
  | cons c w ih => rw [across_cons, step, ih]

theorem step_code {c : Char} {following : Option Char} (hquote : c ≠ '"')
    (hmark : startsComment c following = false) (depth : Nat) :
    (code depth).step c following =
      if c = ';' ∧ depth = 0 then comment else code (parenStep depth c) := by
  have hline : (c == '/' && following == some '/') = false := by
    rw [startsComment, Bool.and_or_distrib_left, Bool.or_eq_false_iff] at hmark
    exact hmark.1
  have hblock : (c == '/' && following == some '*') = false := by
    rw [startsComment, Bool.and_or_distrib_left, Bool.or_eq_false_iff] at hmark
    exact hmark.2
  rw [step, beq_eq_false_iff_ne.2 hquote, hline, hblock]
  by_cases hsemicolon : c = ';' ∧ depth = 0
  · simp [hsemicolon]
  · have hcode : (c == ';' && depth == 0) = false := by
      simpa using hsemicolon
    rw [hcode, if_neg hsemicolon, parenStep]
    by_cases hopen : c = '('
    · simp [hopen]
    · by_cases hclose : c = ')'
      · simp [hclose]
      · simp [hopen, hclose]

/-- The state of the scan of a line whose code is `w`. -/
def scanned (w : List Char) : LineState :=
  if severs 0 w then comment else code (openParens 0 w)

theorem inside_scanned (w : List Char) : (scanned w).inside = severs 0 w := by
  rw [scanned]
  cases severs 0 w with
  | true => rfl
  | false => rfl

theorem across_unmarked {w rest : List Char} (h : Unmarked w rest) (hquote : '"' ∉ w)
    (depth : Nat) :
    (code depth).across w rest =
      if severs depth w then comment else code (openParens depth w) := by
  induction w generalizing depth with
  | nil => rw [across_nil, severs]; rfl
  | cons c w ih =>
    obtain ⟨-, hmark, hw⟩ := h
    obtain ⟨hc, hquote⟩ := not_or.1 (mt List.mem_cons.2 hquote)
    rw [across_cons, step_code (Ne.symm hc) hmark, severs]
    by_cases hsemicolon : c = ';' ∧ depth = 0
    · rw [if_pos hsemicolon, across_comment]
      simp [hsemicolon]
    · have hcode : (c == ';' && depth == 0) = false := by
        simpa using hsemicolon
      rw [if_neg hsemicolon, ih hw hquote, hcode, Bool.false_or]
      rfl

/-- Unmarked characters behind others go on with the scan. -/
theorem scanned_across {w rest : List Char} (h : Unmarked w rest) (hquote : '"' ∉ w)
    (u : List Char) : (scanned u).across w rest = scanned (u ++ w) := by
  rw [scanned, scanned, severs_append, openParens_append]
  cases hu : severs 0 u with
  | true =>
    rw [if_pos rfl, across_comment]
    rfl
  | false =>
    rw [if_neg Bool.false_ne_true, across_unmarked h hquote, Bool.false_or]

theorem scanned_across_of_code {w rest : List Char}
    (h : ∀ depth, (code depth).across w rest = code depth) (u : List Char) :
    (scanned u).across w rest = scanned u := by
  rw [scanned]
  split
  · exact across_comment w rest
  · exact h _

theorem across_blanks {w : List Char} (h : ∀ c ∈ w, Lexing.isWhite c = true) (hline : '\n' ∉ w)
    (rest : List Char) (depth : Nat) : (code depth).across w rest = code depth := by
  induction w with
  | nil => exact across_nil _ _
  | cons c w ih =>
    obtain ⟨hc, hw⟩ := List.forall_mem_cons.1 h
    obtain ⟨hne, hline⟩ := not_or.1 (mt List.mem_cons.2 hline)
    have hblank : c = ' ' ∨ c = '\t' ∨ c = '\r' := by
      simp only [Lexing.isWhite, Bool.or_eq_true, beq_iff_eq] at hc
      grind
    have hstep : (code depth).step c (w ++ rest).head? = code depth := by
      rcases hblank with rfl | rfl | rfl <;> rfl
    rw [across_cons, hstep, ih hw hline]

theorem step_quoted {c : Char} (hquote : c ≠ '"') (hslash : c ≠ '\\') (following : Option Char)
    (depth : Nat) : (quoted depth).step c following = quoted depth := by
  rw [step, beq_eq_false_iff_ne.2 hslash, beq_eq_false_iff_ne.2 hquote]
  rfl

/-- The rest of a string leads back to the code, or to the end of the line. -/
theorem across_string (rest : List Char) (depth : Nat) :
    (quoted depth).across (rest.take (Lexing.stringSize rest))
        (rest.drop (Lexing.stringSize rest)) = code depth ∨
      rest.drop (Lexing.stringSize rest) = [] ∨
      (rest.drop (Lexing.stringSize rest)).head? = some '\n' := by
  fun_induction Lexing.stringSize rest with
  | case1 => exact .inr (.inl rfl)
  | case2 rest => exact .inl rfl
  | case3 rest => exact .inr (.inr rfl)
  | case4 => exact .inr (.inl rfl)
  | case5 rest => exact .inr (.inr rfl)
  | case6 c rest hc ih => exact ih
  | case7 c rest hquote hline hlast hends hmore ih =>
    have hslash := Lexing.ne_backslash hlast hmore
    rw [List.take_succ_cons, List.drop_succ_cons, across_cons, step_quoted hquote hslash]
    exact ih

/-- The rest of a block comment leads back to the code, or to the end of the text. -/
theorem across_block (rest : List Char) (depth : Nat) :
    (block depth).across (rest.take (Lexing.blockCommentSize rest))
        (rest.drop (Lexing.blockCommentSize rest)) = code depth ∨
      rest.drop (Lexing.blockCommentSize rest) = [] := by
  fun_induction Lexing.blockCommentSize rest with
  | case1 => exact .inr rfl
  | case2 rest => exact .inl rfl
  | case3 c rest hopen ih =>
    have hstep : (block depth).step c rest.head? = block depth := by
      rw [step, if_neg]
      intro hclose
      simp only [Bool.and_eq_true, beq_iff_eq] at hclose
      obtain ⟨rest', hrest⟩ := List.head?_eq_some_iff.1 hclose.2
      exact hopen rest' hclose.1 hrest
    rw [List.take_succ_cons, List.drop_succ_cons, across_cons, List.take_append_drop, hstep]
    exact ih

end LineState

theorem newline_not_mem_string (rest : List Char) :
    '\n' ∉ rest.take (Lexing.stringSize rest) := by
  fun_induction Lexing.stringSize rest with
  | case1 | case2 | case3 | case4 | case5 => simp
  | case6 c rest hends ih =>
    rw [List.take_succ_cons, List.take_succ_cons]
    intro hmem
    rcases List.mem_cons.1 hmem with heq | hmem
    · cases heq
    · rcases List.mem_cons.1 hmem with rfl | hmem
      · exact hends rfl
      · exact ih hmem
  | case7 c rest hquote hline hlast hends hmore ih =>
    rw [List.take_succ_cons]
    intro hmem
    rcases List.mem_cons.1 hmem with rfl | hmem
    · exact hline rfl
    · exact ih hmem

/-! ## Lines -/

/-- The characters behind the last line feed. -/
def lastLine (cs : List Char) : List Char :=
  (cs.reverse.takeWhile (· != '\n')).reverse

theorem lastLine_append_of_not_mem {w : List Char} (h : '\n' ∉ w) (cs : List Char) :
    lastLine (cs ++ w) = lastLine cs ++ w := by
  have hw : ∀ c ∈ w.reverse, (c != '\n') = true := by
    intro c hc
    rw [List.mem_reverse] at hc
    exact bne_iff_ne.2 fun heq => h (heq ▸ hc)
  rw [lastLine, List.reverse_append, List.takeWhile_append_of_pos hw, List.reverse_append,
    List.reverse_reverse, lastLine]

theorem lastLine_append_of_mem {w : List Char} (h : '\n' ∈ w) (cs : List Char) :
    lastLine (cs ++ w) = lastLine w := by
  have hshort : ¬ (w.reverse.takeWhile (· != '\n')).length = w.reverse.length := by
    intro hlength
    have hall := (List.takeWhile_prefix (· != '\n')).eq_of_length hlength
    rw [← List.mem_reverse, ← hall] at h
    have hne := List.mem_takeWhile_imp h
    simp at hne
  rw [lastLine, List.reverse_append, List.takeWhile_append, if_neg hshort, lastLine]

theorem newline_not_mem_lastLine (cs : List Char) : '\n' ∉ lastLine cs := by
  intro hmem
  rw [lastLine, List.mem_reverse] at hmem
  have hne := List.mem_takeWhile_imp hmem
  simp at hne

theorem lastLine_eq_self {cs : List Char} (h : '\n' ∉ cs) : lastLine cs = cs :=
  lastLine_append_of_not_mem h []

theorem Place.behind_eq (cs : List Char) :
    Place.behind cs = ⟨1 + cs.count '\n', 1 + (lastLine cs).length⟩ := by
  rw [Place.behind, lastLine, List.length_reverse]

namespace Text

theorem splitChar_cons (sep c : Char) (cs : List Char) :
    ∃ part parts, splitChar sep cs = part :: parts ∧ splitChar sep (c :: cs) =
      if c = sep then [] :: part :: parts else (c :: part) :: parts := by
  induction cs generalizing c with
  | nil => exact ⟨[], [], rfl, rfl⟩
  | cons d cs ih =>
    obtain ⟨part, parts, -, hd⟩ := ih d
    by_cases hsep : d = sep
    · rw [if_pos hsep] at hd
      refine ⟨_, _, hd, ?_⟩
      rw [splitChar, hd]
    · rw [if_neg hsep] at hd
      refine ⟨_, _, hd, ?_⟩
      rw [splitChar, hd]

theorem splitChar_head (cs : List Char) :
    (splitChar '\n' cs)[0]? = some (cs.takeWhile (· != '\n')) := by
  induction cs with
  | nil => rfl
  | cons c cs ih =>
    obtain ⟨part, parts, hcs, hsplit⟩ := splitChar_cons '\n' c cs
    rw [hcs] at ih
    rw [hsplit]
    by_cases hc : c = '\n'
    · simp [hc]
    · have hpart : part = cs.takeWhile (· != '\n') := Option.some.inj ih
      simp [hc, hpart]

/-- The line of a place is what stands before the place in it and what goes on behind it. -/
theorem splitChar_behind (read rest : List Char) :
    (splitChar '\n' (read ++ rest))[read.count '\n']? =
      some (lastLine read ++ rest.takeWhile (· != '\n')) := by
  induction read with
  | nil => exact splitChar_head rest
  | cons c read ih =>
    obtain ⟨part, parts, hcs, hsplit⟩ := splitChar_cons '\n' c (read ++ rest)
    rw [hcs] at ih
    rw [List.cons_append, hsplit]
    by_cases hc : c = '\n'
    · have hlast : lastLine (c :: read) = lastLine read := by
        by_cases hread : '\n' ∈ read
        · exact lastLine_append_of_mem hread [c]
        · rw [← List.singleton_append, lastLine_append_of_not_mem hread, hc, lastLine_eq_self hread]
          rfl
      rw [if_pos hc, hlast, hc, List.count_cons_self, List.getElem?_cons_succ, ih]
    · rw [if_neg hc, List.count_cons_of_ne hc]
      by_cases hread : '\n' ∈ read
      · obtain ⟨n, hn⟩ := Nat.exists_eq_succ_of_ne_zero (List.count_pos_iff.2 hread).ne'
        have hlast : lastLine (c :: read) = lastLine read := lastLine_append_of_mem hread [c]
        rw [hn, List.getElem?_cons_succ] at ih
        rw [hn, List.getElem?_cons_succ, ih, hlast]
      · have hlast : lastLine (c :: read) = c :: read :=
          lastLine_eq_self (by simpa [hread] using Ne.symm hc)
        rw [List.count_eq_zero.2 hread, List.getElem?_cons_zero, Option.some.injEq,
          lastLine_eq_self hread] at ih
        rw [List.count_eq_zero.2 hread, List.getElem?_cons_zero, hlast, ih, List.cons_append]

theorem lines_behind {text : String} {read rest : List Char} (h : text.toList = read ++ rest) :
    (lines text)[read.count '\n']? =
      some (String.ofList (lastLine read ++ rest.takeWhile (· != '\n'))) := by
  rw [lines, h, List.getElem?_map, splitChar_behind, Option.map_some]

end Text

/-- A place is in a comment if the scan of what stands before it in its line ends in one. -/
theorem placeInComment_behind {text : String} {read rest : List Char}
    (h : text.toList = read ++ rest) (hline : rest.head? ≠ some '\n') :
    placeInComment (Text.lines text).toArray (Place.behind read) =
      ((LineState.code 0).across (lastLine read) rest).inside := by
  have hhead : rest.head? = (rest.takeWhile (· != '\n')).head? := by
    cases rest with
    | nil => rfl
    | cons c rest =>
      have hc : c ≠ '\n' := fun heq => hline (by rw [heq, List.head?_cons])
      simp [hc]
  have hcolumn : (((lastLine read).length + 1 : Nat) : Int) - 1 = (lastLine read).length := by
    omega
  rw [Place.behind_eq, Nat.add_comm 1, Nat.add_comm 1, placeInComment]
  dsimp only
  rw [List.getElem?_toArray, Text.lines_behind h, LineState.across_congr _ _ hhead]
  dsimp only
  rw [inComment, hcolumn, Int.toNat_natCast, String.toList_ofList, LineState.across]

end Asm6510
