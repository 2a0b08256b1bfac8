import Asm6510.Proofs.Token.Lexeme
import Mathlib

/-!
# What lexemes look at

No number, name or operator looks behind a line feed or behind what a comment starts with, so it is
told by the characters before such a stop alone. Strings and comments go on over stops; one that
ends before a stop is told by the characters before it as well.

* `isStop`, `Stops`: characters that lexemes before them do not look behind.
* `lexemeEnds`, `Divides`: characters that end numbers, names and operators, more than stops.
* One lemma for each form of lexemes (`numberAt?_ends`, `wordAt?_ends`, `labelAt?_ends`, …): such an
  end is as good as the end of the text.
* `stringSize_congr`, `blockCommentSize_congr`: what goes on over stops, but ends before one.

Main statement: `actionAt_congr`, what is read before a stop does not depend on what is behind it.
-/

namespace Asm6510

namespace Lexing

/-- The line feed, and the characters that comments start with. -/
def isStop (c : Char) : Bool :=
  c == '\n' || c == '/' || c == ';'

/-- Characters that no number, name or operator goes on with, the stops among them. -/
def lexemeEnds : List Char :=
  ['\n', '/', ';', ' ', ',', '(', ')', ']', '\r']

/-- The stop `d` with `behind` after it ends all lexemes in the characters `front` before it.
Between two apostrophes it would be part of a character literal, unless it is a line feed. -/
structure Stops (front : List Char) (d : Char) (behind : List Char) : Prop where
  stop : isStop d = true
  unquoted : front.getLast? = some '\'' → d = '\n' ∨ behind.head? ≠ some '\''

/-- The end `d` with `behind` after it ends all numbers, names and operators in the characters
`front` before it. -/
structure Divides (front : List Char) (d : Char) (behind : List Char) : Prop where
  mem : d ∈ lexemeEnds
  unquoted : front.getLast? = some '\'' → d = '\n' ∨ behind.head? ≠ some '\''

/-! ## Scans -/

section Scans

variable {p : Char → Bool} {c d : Char} {w behind : List Char} {front : List Char}

theorem cases_of_isStop (h : isStop d = true) : d = '\n' ∨ d = '/' ∨ d = ';' := by
  simpa [isStop, or_assoc] using h

theorem false_of_isStop (hline : p '\n' = false) (hslash : p '/' = false) (hsemi : p ';' = false)
    (h : isStop d = true) : p d = false := by
  rcases cases_of_isStop h with rfl | rfl | rfl
  · exact hline
  · exact hslash
  · exact hsemi

theorem mem_lexemeEnds_of_isStop (h : isStop d = true) : d ∈ lexemeEnds := by
  rcases cases_of_isStop h with rfl | rfl | rfl <;> decide

theorem false_of_mem_lexemeEnds (h : lexemeEnds.all (fun e => !p e) = true)
    (hd : d ∈ lexemeEnds) : p d = false := by
  simpa using List.all_eq_true.1 h d hd

theorem Stops.mem_lexemeEnds (h : Stops front d behind) : d ∈ lexemeEnds :=
  mem_lexemeEnds_of_isStop h.stop

theorem Stops.divides (h : Stops front d behind) : Divides front d behind :=
  ⟨h.mem_lexemeEnds, h.unquoted⟩

theorem getLast?_of_suffix (hw : w <:+ front) (h : w.getLast? = some c) :
    front.getLast? = some c := by
  obtain ⟨before, rfl⟩ := hw
  rw [List.getLast?_append, h]
  rfl

theorem Stops.suffix (h : Stops front d behind) (hw : w <:+ front) : Stops w d behind :=
  ⟨h.stop, fun hlast => h.unquoted (getLast?_of_suffix hw hlast)⟩

theorem Divides.suffix (h : Divides front d behind) (hw : w <:+ front) : Divides w d behind :=
  ⟨h.mem, fun hlast => h.unquoted (getLast?_of_suffix hw hlast)⟩

theorem run_le (p : Char → Bool) (w : List Char) : run p w ≤ w.length :=
  (List.takeWhile_prefix p).length_le

theorem run_append (hp : p d = false) : run p (w ++ d :: behind) = run p w := by
  induction w with
  | nil => simp [run, hp]
  | cons c w ih =>
    simp only [run, List.cons_append, List.takeWhile_cons] at ih ⊢
    split
    · simp [ih]
    · rfl

theorem nextIs_append (hp : p d = false) : nextIs p (w ++ d :: behind) = nextIs p w := by
  cases w with
  | nil => exact hp
  | cons c w => rfl

theorem drop_run_append (p : Char → Bool) (w behind : List Char) :
    (w ++ behind).drop (run p w) = w.drop (run p w) ++ behind :=
  List.drop_append_of_le_length (run_le p w)

theorem take_run_append (p : Char → Bool) (w behind : List Char) :
    (w ++ behind).take (run p w) = w.take (run p w) :=
  List.take_append_of_le_length (run_le p w)

end Scans

/-! ## Forms of lexemes before a stop -/

section Forms

variable {ref : Option Reference} {c d : Char} {w behind : List Char}

theorem digitsBehind?_stop {radix : Radix} {p : Char → Bool} (hp : p d = false) :
    digitsBehind? radix p (w ++ d :: behind) = digitsBehind? radix p w := by
  unfold digitsBehind?
  rw [run_append hp]

theorem hexBehind?_ends (hd : d ∈ lexemeEnds) :
    hexBehind? (w ++ d :: behind) = hexBehind? w := by
  have hhex : isHexDigit d = false := false_of_mem_lexemeEnds (by decide) hd
  have hletter : Text.isLetter d = false := false_of_mem_lexemeEnds (by decide) hd
  have halpha : isAlphanumeric d = false := false_of_mem_lexemeEnds (by decide) hd
  unfold hexBehind?
  dsimp only
  rw [run_append hhex, drop_run_append, nextIs_append hletter, run_append halpha,
    digitsBehind?_stop hhex]

theorem fractionSize_ends (hd : d ∈ lexemeEnds) :
    fractionSize (w ++ d :: behind) = fractionSize w := by
  have hdigit : d.isDigit = false := false_of_mem_lexemeEnds (by decide) hd
  cases w with
  | nil =>
    have hdot : d ≠ '.' := by
      rintro rfl
      exact absurd hd (by decide)
    simp [fractionSize, hdot]
  | cons c w =>
    by_cases hc : c = '.'
    · subst hc
      rw [List.cons_append, fractionSize, fractionSize, nextIs_append hdigit, run_append hdigit]
    · simp [fractionSize, hc]

/-- Nothing behind a number that is no character literal is looked at. -/
theorem unmarkedNumberAt?_ends (hd : d ∈ lexemeEnds) (hc : c ≠ '\'') :
    unmarkedNumberAt? c (w ++ d :: behind) = unmarkedNumberAt? c w := by
  have hbinary : isBinaryDigit d = false := false_of_mem_lexemeEnds (by decide) hd
  have hoctal : isOctalDigit d = false := false_of_mem_lexemeEnds (by decide) hd
  have hdigit : d.isDigit = false := false_of_mem_lexemeEnds (by decide) hd
  unfold unmarkedNumberAt?
  dsimp only
  rw [hexBehind?_ends hd, digitsBehind?_stop hbinary, digitsBehind?_stop hoctal,
    run_append hdigit, drop_run_append, fractionSize_ends hd, if_neg hc, if_neg hc]

/-- An end is as good as the end of the text behind a number. -/
theorem unmarkedNumberAt?_divides (h : Divides (c :: w) d behind) :
    unmarkedNumberAt? c (w ++ d :: behind) = unmarkedNumberAt? c w := by
  have hquote : d ≠ '\'' := by
    rintro rfl
    exact absurd h.mem (by decide)
  by_cases hc : c = '\''
  · subst hc
    rcases w with _ | ⟨e, _ | ⟨f, w⟩⟩
    · rcases behind with _ | ⟨e, behind⟩
      · rfl
      · -- the end follows the apostrophe, so no apostrophe follows the end
        rcases h.unquoted rfl with rfl | he
        · by_cases he : e = '\''
          · simp [unmarkedNumberAt?, he]
          · simp [unmarkedNumberAt?, he]
        · have he : e ≠ '\'' := by simpa using he
          simp [unmarkedNumberAt?, he]
    · simp [unmarkedNumberAt?, hquote]
    · by_cases hf : f = '\''
      · simp [unmarkedNumberAt?, hf]
      · simp [unmarkedNumberAt?, hf]
  · exact unmarkedNumberAt?_ends h.mem hc

theorem unmarkedNumberAt?_of_mem (hd : d ∈ lexemeEnds) : unmarkedNumberAt? d behind = none := by
  have hall : lexemeEnds.all (fun e => !(e == '$' || e == '%' || e == '&' || e == '\'' ||
      e.isDigit)) = true := by decide
  have hnone := false_of_mem_lexemeEnds
    (p := fun e => e == '$' || e == '%' || e == '&' || e == '\'' || e.isDigit) hall hd
  simp only [Bool.or_eq_false_iff, beq_eq_false_iff_ne] at hnone
  obtain ⟨⟨⟨⟨hhex, hbinary⟩, hoctal⟩, hquote⟩, hdigit⟩ := hnone
  simp [unmarkedNumberAt?, hhex, hbinary, hoctal, hquote, hdigit]

theorem numberAt?_divides (h : Divides (c :: w) d behind) :
    numberAt? c (w ++ d :: behind) = numberAt? c w := by
  unfold numberAt?
  split
  · cases w with
    | nil => simp [unmarkedNumberAt?_of_mem h.mem]
    | cons e w =>
      rw [List.cons_append]
      dsimp only
      rw [unmarkedNumberAt?_divides (h.suffix (List.suffix_cons c (e :: w)))]
  · exact unmarkedNumberAt?_divides h

theorem nameSize?_ends (hd : d ∈ lexemeEnds) :
    nameSize? c (w ++ d :: behind) = nameSize? c w := by
  have hdotted : isDotted d = false := false_of_mem_lexemeEnds (by decide) hd
  have hstart : (Text.isNameStart d || d == '+' || d == '-') = false :=
    false_of_mem_lexemeEnds (p := fun d => Text.isNameStart d || d == '+' || d == '-') (by decide)
      hd
  have hdirection : (d == '+' || d == '-') = false :=
    false_of_mem_lexemeEnds (p := fun d => d == '+' || d == '-') (by decide) hd
  unfold nameSize?
  dsimp only
  rw [run_append hdotted, nextIs_append hstart, drop_run_append, run_append hdirection]

theorem nameSize?_le {more : Nat} (h : nameSize? c w = some more) : more ≤ w.length := by
  have hname := run_le isDotted w
  rcases nameSize?_eq_some h with ⟨-, rfl⟩ | ⟨-, -, rfl⟩
  · exact hname
  · have hmore := run_le (fun d => d == '+' || d == '-') (w.drop (run isDotted w))
    rw [List.length_drop] at hmore
    omega

theorem wordAt?_ends (hd : d ∈ lexemeEnds) :
    wordAt? ref c (w ++ d :: behind) = wordAt? ref c w := by
  unfold wordAt?
  rw [nameSize?_ends hd]
  cases hsize : nameSize? c w with
  | none => rfl
  | some more =>
    simp only [Option.map_some]
    rw [List.take_append_of_le_length (nameSize?_le hsize)]

theorem labelAt?_ends (hd : d ∈ lexemeEnds) :
    labelAt? c (w ++ d :: behind) = labelAt? c w := by
  have hpart : Text.isNamePart d = false := false_of_mem_lexemeEnds (by decide) hd
  have hcolon : (d == ':') = false :=
    false_of_mem_lexemeEnds (p := fun d => d == ':') (by decide) hd
  unfold labelAt?
  dsimp only
  rw [run_append hpart, drop_run_append]
  split
  · cases w.drop (run Text.isNamePart w) with
    | nil => simp [beq_eq_false_iff_ne.1 hcolon]
    | cons e v =>
      by_cases he : e = ':'
      · subst he
        simp only [List.cons_append]
        rw [nextIs_append (p := fun d => d == ':') hcolon]
      · simp [he]
  · rfl

theorem mnemonicAt?_ends (hd : d ∈ lexemeEnds) :
    mnemonicAt? ref c (w ++ d :: behind) = mnemonicAt? ref c w := by
  have hletter : Text.isLetter d = false := false_of_mem_lexemeEnds (by decide) hd
  have hpart : Text.isNamePart d = false := false_of_mem_lexemeEnds (by decide) hd
  unfold mnemonicAt?
  cases ref with
  | none => rfl
  | some ref =>
    rcases w with _ | ⟨e, _ | ⟨f, w⟩⟩
    · cases behind with
      | nil => rfl
      | cons e behind => simp [hletter]
    · simp [hletter]
    · simp only [List.cons_append]
      rw [nextIs_append hpart]

theorem preprocessorAt?_ends (hd : d ∈ lexemeEnds) :
    preprocessorAt? ref c (w ++ d :: behind) = preprocessorAt? ref c w := by
  have hletter : Text.isLetter d = false := false_of_mem_lexemeEnds (by decide) hd
  unfold preprocessorAt?
  dsimp only
  rw [run_append hletter, take_run_append]

theorem directiveAt?_ends (hd : d ∈ lexemeEnds) :
    directiveAt? ref c (w ++ d :: behind) = directiveAt? ref c w := by
  have hletter : Text.isLetter d = false := false_of_mem_lexemeEnds (by decide) hd
  have hpart : Text.isNamePart d = false := false_of_mem_lexemeEnds (by decide) hd
  unfold directiveAt?
  dsimp only
  rw [run_append hpart, take_run_append, nextIs_append hletter]

theorem programCounterAt?_ends (hd : d ∈ lexemeEnds) :
    programCounterAt? c (w ++ d :: behind) = programCounterAt? c w := by
  have hequal : (d == '=') = false :=
    false_of_mem_lexemeEnds (p := fun d => d == '=') (by decide) hd
  unfold programCounterAt?
  rw [nextIs_append (p := fun d => d == '=') hequal]

theorem operator_ends (hd : d ∈ lexemeEnds) : operator c (w ++ d :: behind) = operator c w := by
  cases w with
  | nil =>
    have hpair : TokenKind.ofPair? c d = none := by
      unfold TokenKind.ofPair?
      split
      · exact absurd hd (by decide)
      · exact absurd hd (by decide)
      · exact absurd hd (by decide)
      · exact absurd hd (by decide)
      · exact absurd hd (by decide)
      · exact absurd hd (by decide)
      · rfl
    simp [operator, hpair]
  | cons e w => rfl

theorem isLoneRegister_ends (hd : d ∈ lexemeEnds) :
    isLoneRegister (w ++ d :: behind) = isLoneRegister w := by
  have hdotted : isDotted d = false := false_of_mem_lexemeEnds (by decide) hd
  cases w with
  | nil =>
    have hregister : (d == 'x' || d == 'X' || d == 'y' || d == 'Y') = false :=
      false_of_mem_lexemeEnds (p := fun d => d == 'x' || d == 'X' || d == 'y' || d == 'Y')
        (by decide) hd
    rw [List.nil_append, isLoneRegister, hregister]
    rfl
  | cons e w =>
    rw [List.cons_append, isLoneRegister, isLoneRegister, nextIs_append hdotted]

theorem operandComma_stop (hd : isStop d = true) :
    operandComma c (w ++ d :: behind) = operandComma c w := by
  have hblank : isLineBlank d = false := false_of_isStop (by decide) (by decide) (by decide) hd
  unfold operandComma
  dsimp only
  rw [run_append hblank, drop_run_append, isLoneRegister_ends (mem_lexemeEnds_of_isStop hd),
    operator_ends (mem_lexemeEnds_of_isStop hd)]

theorem value_divides (h : Divides (c :: w) d behind) (hc : c ≠ '"') :
    value ref c (w ++ d :: behind) = value ref c w := by
  unfold value stringAt?
  rw [numberAt?_divides h, wordAt?_ends h.mem, operator_ends h.mem, if_neg hc, if_neg hc]

theorem statement_divides (h : Divides (c :: w) d behind) (hc : c ≠ '"') :
    statement ref c (w ++ d :: behind) = statement ref c w := by
  unfold statement
  rw [preprocessorAt?_ends h.mem, directiveAt?_ends h.mem, programCounterAt?_ends h.mem,
    labelAt?_ends h.mem, mnemonicAt?_ends h.mem, value_divides h hc]

/-- The blanks behind a comma are the only ones that are read along with a lexeme. -/
theorem operand_divides (h : Divides (c :: w) d behind) (hc : c ≠ '"')
    (hcomma : c = ',' → operandComma c (w ++ d :: behind) = operandComma c w) :
    operand ref c (w ++ d :: behind) = operand ref c w := by
  have hlone : isLoneRegister (c :: (w ++ d :: behind)) = isLoneRegister (c :: w) :=
    isLoneRegister_ends (w := c :: w) h.mem
  unfold operand
  rw [operator_ends h.mem, if_neg hc, if_neg hc, numberAt?_divides h, hlone, wordAt?_ends h.mem]
  by_cases hc : c = ','
  · rw [hcomma hc]
  · rw [if_neg hc, if_neg hc]

end Forms

/-! ## Strings and comments that end before a stop -/

section Spans

variable {ref : Option Reference} {c d : Char} {w behind other : List Char} {mode : Mode}

theorem run_congr {p : Char → Bool} (h : run p (w ++ d :: behind) ≤ w.length) :
    run p (w ++ d :: other) = run p (w ++ d :: behind) := by
  induction w with
  | nil =>
    cases hp : p d with
    | true => simp [run, hp] at h
    | false => simp [run, hp]
  | cons c w ih =>
    simp only [run, List.cons_append, List.takeWhile_cons, List.length_cons] at h ih ⊢
    split
    · rename_i hc
      simp only [hc, ↓reduceIte, List.length_cons] at h ⊢
      rw [ih (by omega)]
    · rfl

/-- A character that does not end a block comment is part of it. -/
theorem blockCommentSize_cons (h : ¬(c = '*' ∧ w.head? = some '/')) :
    blockCommentSize (c :: w) = blockCommentSize w + 1 := by
  rw [blockCommentSize]
  rintro v rfl rfl
  exact h ⟨rfl, rfl⟩

theorem blockCommentSize_congr (h : blockCommentSize (w ++ d :: behind) ≤ w.length) :
    blockCommentSize (w ++ d :: other) = blockCommentSize (w ++ d :: behind) := by
  induction w with
  | nil =>
    have hpos : 0 < blockCommentSize (d :: behind) := by
      unfold blockCommentSize
      split <;> simp_all
    simp only [List.nil_append, List.length_nil] at h
    omega
  | cons c w ih =>
    have hhead : (w ++ d :: other).head? = (w ++ d :: behind).head? := by cases w <;> rfl
    by_cases hend : c = '*' ∧ (w ++ d :: behind).head? = some '/'
    · obtain ⟨rfl, hslash⟩ := hend
      obtain ⟨v, hv⟩ := List.head?_eq_some_iff.1 hslash
      obtain ⟨v', hv'⟩ := List.head?_eq_some_iff.1 (hhead.trans hslash)
      rw [List.cons_append, List.cons_append, hv, hv', blockCommentSize, blockCommentSize]
    · rw [List.cons_append, blockCommentSize_cons hend, List.length_cons] at h
      rw [List.cons_append, List.cons_append, blockCommentSize_cons hend,
        blockCommentSize_cons (hhead ▸ hend), ih (by omega)]

theorem stringSize_congr (hd : isStop d = true) (h : stringSize (w ++ d :: behind) ≤ w.length) :
    stringSize (w ++ d :: other) = stringSize (w ++ d :: behind) := by
  have hstop := cases_of_isStop hd
  fun_induction stringSize w with
  | case1 =>
    rcases hstop with rfl | rfl | rfl
    · simp [stringSize]
    · simp [stringSize] at h
    · simp [stringSize] at h
  | case2 w => simp [stringSize]
  | case3 w => simp [stringSize]
  | case4 =>
    rcases hstop with rfl | rfl | rfl
    · simp [stringSize]
    · simp [stringSize] at h
    · simp [stringSize] at h
  | case5 w => simp [stringSize]
  | case6 e w he ih =>
    simp only [List.cons_append, stringSize_escape he, List.length_cons] at h ⊢
    rw [ih (by omega)]
  | case7 e w hquote hline hlast hends hmore ih =>
    have hplain := stringSize_plain hquote hline (ne_backslash hlast hmore)
    simp only [List.cons_append, hplain, List.length_cons] at h ⊢
    rw [ih (by omega)]

/-- A string that ends before a stop does not see what is behind the stop. -/
theorem string_congr (hd : isStop d = true) (h : (string (w ++ d :: behind)).more ≤ w.length) :
    string (w ++ d :: other) = string (w ++ d :: behind) := by
  unfold string
  rw [stringSize_congr hd h]

theorem statement_quote (ref : Option Reference) (cs : List Char) :
    statement ref '"' cs = string cs := by
  have hmnemonic : mnemonicAt? ref '"' cs = none := by
    unfold mnemonicAt?
    split
    · rfl
    · rfl
  unfold statement
  rw [hmnemonic]
  rfl

/-- A quote starts a string, except right after a mnemonic. -/
theorem modeAction_quote (hmode : mode ≠ .instruction) (ref : Option Reference) (cs : List Char) :
    modeAction ref mode '"' cs = .emit (string cs) := by
  cases mode with
  | instruction => exact absurd rfl hmode
  | stringLiteral | directive | expression | addressing | operand => rfl
  | _ => exact congrArg Action.emit (statement_quote ref cs)

/-- Apart from strings and from commas in operands, an end is as good as the end of the text for
what is read in a mode. -/
theorem modeAction_divides (h : Divides (c :: w) d behind) (hc : c ≠ '"')
    (hmode : mode ≠ .stringLiteral)
    (hcomma : mode = .operand → c = ',' → operandComma c (w ++ d :: behind) = operandComma c w) :
    modeAction ref mode c (w ++ d :: behind) = modeAction ref mode c w := by
  cases mode with
  | stringLiteral => exact absurd rfl hmode
  | instruction => rfl
  | directive =>
    simp only [modeAction, directiveAction]
    rw [operator_ends h.mem, value_divides h hc]
  | expression =>
    simp only [modeAction, expressionAction]
    rw [operator_ends h.mem, value_divides h hc]
  | addressing =>
    simp only [modeAction, addressingAction]
    rw [operator_ends h.mem, value_divides h hc]
  | operand =>
    simp only [modeAction, operandAction]
    rw [operand_divides h hc (hcomma rfl)]
  | _ =>
    simp only [modeAction]
    rw [statement_divides h hc]

/-- Apart from strings, a stop is as good as the end of the text for what is read in a mode. -/
theorem modeAction_stop (h : Stops (c :: w) d behind) (hc : c ≠ '"')
    (hmode : mode ≠ .stringLiteral) :
    modeAction ref mode c (w ++ d :: behind) = modeAction ref mode c w :=
  modeAction_divides h.divides hc hmode fun _ _ => operandComma_stop h.stop

/-- What is read in a mode before a stop does not depend on what is behind the stop. -/
theorem modeAction_congr (hb : Stops (c :: w) d behind) (ho : Stops (c :: w) d other)
    (h : ∀ x, modeAction ref mode c (w ++ d :: behind) = .emit x → x.more ≤ w.length) :
    modeAction ref mode c (w ++ d :: other) = modeAction ref mode c (w ++ d :: behind) := by
  by_cases hinstruction : mode = .instruction
  · subst hinstruction
    rfl
  by_cases hstring : c = '"' ∨ mode = .stringLiteral
  · have hread : ∀ cs, modeAction ref mode c cs = .emit (string cs) := by
      rcases hstring with rfl | rfl
      · exact modeAction_quote hinstruction ref
      · intro cs
        rfl
    rw [hread, hread, string_congr hb.stop (h _ (hread _))]
  · rw [not_or] at hstring
    rw [modeAction_stop hb hstring.1 hstring.2, modeAction_stop ho hstring.1 hstring.2]

theorem lineComment_congr (h : (lineComment (w ++ d :: behind)).more ≤ w.length) :
    lineComment (w ++ d :: other) = lineComment (w ++ d :: behind) := by
  unfold lineComment
  rw [run_congr h]

/-- Where no slash starts a comment, a semicolon may, and the mode decides otherwise. -/
theorem actionAt_of_no_slash {parens : Nat} {cs : List Char}
    (hline : ¬(c = '/' ∧ cs.head? = some '/')) (hblock : ¬(c = '/' ∧ cs.head? = some '*')) :
    actionAt ref mode parens c cs =
      if c = ';' ∧ parens = 0 then .emit (lineComment cs) else modeAction ref mode c cs := by
  unfold actionAt
  split
  · exact absurd ⟨rfl, rfl⟩ hline
  · exact absurd ⟨rfl, rfl⟩ hblock
  · rfl

/-- **What is read before a stop does not depend on what is behind the stop.** -/
theorem actionAt_congr {parens : Nat} {a : Action} (hb : Stops (c :: w) d behind)
    (ho : Stops (c :: w) d other) (ha : actionAt ref mode parens c (w ++ d :: behind) = a)
    (h : ∀ x, a = .emit x → x.more ≤ w.length) :
    actionAt ref mode parens c (w ++ d :: other) = a := by
  subst ha
  have hhead : (w ++ d :: other).head? = (w ++ d :: behind).head? := by cases w <;> rfl
  by_cases hline : c = '/' ∧ (w ++ d :: behind).head? = some '/'
  · obtain ⟨rfl, hslash⟩ := hline
    have hread : ∀ {cs}, cs.head? = some '/' →
        actionAt ref mode parens '/' cs = .emit (lineComment cs) := by
      intro cs hcs
      obtain ⟨v, rfl⟩ := List.head?_eq_some_iff.1 hcs
      rfl
    rw [hread hslash, hread (hhead.trans hslash), lineComment_congr (h _ (hread hslash))]
  by_cases hblock : c = '/' ∧ (w ++ d :: behind).head? = some '*'
  · obtain ⟨rfl, hstar⟩ := hblock
    -- no stop is a star, so both characters of the opening stand before the stop
    cases w with
    | nil =>
      simp only [List.nil_append, List.head?_cons, Option.some.injEq] at hstar
      subst hstar
      exact absurd hb.stop (by decide)
    | cons e w =>
      simp only [List.cons_append, List.head?_cons, Option.some.injEq] at hstar
      subst hstar
      have hsize := h _ rfl
      simp only [blockComment, Lexeme.plain, List.length_cons, Nat.add_le_add_iff_right] at hsize
      simp only [List.cons_append, actionAt, blockComment]
      rw [blockCommentSize_congr hsize]
  · rw [actionAt_of_no_slash hline hblock] at h ⊢
    rw [actionAt_of_no_slash (hhead ▸ hline) (hhead ▸ hblock)]
    by_cases hsemi : c = ';' ∧ parens = 0
    · rw [if_pos hsemi] at h ⊢
      rw [if_pos hsemi, lineComment_congr (h _ rfl)]
    · rw [if_neg hsemi] at h ⊢
      rw [if_neg hsemi, modeAction_congr hb ho h]

end Spans

end Lexing

end Asm6510
