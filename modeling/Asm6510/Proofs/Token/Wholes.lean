import Asm6510.Proofs.Token.Forms
import Asm6510.Proofs.Token.Lookahead
import Asm6510.Proofs.Usage.LineScan
import Asm6510.Grammar.Expression

/-!
# Lexemes before a delimiter

A number, a name, a string or an operator of a value is read as the same lexeme again wherever a
delimiter follows it: a blank, a comma, a parenthesis, a closing bracket or the end of the line.

* `delimiters`: the characters that end these lexemes.
* `Standing`, `Whole`: characters that are one lexeme of a kind before every delimiter.
* `closesString`: the characters behind an opening quote end in the closing one.
* `OfValue`: a token that was read as a part of a value.

Main statements: `OfValue.whole` and `OfValue.whole_string`, the spelling of a token that was read
as a part of a value is whole; `whole_decimal`, so is a number in decimal.
-/

namespace Asm6510

/-- The literal of the token of a lexeme at `c :: cs`. -/
def Lexeme.literalAt (x : Lexeme) (c : Char) (cs : List Char) : String :=
  match x.code with
  | none => String.ofList (c :: cs.take x.more)
  | some code => Text.decimal code

namespace Lexing

variable {d c : Char} {w : List Char} {kind : TokenKind} {more : Nat}

/-- Characters that end numbers, names and operators. -/
def delimiters : List Char :=
  [' ', ',', '(', ')', ']', '\n']

/-- Characters that a lexeme of a value starts with, parentheses apart. -/
def opensLexeme (c : Char) : Bool :=
  !(([' ', '\t', '\r', '\n', ';', '(', ')', '\x7b', '\x7d'] : List Char).contains c)

/-- A lexeme of a kind with `more` characters behind its first one; only a string enters a context,
and leaves it. -/
structure Standing (kind : TokenKind) (more : Nat) (x : Lexeme) : Prop where
  kind_eq : x.kind = kind
  more_eq : x.more = more
  code_eq : x.code = none
  opening_eq : x.opening = if kind = .string then [.push .stringLiteral ""] else []
  closing_eq : x.closing = if kind = .string then [.pop] else []
  following_eq : x.following = []
  gap_eq : x.gap = 0

/-- The characters are one lexeme of the kind, whatever stands behind a delimiter after them. -/
structure Whole (ref : Option Reference) (kind : TokenKind) (c : Char) (w : List Char) : Prop where
  opens : opensLexeme c = true
  plain : ∀ d ∈ delimiters, startsComment c (w ++ [d]).head? = false
  standing : ∀ d ∈ delimiters, ∀ behind, Standing kind w.length (value ref c (w ++ d :: behind))

theorem blank_mem_delimiters : ' ' ∈ delimiters := by simp [delimiters]

theorem comma_mem_delimiters : ',' ∈ delimiters := by simp [delimiters]

theorem opening_mem_delimiters : '(' ∈ delimiters := by simp [delimiters]

theorem closing_mem_delimiters : ')' ∈ delimiters := by simp [delimiters]

theorem bracket_mem_delimiters : ']' ∈ delimiters := by simp [delimiters]

theorem line_mem_delimiters : '\n' ∈ delimiters := by simp [delimiters]

theorem mem_lexemeEnds_of_mem (h : d ∈ delimiters) : d ∈ lexemeEnds := by
  have hsub : delimiters.all (lexemeEnds.contains ·) = true := by decide
  simpa using List.all_eq_true.1 hsub d h

theorem standing_plain (hkind : kind ≠ .string) (more : Nat) :
    Standing kind more (Lexeme.plain kind more) := by
  refine ⟨rfl, rfl, rfl, ?_, ?_, rfl, rfl⟩
  · rw [if_neg hkind]
    rfl
  · rw [if_neg hkind]
    rfl

/-! ## Scans over the characters that were taken -/

section Scans

variable {p : Char → Bool} {cs : List Char}

theorem run_take (p : Char → Bool) (cs : List Char) (n : Nat) :
    run p (cs.take n) = min (run p cs) n := by
  induction cs generalizing n with
  | nil => simp [run]
  | cons c cs ih =>
    cases n with
    | zero => simp [run]
    | succ n =>
      have ih := ih n
      simp only [run, List.take_succ_cons, List.takeWhile_cons] at ih ⊢
      split
      · simp only [List.length_cons]
        omega
      · simp

theorem run_take_run (p : Char → Bool) (cs : List Char) (k : Nat) :
    run p (cs.take (run p cs + k)) = run p cs := by
  rw [run_take]
  omega

theorem drop_take_run (p : Char → Bool) (cs : List Char) (k : Nat) :
    (cs.take (run p cs + k)).drop (run p cs) = (cs.drop (run p cs)).take k := by
  rw [List.drop_take, Nat.add_sub_cancel_left]

theorem nextIs_take (p : Char → Bool) (cs : List Char) {n : Nat} (hn : 0 < n) :
    nextIs p (cs.take n) = nextIs p cs := by
  obtain ⟨n, rfl⟩ := Nat.exists_eq_add_one.2 hn
  cases cs <;> rfl

theorem run_pos {p q : Char → Bool} (hpq : ∀ c, p c = true → q c = true)
    (h : nextIs p cs = true) : 0 < run q cs := by
  cases cs with
  | nil => cases h
  | cons c cs =>
    have hc : q c = true := hpq c h
    simp [run, hc]

end Scans

/-- What is no separator opens a lexeme, and no comment. -/
theorem opensLexeme_of_bare (h : c ∉ separators) : opensLexeme c = true ∧ c ≠ '/' := by
  simp only [separators, List.mem_cons, List.not_mem_nil, or_false, not_or] at h
  simp [opensLexeme, h]

/-! ## Numbers -/

section Numbers

variable {ref : Option Reference} {c : Char} {cs : List Char} {x : Lexeme}

/-- A lexeme of a number: the characters that it takes are the same number by themselves. -/
structure Truncates (number : List Char → Option Lexeme) (cs : List Char) (x : Lexeme) :
    Prop where
  again : number (cs.take x.more) = some x
  standing : Standing x.kind x.more x
  fits : x.more ≤ cs.length

theorem truncates_digitsBehind {radix : Radix} {p : Char → Bool}
    (h : digitsBehind? radix p cs = some x) : Truncates (digitsBehind? radix p) cs x := by
  obtain ⟨hdigits, rfl⟩ := digitsBehind?_eq_some h
  refine ⟨?_, standing_plain TokenKind.noConfusion _, run_le p cs⟩
  have hrun : run p (cs.take (run p cs)) = run p cs := run_take_run p cs 0
  unfold digitsBehind?
  dsimp only [Lexeme.plain]
  rw [hrun, if_neg hdigits]

theorem truncates_hexBehind (h : hexBehind? cs = some x) (hkind : x.kind ≠ .illegal) :
    Truncates hexBehind? cs x := by
  unfold hexBehind? at h
  dsimp only at h
  split at h
  · cases h
    exact absurd rfl hkind
  · obtain ⟨hagain, hstanding, hfits⟩ := truncates_digitsBehind h
    refine ⟨?_, hstanding, hfits⟩
    obtain ⟨-, rfl⟩ := digitsBehind?_eq_some h
    have hrest : (cs.take (run isHexDigit cs)).drop
        (run isHexDigit (cs.take (run isHexDigit cs))) = [] := by
      rw [run_take, Nat.min_self, List.drop_eq_nil_iff]
      exact List.length_take_le _ _
    unfold hexBehind?
    dsimp only [Lexeme.plain] at hagain ⊢
    rw [hrest, if_neg (by exact Bool.false_ne_true), hagain]

theorem fractionSize_take (cs : List Char) :
    fractionSize (cs.take (fractionSize cs)) = fractionSize cs := by
  fun_cases fractionSize cs with
  | case1 rest hdigit =>
    have hpos : 0 < run Char.isDigit rest := run_pos (fun _ h => h) hdigit
    have hrun : run Char.isDigit (rest.take (run Char.isDigit rest)) = run Char.isDigit rest :=
      run_take_run Char.isDigit rest 0
    rw [List.take_succ_cons, fractionSize, nextIs_take _ _ hpos, if_pos hdigit, hrun]
  | case2 rest hdigit => rfl
  | case3 hdot => rfl

theorem fractionSize_le (cs : List Char) : fractionSize cs ≤ cs.length := by
  unfold fractionSize
  split
  · next rest =>
    have hrun := run_le Char.isDigit rest
    rw [List.length_cons]
    split
    · omega
    · omega
  · exact Nat.zero_le _

theorem truncates_unmarkedNumber (h : unmarkedNumberAt? c cs = some x)
    (hkind : x.kind ≠ .illegal) (hcode : x.code = none) :
    c ≠ '\'' ∧ Truncates (unmarkedNumberAt? c) cs x := by
  unfold unmarkedNumberAt? at h
  split at h
  · next hc =>
    subst hc
    exact ⟨by decide, truncates_hexBehind h hkind⟩
  split at h
  · next hc =>
    subst hc
    exact ⟨by decide, truncates_digitsBehind h⟩
  split at h
  · next hc =>
    subst hc
    exact ⟨by decide, truncates_digitsBehind h⟩
  split at h
  · split at h
    · split at h
      · cases h
      · cases h
        cases hcode
    · cases h
  split at h
  · next hhex hbinary hoctal hquote hdigit =>
    cases h
    refine ⟨hquote, ?_, standing_plain TokenKind.noConfusion _, ?_⟩
    · unfold unmarkedNumberAt?
      dsimp only [Lexeme.plain]
      rw [if_neg hhex, if_neg hbinary, if_neg hoctal, if_neg hquote, if_pos hdigit, run_take_run,
        drop_take_run, fractionSize_take]
    · have hwhole := run_le Char.isDigit cs
      have hfraction := fractionSize_le (cs.drop (run Char.isDigit cs))
      rw [List.length_drop] at hfraction
      dsimp only [Lexeme.plain]
      omega
  · cases h

theorem opensLexeme_of_number (h : numberAt? c cs = some x) :
    opensLexeme c = true ∧ c ≠ '/' := by
  rcases (numberKind h).apart with ⟨-, hc, -⟩ | ⟨-, value, rest, -, ⟨rfl, -⟩ | ⟨rfl, -⟩⟩
  · exact opensLexeme_of_bare hc
  · decide
  · decide

theorem numberAt?_of_ne (hc : c ≠ '#') : numberAt? c cs = unmarkedNumberAt? c cs := by
  rw [numberAt?.eq_def, if_neg hc]

/-- A number that is read once more before the end of a lexeme. -/
theorem numberAt?_again (h : numberAt? c cs = some x) (hkind : x.kind ≠ .illegal)
    (hcode : x.code = none) :
    Standing x.kind x.more x ∧ x.more ≤ cs.length ∧
      ∀ d ∈ lexemeEnds, ∀ behind, numberAt? c (cs.take x.more ++ d :: behind) = some x := by
  by_cases hc : c = '#'
  · subst hc
    cases cs with
    | nil => cases h
    | cons d rest =>
      obtain ⟨y, hy, rfl⟩ := Option.map_eq_some_iff.1 h
      obtain ⟨hquote, hagain, hstanding, hfits⟩ := truncates_unmarkedNumber hy hkind hcode
      refine ⟨⟨rfl, rfl, hstanding.code_eq, hstanding.opening_eq, hstanding.closing_eq,
        hstanding.following_eq, hstanding.gap_eq⟩, Nat.succ_le_succ hfits, fun e he behind => ?_⟩
      have hread : unmarkedNumberAt? d (rest.take y.more ++ e :: behind) = some y := by
        rw [unmarkedNumberAt?_ends he hquote, hagain]
      exact Option.map_eq_some_iff.2 ⟨y, hread, rfl⟩
  · rw [numberAt?_of_ne hc] at h
    obtain ⟨hquote, hagain, hstanding, hfits⟩ := truncates_unmarkedNumber h hkind hcode
    refine ⟨hstanding, hfits, fun e he behind => ?_⟩
    rw [numberAt?_of_ne hc, unmarkedNumberAt?_ends he hquote, hagain]

theorem value_of_number (h : numberAt? c cs = some x) : value ref c cs = x := by
  rw [value, h]
  rfl

theorem whole_number (ref : Option Reference) (h : numberAt? c cs = some x)
    (hkind : x.kind ≠ .illegal) (hcode : x.code = none) :
    Whole ref x.kind c (cs.take x.more) := by
  obtain ⟨hstanding, hfits, hends⟩ := numberAt?_again h hkind hcode
  have hlength : (cs.take x.more).length = x.more := List.length_take_of_le hfits
  obtain ⟨hopens, hslash⟩ := opensLexeme_of_number h
  refine ⟨hopens, fun d _ => by simp [startsComment, hslash], fun d hd behind => ?_⟩
  rw [value_of_number (hends d (mem_lexemeEnds_of_mem hd) behind), hlength]
  exact hstanding

end Numbers

/-! ## Names -/

section Names

variable {ref : Option Reference} {c : Char} {cs : List Char} {x : Lexeme}

/-- Characters that a reference to a multi-label may go on with right behind its mark. -/
theorem isDotted_of_isNameStart (h : Text.isNameStart d = true) : isDotted d = true := by
  simp only [Text.isNameStart, isDotted, Text.isNamePart, Bool.or_eq_true] at h ⊢
  tauto

theorem nameSize?_take (h : nameSize? c cs = some more) :
    nameSize? c (cs.take more) = some more := by
  by_cases hstart : Text.isNameStart c = true
  · rw [nameSize?, if_pos hstart] at h ⊢
    cases h
    rw [run_take, Nat.min_self]
  · obtain ⟨rfl, hnext, rfl⟩ := (nameSize?_eq_some h).resolve_left fun hname => hstart hname.1
    let q : Char → Bool := fun d => d == '+' || d == '-'
    have hpos : 0 < run isDotted cs + run q (cs.drop (run isDotted cs)) := by
      cases cs with
      | nil => cases hnext
      | cons d cs =>
        by_cases hd : isDotted d = true
        · have : 0 < run isDotted (d :: cs) := by simp [run, hd]
          omega
        · have hrun : run isDotted (d :: cs) = 0 := by simp [run, hd]
          have hq : q d = true := by
            rcases Bool.or_eq_true_iff.1 hnext with hnext | hminus
            · rcases Bool.or_eq_true_iff.1 hnext with hname | hplus
              · exact absurd (isDotted_of_isNameStart hname) hd
              · simp [q, hplus]
            · simp [q, hminus]
          rw [hrun, List.drop_zero]
          have : 0 < run q (d :: cs) := by simp [run, hq]
          omega
    have htail : run q ((cs.drop (run isDotted cs)).take (run q (cs.drop (run isDotted cs)))) =
        run q (cs.drop (run isDotted cs)) :=
      run_take_run q _ 0
    rw [nameSize?, if_neg hstart, if_pos ⟨rfl, by rw [nextIs_take _ _ hpos]; exact hnext⟩]
    dsimp only
    rw [run_take_run, drop_take_run, htail]

theorem wordAt?_take (h : nameSize? c cs = some more) :
    wordAt? ref c (cs.take more) = wordAt? ref c cs := by
  unfold wordAt?
  rw [nameSize?_take h, h]
  simp only [Option.map_some, List.take_take, Nat.min_self]

theorem standing_word (h : wordAt? ref c cs = some x) :
    Standing x.kind x.more x ∧ nameSize? c cs = some x.more := by
  obtain ⟨kind, more, note, rfl, -, hkind, hmore⟩ := wordAt?_eq_some h
  have hstring : kind ≠ .string := by
    rintro rfl
    rcases hkind with hkind | hkind <;> cases hkind
  obtain ⟨-, -, -, hopening, hclosing, -, -⟩ := standing_plain hstring more
  exact ⟨⟨rfl, rfl, rfl, hopening, hclosing, rfl, rfl⟩, hmore⟩

/-- What a name starts with starts no number. -/
theorem numberAt?_of_name (h : nameSize? c cs = some more) (ds : List Char) :
    numberAt? c ds = none ∧ c ≠ '"' ∧ opensLexeme c = true ∧ c ≠ '/' := by
  have hstart : Text.isNameStart c = true ∨ c = '!' :=
    (nameSize?_eq_some h).imp And.left And.left
  rcases hstart with hname | rfl
  · have hmarks : ∀ e : Char, Text.isNameStart e = false → c ≠ e := by
      rintro e he rfl
      rw [hname] at he
      cases he
    have hdigit : c.isDigit = false := by
      rw [Bool.eq_false_iff]
      intro hdigit
      simp only [Text.isNameStart, Bool.or_eq_true, Char.isAlpha, Char.isUpper, Char.isLower,
        Char.isDigit, Bool.and_eq_true, decide_eq_true_eq, beq_iff_eq] at hname hdigit
      rcases hname with (hupper | hlower) | rfl
      · have hbelow : '9'.val < 'A'.val := by decide
        exact UInt32.not_le.2 hbelow (UInt32.le_trans hupper.1 hdigit.2)
      · have hbelow : '9'.val < 'a'.val := by decide
        exact UInt32.not_le.2 hbelow (UInt32.le_trans hlower.1 hdigit.2)
      · exact absurd hdigit (by decide)
    refine ⟨?_, hmarks '"' (by decide), opensLexeme_of_bare (bare_nameSize h).1⟩
    rw [numberAt?_of_ne (hmarks '#' (by decide)), unmarkedNumberAt?.eq_def,
      if_neg (hmarks '$' (by decide)), if_neg (hmarks '%' (by decide)),
      if_neg (hmarks '&' (by decide)), if_neg (hmarks '\'' (by decide)),
      if_neg (by rw [hdigit]; exact Bool.false_ne_true)]
  · exact ⟨rfl, by decide, by decide, by decide⟩

theorem value_of_word (hnumber : numberAt? c cs = none) (hquote : c ≠ '"')
    (h : wordAt? ref c cs = some x) : value ref c cs = x := by
  rw [value, hnumber, stringAt?, if_neg hquote, h]
  rfl

theorem whole_word (h : wordAt? ref c cs = some x) : Whole ref x.kind c (cs.take x.more) := by
  obtain ⟨hstanding, hmore⟩ := standing_word h
  have hlength : (cs.take x.more).length = x.more := List.length_take_of_le (nameSize?_le hmore)
  obtain ⟨-, hquote, hopens, hslash⟩ := numberAt?_of_name hmore []
  refine ⟨hopens, fun d _ => by simp [startsComment, hslash], fun d hd behind => ?_⟩
  have hagain : wordAt? ref c (cs.take x.more ++ d :: behind) = some x := by
    rw [wordAt?_ends (mem_lexemeEnds_of_mem hd), wordAt?_take hmore, h]
  rw [value_of_word (numberAt?_of_name hmore _).1 hquote hagain, hlength]
  exact hstanding

end Names

/-! ## Strings -/

section Strings

variable {ref : Option Reference} {cs : List Char}

/-- The characters behind an opening quote end in the closing one, and hold no other that a
backslash does not take along. -/
def closesString : List Char → Bool
  | [] => false
  | '"' :: cs => cs.isEmpty
  | '\n' :: _ => false
  | ['\\'] => false
  | '\\' :: '\n' :: _ => false
  | '\\' :: _ :: cs => closesString cs
  | _ :: cs => closesString cs

/-- A closed string ends where it ended, whatever is behind it. -/
theorem stringSize_of_closes (h : closesString w = true) (behind : List Char) :
    stringSize (w ++ behind) = w.length := by
  fun_induction closesString w with
  | case1 => cases h
  | case2 cs =>
    cases List.isEmpty_iff.1 h
    rfl
  | case3 => cases h
  | case4 => cases h
  | case5 => cases h
  | case6 e w he ih =>
    rw [List.cons_append, List.cons_append, stringSize_escape he, ih h]
    rfl
  | case7 e w hquote hline hlast hends hmore ih =>
    rw [List.cons_append, stringSize_plain hquote hline (ne_backslash hlast hmore), ih h]
    rfl

theorem whole_string (ref : Option Reference) (h : closesString w = true) :
    Whole ref .string '"' w := by
  refine ⟨by decide, fun d _ => rfl, fun d _ behind => ?_⟩
  have hsize := stringSize_of_closes h (d :: behind)
  exact ⟨rfl, hsize, rfl, rfl, rfl, rfl, rfl⟩

end Strings

/-! ## Operators -/

section Operators

variable {ref : Option Reference} {c : Char} {cs : List Char}

/-- The characters that an operator, a parenthesis, a bracket or a comma is written with. -/
def operatorMark : TokenKind → Option (Char × List Char)
  | .plus => some ('+', [])
  | .minus => some ('-', [])
  | .asterisk => some ('*', [])
  | .slash => some ('/', [])
  | .modulo => some ('%', [])
  | .equal => some ('=', [])
  | .less => some ('<', [])
  | .greater => some ('>', [])
  | .ampersand => some ('&', [])
  | .pipe => some ('|', [])
  | .caret => some ('^', [])
  | .leftShift => some ('<', ['<'])
  | .rightShift => some ('>', ['>'])
  | .equalEqual => some ('=', ['='])
  | .notEqual => some ('!', ['='])
  | .lessEqual => some ('<', ['='])
  | .greaterEqual => some ('>', ['='])
  | .hash => some ('#', [])
  | .atSign => some ('@', [])
  | .dot => some ('.', [])
  | .comma => some (',', [])
  | .leftParen => some ('(', [])
  | .rightParen => some (')', [])
  | .leftBracket => some ('[', [])
  | .rightBracket => some (']', [])
  | _ => none

theorem operatorMark_of_pair (h : TokenKind.ofPair? c d = some kind) :
    operatorMark kind = some (c, [d]) := by
  unfold TokenKind.ofPair? at h
  split at h <;> cases h <;> rfl

theorem operatorMark_ofChar (h : operatorMark (TokenKind.ofChar c) = some (d, w)) :
    (d, w) = (c, []) := by
  unfold TokenKind.ofChar at h
  split at h <;> cases h <;> rfl

theorem operator_spelling (h : operatorMark (operator c cs).kind = some (d, w)) :
    (d, w) = (c, cs.take (operator c cs).more) := by
  unfold operator at h ⊢
  cases cs with
  | nil => exact operatorMark_ofChar h
  | cons e cs =>
    dsimp only at h ⊢
    cases hpair : TokenKind.ofPair? c e with
    | none =>
      rw [hpair] at h
      exact operatorMark_ofChar h
    | some kind =>
      rw [hpair] at h
      exact Option.some.inj (h.symm.trans (operatorMark_of_pair hpair))

theorem value_operatorMark (ref : Option Reference) (h : operatorMark kind = some (c, w))
    (hd : d ∈ delimiters) (behind : List Char) :
    value ref c (w ++ d :: behind) = Lexeme.plain kind w.length := by
  simp only [delimiters, List.mem_cons, List.not_mem_nil, or_false] at hd
  unfold operatorMark at h
  rcases hd with rfl | rfl | rfl | rfl | rfl | rfl <;> split at h <;> cases h <;> rfl

theorem whole_operator (ref : Option Reference) (h : operatorMark kind = some (c, w))
    (hopens : opensLexeme c = true) : Whole ref kind c w := by
  have hkind : kind ≠ .string := by
    rintro rfl
    cases h
  refine ⟨hopens, fun d hd => ?_, fun d hd behind => ?_⟩
  · simp only [delimiters, List.mem_cons, List.not_mem_nil, or_false] at hd
    unfold operatorMark at h
    rcases hd with rfl | rfl | rfl | rfl | rfl | rfl <;> split at h <;> cases h <;> rfl
  · rw [value_operatorMark ref h hd]
    exact standing_plain hkind _

/-- Kinds of lexemes with a text of their own, those of numbers that cannot be read included. -/
def isWord (kind : TokenKind) : Bool :=
  kind.isName || kind.isNumber || kind = .string || kind = .otherwise

/-- An operator has the kind of one character or of a pair. -/
theorem operator_kind_cases {P : TokenKind → Prop} (hchar : P (TokenKind.ofChar c))
    (hpair : ∀ d kind, TokenKind.ofPair? c d = some kind → P kind) (cs : List Char) :
    P (operator c cs).kind := by
  unfold operator
  cases cs with
  | nil => exact hchar
  | cons d cs =>
    dsimp only
    cases h : TokenKind.ofPair? c d with
    | none => exact hchar
    | some kind => exact hpair d kind h

theorem isWord_operator (c : Char) (cs : List Char) : isWord (operator c cs).kind = false := by
  refine operator_kind_cases (P := fun k => isWord k = false) ?_ (fun d kind h => ?_) cs
  · unfold TokenKind.ofChar
    split <;> rfl
  · unfold TokenKind.ofPair? at h
    split at h <;> cases h <;> rfl

/-- Names, numbers and strings have no mark. -/
theorem operatorMark_of_isWord (h : isWord kind = true) : operatorMark kind = none := by
  unfold operatorMark
  split <;> first | rfl | cases h

end Operators

/-! ## Tokens of values -/

/-- The token was read as a part of a value: it has the kind and the literal of a lexeme. -/
def OfValue (ref : Option Reference) (t : Token) : Prop :=
  ∃ c cs, t.kind = (value ref c cs).kind ∧ t.literal = (value ref c cs).literalAt c cs

section OfValue

variable {ref : Option Reference} {c : Char} {cs : List Char} {t : Token} {x : Lexeme} {r : Char}

theorem whole_decimal (ref : Option Reference) (n : Nat) :
    ∃ c w, (Text.decimal n).toList = c :: w ∧ Whole ref (.number .decimal) c w := by
  have hdigits : ∀ d ∈ Nat.toDigits 10 n, d.isDigit = true :=
    fun d hd => Nat.isDigit_of_mem_toDigits (by decide) (by decide) hd
  have hlist : (Text.decimal n).toList = Nat.toDigits 10 n := by
    simp [Text.decimal]
  cases hn : Nat.toDigits 10 n with
  | nil => exact absurd hn Nat.toDigits_ne_nil
  | cons c w =>
    refine ⟨c, w, hlist.trans hn, ?_⟩
    rw [hn] at hdigits
    have hc : c.isDigit = true := hdigits c List.mem_cons_self
    have hrun : run Char.isDigit w = w.length := by
      rw [run, List.takeWhile_eq_self_iff.2 fun d hd => hdigits d (List.mem_cons_of_mem c hd)]
    have hmarks : ∀ e : Char, e.isDigit = false → c ≠ e := by
      rintro e he rfl
      rw [hc] at he
      cases he
    have hread : numberAt? c w = some (Lexeme.plain (.number .decimal) w.length) := by
      rw [numberAt?_of_ne (hmarks '#' (by decide)), unmarkedNumberAt?.eq_def,
        if_neg (hmarks '$' (by decide)), if_neg (hmarks '%' (by decide)),
        if_neg (hmarks '&' (by decide)), if_neg (hmarks '\'' (by decide)), if_pos hc]
      dsimp only
      rw [hrun, List.drop_length]
      rfl
    have hwhole := whole_number ref hread (by exact TokenKind.noConfusion) rfl
    rw [Lexeme.plain, List.take_length] at hwhole
    exact hwhole

/-- The kind of a token whose spelling is whole, strings apart. -/
def isWhole (kind : TokenKind) : Bool :=
  kind.isName || kind.isNumber || (operatorMark kind).any fun mark => opensLexeme mark.1

theorem word_kind (h : wordAt? ref c cs = some x) : x.kind.isName = true ∨ x.kind = .otherwise := by
  obtain ⟨kind, more, note, rfl, -, hkind, -⟩ := wordAt?_eq_some h
  exact hkind

theorem isWord_word (h : wordAt? ref c cs = some x) : isWord x.kind = true := by
  rcases word_kind h with hname | hotherwise
  · simp [isWord, hname]
  · rw [hotherwise]
    rfl

/-- A token of a value was read as a number, a string, a word or an operator. -/
theorem OfValue.cases (h : OfValue ref t) :
    (∃ c cs x, numberAt? c cs = some x ∧ t.kind = x.kind ∧ t.literal = x.literalAt c cs) ∨
    (t.kind = .string ∧ ∃ w, t.literal = String.ofList ('"' :: w)) ∨
    (∃ c cs x, wordAt? ref c cs = some x ∧ t.kind = x.kind ∧
      t.literal = String.ofList (c :: cs.take x.more)) ∨
    ∃ c cs, t.kind = (operator c cs).kind ∧
      t.literal = String.ofList (c :: cs.take (operator c cs).more) := by
  obtain ⟨c, cs, hk, hl⟩ := h
  revert hk hl
  refine value_cases (P := fun x => t.kind = x.kind → t.literal = x.literalAt c cs → _) ref c cs
    (fun x hx hk hl => .inl ⟨c, cs, x, hx, hk, hl⟩) (fun hc hk hl => ?_) (fun x hx hk hl => ?_)
    (fun _ hk hl => ?_)
  · subst hc
    exact .inr (.inl ⟨hk, _, hl⟩)
  · rw [Lexeme.literalAt, (standing_word hx).1.code_eq] at hl
    exact .inr (.inr (.inl ⟨c, cs, x, hx, hk, hl⟩))
  · rw [Lexeme.literalAt, operator_code] at hl
    exact .inr (.inr (.inr ⟨c, cs, hk, hl⟩))

theorem OfValue.whole (h : OfValue ref t) (hkind : isWhole t.kind = true) :
    ∃ c w, t.literal.toList = c :: w ∧ Whole ref t.kind c w := by
  rcases h.cases with ⟨c, cs, x, hx, hk, hl⟩ | ⟨hk, -⟩ | ⟨c, cs, x, hx, hk, hl⟩ | ⟨c, cs, hk, hl⟩
  · have hillegal : x.kind ≠ .illegal := by
      intro hillegal
      rw [hk, hillegal] at hkind
      exact absurd hkind (by decide)
    cases hcode : x.code with
    | none =>
      rw [Lexeme.literalAt, hcode] at hl
      rw [hl, hk]
      exact ⟨c, _, String.toList_ofList, whole_number ref hx hillegal hcode⟩
    | some code =>
      rw [Lexeme.literalAt, hcode] at hl
      rw [hl, hk, (numberKind hx).code (by rw [hcode]; exact Option.some_ne_none code)]
      exact whole_decimal ref code
  · rw [hk] at hkind
    exact absurd hkind (by decide)
  · rw [hl, hk]
    exact ⟨c, _, String.toList_ofList, whole_word hx⟩
  · have hword := isWord_operator c cs
    rw [hk, isWhole, Bool.or_eq_true] at hkind
    rcases hkind with hname | hmark
    · simp only [isWord, hname, Bool.true_or] at hword
      cases hword
    · obtain ⟨⟨d, w⟩, hmark, hopens⟩ := (Option.any_eq_true _ _).1 hmark
      obtain ⟨rfl, rfl⟩ := Prod.mk.inj (operator_spelling hmark)
      rw [hl, hk]
      exact ⟨d, _, String.toList_ofList, whole_operator ref hmark hopens⟩

theorem OfValue.mark (h : OfValue ref t) (hmark : operatorMark t.kind = some (d, w)) :
    t.literal = String.ofList (d :: w) := by
  rcases h.cases with ⟨c, cs, x, hx, hk, -⟩ | ⟨hk, -⟩ | ⟨c, cs, x, hx, hk, -⟩ | ⟨c, cs, hk, hl⟩
  · rw [hk] at hmark
    rcases (numberKind hx).kind with hnumber | hillegal
    · rw [operatorMark_of_isWord (by simp [isWord, hnumber])] at hmark
      cases hmark
    · rw [hillegal] at hmark
      cases hmark
  · rw [hk] at hmark
    cases hmark
  · rw [hk, operatorMark_of_isWord (isWord_word hx)] at hmark
    cases hmark
  · rw [hk] at hmark
    obtain ⟨rfl, rfl⟩ := Prod.mk.inj (operator_spelling hmark)
    exact hl

theorem OfValue.spelled (h : OfValue ref t) (hkind : t.kind = kind)
    (hmark : operatorMark kind = some (d, w)) : t.literal = String.ofList (d :: w) := by
  subst hkind
  exact h.mark hmark

theorem OfValue.quoted (h : OfValue ref t) (hkind : t.kind = .string) :
    ∃ w, t.literal = String.ofList ('"' :: w) := by
  rcases h.cases with ⟨c, cs, x, hx, hk, -⟩ | ⟨-, hl⟩ | ⟨c, cs, x, hx, hk, -⟩ | ⟨c, cs, hk, -⟩
  · rcases (numberKind hx).kind with hnumber | hillegal
    · rw [← hk, hkind] at hnumber
      cases hnumber
    · rw [← hk, hkind] at hillegal
      cases hillegal
  · exact hl
  · rcases word_kind hx with hname | hotherwise
    · rw [← hk, hkind] at hname
      cases hname
    · rw [← hk, hkind] at hotherwise
      cases hotherwise
  · have hword := isWord_operator c cs
    rw [← hk, hkind] at hword
    cases hword

theorem wordAt?_letter (ref : Option Reference) (hc : Text.isLetter c = true) :
    ∃ x, wordAt? ref c [] = some x ∧ x.more = 0 ∧
      (x.kind = .identifier ↔ ∀ r ∈ ref, r.function? (String.ofList [c]) = none ∧
        r.constant? (String.ofList [c]) = none) := by
  have hstart : Text.isNameStart c = true := by
    rw [Text.isNameStart, Bool.or_eq_true]
    exact .inl hc
  have hmark : c ≠ '!' := by
    rintro rfl
    exact absurd hc (by decide)
  have hsize : nameSize? c [] = some 0 := by
    rw [nameSize?, if_pos hstart]
    rfl
  have hword : String.ofList [c] ≠ "else" := fun h => by
    have hlength := congrArg String.length h
    rw [String.length_ofList, List.length_singleton] at hlength
    exact absurd hlength (by decide)
  unfold wordAt?
  rw [hsize, Option.map_some, List.take_nil]
  dsimp only
  rw [if_neg hword, if_neg hmark]
  cases ref with
  | none => exact ⟨_, rfl, rfl, by simp [Lexeme.plain]⟩
  | some r =>
    refine ⟨_, rfl, rfl, ?_⟩
    dsimp only [Lexeme.plain]
    generalize String.ofList [c] = word
    cases hconstant : r.constant? word with
    | some k => simp [hconstant]
    | none =>
      cases hfunction : r.function? word with
      | some f => simp [hfunction]
      | none => simp [hfunction, hconstant]

/-- Letters that differ in case only are identifiers alike. -/
theorem whole_letter (hc : Text.isLetter c = true) (hr : Text.isLetter r = true)
    (hupper : Text.upper (String.ofList [c]) = Text.upper (String.ofList [r]))
    (hlower : Text.lower (String.ofList [c]) = Text.lower (String.ofList [r]))
    (hx : wordAt? ref c [] = some x) (hkind : x.kind = .identifier) :
    Whole ref .identifier r [] := by
  obtain ⟨y, hy, -, hidentifier⟩ := wordAt?_letter ref hc
  cases hx.symm.trans hy
  obtain ⟨z, hz, hmore, hagain⟩ := wordAt?_letter ref hr
  have hwhole := whole_word hz
  have hsame : z.kind = .identifier := by
    refine hagain.2 fun q hq => ?_
    obtain ⟨hfunction, hconstant⟩ := hidentifier.1 hkind q hq
    rw [Reference.function?, ← hlower, Reference.constant?, ← hupper]
    exact ⟨hfunction, hconstant⟩
  rw [hsame, hmore] at hwhole
  exact hwhole

/-- The letters that an index register is written with. -/
theorem register_letter (hr : r = 'X' ∨ r = 'Y') (h : c.toUpper = r) : c = r ∨ c = r.toLower := by
  unfold Char.toUpper at h
  split at h
  · right
    have hval : c.val = r.val - ('A'.val - 'a'.val) := by
      rw [← h]
      exact (UInt32.add_sub_cancel _ _).symm
    apply Char.ext
    rcases hr with rfl | rfl
    · exact hval
    · exact hval
  · exact .inl h

/-- Characters of names are below the end of ASCII. -/
theorem toNat_lt_of_isDotted (h : isDotted c = true) : c.toNat < 128 := by
  simp only [isDotted, Text.isNamePart, Bool.or_eq_true, Char.isAlpha, Char.isUpper, Char.isLower,
    Char.isDigit, Bool.and_eq_true, decide_eq_true_eq, beq_iff_eq, ge_iff_le,
    UInt32.le_iff_toNat_le] at h
  rcases h with ((((hupper | hlower) | hdigit) | rfl) | rfl)
  · exact Nat.lt_of_le_of_lt hupper.2 (by decide)
  · exact Nat.lt_of_le_of_lt hlower.2 (by decide)
  · exact Nat.lt_of_le_of_lt hdigit.2 (by decide)
  · decide
  · decide

theorem upperChar_of_isDotted (h : isDotted c = true) : Text.upperChar c = [c.toUpper] := by
  rw [Text.upperChar, if_pos (toNat_lt_of_isDotted h)]

/-- A name that is an index register is one letter. -/
theorem letter_of_register (hr : r = 'X' ∨ r = 'Y') (hmore : nameSize? c cs = some more)
    (h : (c :: cs.take more).flatMap Text.upperChar = [r]) :
    (c = r ∨ c = r.toLower) ∧ cs.take more = [] := by
  rw [List.flatMap_cons] at h
  rcases nameSize?_eq_some hmore with ⟨hstart, rfl⟩ | ⟨rfl, -, -⟩
  · rw [upperChar_of_isDotted (isDotted_of_isNameStart hstart), List.singleton_append,
      List.cons.injEq, List.flatMap_eq_nil_iff] at h
    refine ⟨register_letter hr h.1, List.eq_nil_iff_forall_not_mem.2 fun e he => ?_⟩
    have htake : cs.take (run isDotted cs) = cs.takeWhile isDotted :=
      (List.prefix_iff_eq_take.1 (List.takeWhile_prefix isDotted)).symm
    have hdotted : isDotted e = true := List.mem_takeWhile_imp (htake ▸ he)
    have himage := h.2 e he
    rw [upperChar_of_isDotted hdotted] at himage
    cases himage
  · have himage : Text.upperChar '!' = ['!'] := rfl
    rw [himage, List.singleton_append, List.cons.injEq] at h
    rcases hr with rfl | rfl
    · exact absurd h.1 (by decide)
    · exact absurd h.1 (by decide)

/-- An index register of a value is whole in upper case. -/
theorem OfValue.register (h : OfValue ref t) (hregister : Grammar.isIndexRegister t = true) :
    ∃ r, (r = 'X' ∨ r = 'Y') ∧ Expr.registerName t = String.ofList [r] ∧
      Whole ref .identifier r [] := by
  simp only [Grammar.isIndexRegister, Bool.and_eq_true, Bool.or_eq_true, beq_iff_eq] at hregister
  obtain ⟨hkind, hname⟩ := hregister
  obtain ⟨r, hr, hname⟩ : ∃ r : Char, (r = 'X' ∨ r = 'Y') ∧
      Expr.registerName t = String.ofList [r] := by
    rcases hname with hname | hname
    · exact ⟨'X', .inl rfl, hname⟩
    · exact ⟨'Y', .inr rfl, hname⟩
  refine ⟨r, hr, hname, ?_⟩
  rcases h.cases with ⟨c, cs, x, hx, hk, -⟩ | ⟨hk, -⟩ | ⟨c, cs, x, hx, hk, hl⟩ | ⟨c, cs, hk, -⟩
  · rcases (numberKind hx).kind with hnumber | hillegal
    · rw [← hk, hkind] at hnumber
      cases hnumber
    · rw [← hk, hkind] at hillegal
      cases hillegal
  · rw [hkind] at hk
    cases hk
  · obtain ⟨-, hmore⟩ := standing_word hx
    rw [hkind] at hk
    rw [Expr.registerName, hl, Text.upper, String.toList_ofList, String.ofList_inj] at hname
    obtain ⟨hletter, htake⟩ := letter_of_register hr hmore hname
    have hagain : wordAt? ref c (cs.take x.more) = wordAt? ref c cs := wordAt?_take hmore
    rw [htake, hx] at hagain
    rcases hr with rfl | rfl
    · rcases hletter with rfl | rfl
      · exact whole_letter (by decide) (by decide) rfl rfl hagain hk.symm
      · exact whole_letter (c := 'x') (by decide) (by decide) (by decide) (by decide) hagain hk.symm
    · rcases hletter with rfl | rfl
      · exact whole_letter (by decide) (by decide) rfl rfl hagain hk.symm
      · exact whole_letter (c := 'y') (by decide) (by decide) (by decide) (by decide) hagain hk.symm
  · have hword := isWord_operator c cs
    rw [← hk, hkind] at hword
    cases hword

end OfValue

end Lexing

end Asm6510
