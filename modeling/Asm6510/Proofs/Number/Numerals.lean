import Asm6510.Proofs.Grammar.Loops
import Asm6510.Proofs.Token.Readings
import Mathlib

/-!
# Numerals

A number as it is written: a number sign that may be missing, the mark of the base, and digits.

* `Spells`, `Numeral`: digits by their values, with the letters in either case.
* `Radix.Ends`: what stands behind a numeral does not go on with it.
* `Lexer.Takes`: the next token, and where reading goes on.
* `ofDigits_eq`, `numberValue_numeral`: the value of a numeral is the positional one.
* `numberAt?_numeral`, `numberAt?_misspelled`: the lexeme of a numeral, and of a mark with letters
  behind it that are no digits.

Main statement: `numerals_decode`, each numeral is one token and one literal with its positional
value, and a misspelled one is one token with one error.
-/

namespace Asm6510

/-! ## Digits -/

/-- The character is the digit of a value, with a letter in either case. -/
def Spells (c : Char) (d : Nat) : Prop :=
  c = d.digitChar ∨ c = d.digitChar.toUpper

instance (c : Char) (d : Nat) : Decidable (Spells c d) :=
  inferInstanceAs (Decidable (_ ∨ _))

namespace Radix

def base : Radix → Nat
  | hex => 16
  | binary => 2
  | octal => 8
  | decimal => 10

def mark : Radix → List Char
  | hex => ['$']
  | binary => ['%']
  | octal => ['&']
  | decimal => []

/-- Neither a digit of the base nor a character that makes another lexeme of the digits before it
is next: a letter behind hexadecimal digits, a point and a digit behind decimal ones. -/
def Ends (radix : Radix) (tail : List Char) : Prop :=
  (∀ c ∈ tail.head?, ∀ d < radix.base, ¬Spells c d) ∧
    (radix = hex → ∀ c ∈ tail.head?, c.isAlpha = false) ∧
    (radix = decimal → ∀ c rest, tail = '.' :: c :: rest → c.isDigit = false)

/-- The class of characters that are digits of the base. -/
def isDigit : Radix → Char → Bool
  | hex => Lexing.isHexDigit
  | binary => Lexing.isBinaryDigit
  | octal => Lexing.isOctalDigit
  | decimal => Char.isDigit

end Radix

/-- Digits of a base with their values. -/
def Numeral (radix : Radix) (digits : List Char) (values : List Nat) : Prop :=
  List.Forall₂ (fun c d => d < radix.base ∧ Spells c d) digits values

section Digits

variable {c : Char} {d : Nat}

theorem Spells.of_toNat (hd : d < 10) (h : c.toNat = '0'.toNat + d) : Spells c d := by
  have hc : c = Char.ofNat ('0'.toNat + d) := by rw [← h, Char.ofNat_toNat]
  subst hc
  interval_cases d <;> exact .inl rfl

theorem Spells.toNat_eq (hd : d < 10) (h : Spells c d) : c.toNat = '0'.toNat + d := by
  interval_cases d <;> rcases h with rfl | rfl <;> rfl

theorem hexDigit?_of_spells (hd : d < 16) (h : Spells c d) : Text.hexDigit? c = some d := by
  interval_cases d <;> rcases h with rfl | rfl <;> rfl

/-- What holds of every code in a range holds of the characters with these codes. -/
theorem char_between {P : Char → Prop} {low high : Nat}
    (h : ∀ n, low ≤ n → n ≤ high → P (Char.ofNat n)) (hlow : low ≤ c.toNat)
    (hhigh : c.toNat ≤ high) : P c := by
  have hc := h c.toNat hlow hhigh
  rwa [Char.ofNat_toNat] at hc

theorem spells_of_hexDigit? (h : Text.hexDigit? c = some d) : d < 16 ∧ Spells c d := by
  unfold Text.hexDigit? at h
  split at h
  · next hdigit =>
    obtain ⟨hlow, hhigh⟩ : 48 ≤ c.toNat ∧ c.toNat ≤ 57 := Char.isDigit_iff_toNat.1 hdigit
    obtain rfl := Option.some.inj h
    exact char_between (P := fun c => c.toNat - 48 < 16 ∧ Spells c (c.toNat - 48)) (by decide)
      hlow hhigh
  split at h
  · next hlower =>
    obtain rfl := Option.some.inj h
    exact char_between (P := fun c => c.toNat - 97 + 10 < 16 ∧ Spells c (c.toNat - 97 + 10))
      (by decide) hlower.1 hlower.2
  split at h
  · next hupper =>
    obtain rfl := Option.some.inj h
    exact char_between (P := fun c => c.toNat - 65 + 10 < 16 ∧ Spells c (c.toNat - 65 + 10))
      (by decide) hupper.1 hupper.2
  · cases h

theorem isHexDigit_iff : Lexing.isHexDigit c = true ↔ ∃ d < 16, Spells c d := by
  unfold Lexing.isHexDigit
  rw [Option.isSome_iff_exists]
  constructor
  · rintro ⟨d, h⟩
    exact ⟨d, spells_of_hexDigit? h⟩
  · rintro ⟨d, hd, h⟩
    exact ⟨d, hexDigit?_of_spells hd h⟩

/-- The digits below a base up to ten follow one another. -/
theorem spells_below_iff {base : Nat} (hbase : base ≤ 10) :
    (∃ d < base, Spells c d) ↔ 48 ≤ c.toNat ∧ c.toNat < 48 + base := by
  constructor
  · rintro ⟨d, hd, h⟩
    have hc : c.toNat = 48 + d := h.toNat_eq (hd.trans_le hbase)
    omega
  · rintro ⟨hlow, hhigh⟩
    refine ⟨c.toNat - 48, by omega, .of_toNat (by omega) ?_⟩
    show c.toNat = 48 + (c.toNat - 48)
    omega

theorem Radix.isDigit_iff (radix : Radix) :
    radix.isDigit c = true ↔ ∃ d < radix.base, Spells c d := by
  cases radix with
  | hex => exact isHexDigit_iff
  | binary =>
    rw [spells_below_iff (by decide)]
    simp only [isDigit, Lexing.isBinaryDigit, base, Bool.or_eq_true, beq_iff_eq]
    constructor
    · rintro (rfl | rfl) <;> decide
    · rintro ⟨hlow, hhigh⟩
      have hc : c.toNat = '0'.toNat ∨ c.toNat = '1'.toNat := by
        show c.toNat = 48 ∨ c.toNat = 49
        omega
      exact hc.imp Char.toNat_inj.1 Char.toNat_inj.1
  | octal =>
    rw [spells_below_iff (by decide)]
    simp only [isDigit, Lexing.isOctalDigit, Bool.and_eq_true, decide_eq_true_eq]
    exact and_congr Iff.rfl Nat.lt_succ_iff.symm
  | decimal =>
    rw [spells_below_iff (by decide)]
    exact Char.isDigit_iff_toNat.trans (and_congr Iff.rfl Nat.lt_succ_iff.symm)

theorem Radix.Ends.isDigit_eq_false {radix : Radix} {tail : List Char} (h : radix.Ends tail) :
    ∀ c ∈ tail.head?, radix.isDigit c = false := by
  intro c hc
  rw [Bool.eq_false_iff]
  intro hdigit
  obtain ⟨d, hd, hspells⟩ := radix.isDigit_iff.1 hdigit
  exact h.1 c hc d hd hspells

theorem isAlphanumeric_of_isHexDigit (h : Lexing.isHexDigit c = true) :
    Lexing.isAlphanumeric c = true := by
  obtain ⟨d, hd, h⟩ := isHexDigit_iff.1 h
  interval_cases d <;> rcases h with rfl | rfl <;> rfl

theorem isHexDigit_of_isDigit (h : c.isDigit = true) : Lexing.isHexDigit c = true := by
  rw [Lexing.isHexDigit, Text.hexDigit?, if_pos h]
  rfl

end Digits

/-! ## Values -/

namespace Numeral

variable {radix : Radix} {digits : List Char} {values : List Nat}

theorem isDigit_of_mem (h : Numeral radix digits values) :
    ∀ c ∈ digits, radix.isDigit c = true := by
  induction h with
  | nil => exact fun c hc => absurd hc List.not_mem_nil
  | cons hcd _ ih => exact List.forall_mem_cons.2 ⟨radix.isDigit_iff.2 ⟨_, hcd⟩, ih⟩

theorem mapM_digit? (h : Numeral radix digits values) :
    digits.mapM (Number.digit? radix.base) = some values := by
  have hbase : radix.base ≤ 16 := by cases radix <;> decide
  induction h with
  | nil => rfl
  | @cons c d digits values hcd _ ih =>
    have hdigit : Number.digit? radix.base c = some d := by
      rw [Number.digit?, hexDigit?_of_spells (hcd.1.trans_le hbase) hcd.2]
      exact if_pos (decide_eq_true hcd.1)
    rw [List.mapM_cons, hdigit, ih]
    rfl

/-- A numeral without a number sign starts with its mark or a digit. -/
theorem exists_head (h : Numeral radix digits values) (hne : digits ≠ []) :
    ∃ c more, radix.mark ++ digits = c :: more ∧ c ≠ '#' := by
  cases radix with
  | hex => exact ⟨_, _, rfl, by decide⟩
  | binary => exact ⟨_, _, rfl, by decide⟩
  | octal => exact ⟨_, _, rfl, by decide⟩
  | decimal =>
    obtain ⟨c, more, rfl⟩ := List.exists_cons_of_ne_nil hne
    have hc : c.isDigit = true := h.isDigit_of_mem c List.mem_cons_self
    refine ⟨c, more, rfl, ?_⟩
    rintro rfl
    cases hc

end Numeral

theorem ofDigits_eq (base : Nat) (values : List Nat) :
    Number.ofDigits base values = Nat.ofDigits base values.reverse := by
  induction values using List.reverseRecOn with
  | nil => rfl
  | append_singleton values d ih =>
    have hstep : Number.ofDigits base (values ++ [d]) = Number.ofDigits base values * base + d :=
      List.foldl_append
    rw [hstep, ih, List.reverse_concat, Nat.ofDigits_cons]
    ring

namespace Grammar

variable {radix : Radix} {digits : List Char} {values : List Nat}

theorem digitsValue?_numeral (hne : digits ≠ []) (h : Numeral radix digits values) :
    digitsValue? radix.base digits = some (Nat.ofDigits radix.base values.reverse) := by
  rw [digitsValue?, if_neg (by simpa using hne), h.mapM_digit?, Option.map_some, ofDigits_eq]

theorem markedValue_numeral (c : Char) (hne : digits ≠ []) (h : Numeral radix digits values) :
    markedValue radix.base (c :: digits) = .value (Nat.ofDigits radix.base values.reverse) := by
  rw [markedValue, List.drop_one, List.tail_cons, digitsValue?_numeral hne h]

theorem decimalValue_numeral (hne : digits ≠ []) (h : Numeral .decimal digits values)
    (hlimit : digits.length ≤ 4300) :
    decimalValue digits = .value (Nat.ofDigits 10 values.reverse) := by
  have hpoint : digits.dropWhile (· != '.') = [] := by
    rw [List.dropWhile_eq_nil_iff]
    intro c hc
    have hdigit : c.isDigit = true := h.isDigit_of_mem c hc
    rw [bne_iff_ne]
    rintro rfl
    cases hdigit
  have hfits : ¬Number.decimalLimit < digits.length := Nat.not_lt.2 hlimit
  have hvalue : digitsValue? 10 digits = _ := digitsValue?_numeral hne h
  rw [decimalValue, hpoint]
  dsimp only
  rw [if_neg hfits, hvalue]
  rfl

theorem numberValue_numeral {sign : List Char} (hsign : sign = [] ∨ sign = ['#'])
    (hne : digits ≠ []) (h : Numeral radix digits values)
    (hlimit : radix = .decimal → digits.length ≤ 4300) :
    numberValue radix (String.ofList (sign ++ (radix.mark ++ digits))) =
      .value (Nat.ofDigits radix.base values.reverse) := by
  have hdrop : (sign ++ (radix.mark ++ digits)).dropWhile (· == '#') = radix.mark ++ digits := by
    obtain ⟨c, more, hcons, hc⟩ := h.exists_head hne
    have hstop : (radix.mark ++ digits).dropWhile (· == '#') = radix.mark ++ digits := by
      rw [hcons, List.dropWhile_cons_of_neg (by simpa using hc)]
    rcases hsign with rfl | rfl <;> exact hstop
  unfold numberValue
  rw [String.toList_ofList, hdrop]
  cases radix with
  | hex => exact markedValue_numeral '$' hne h
  | binary => exact markedValue_numeral '%' hne h
  | octal => exact markedValue_numeral '&' hne h
  | decimal => exact decimalValue_numeral hne h (hlimit rfl)

end Grammar

/-! ## Lexemes -/

namespace Lexing

variable {radix : Radix} {digits tail : List Char} {values : List Nat}

/-- A run is taken up to the first character that is not of its class. -/
theorem run_eq_length {p : Char → Bool} (hall : ∀ c ∈ digits, p c = true)
    (hstop : ∀ c ∈ tail.head?, p c = false) : run p (digits ++ tail) = digits.length := by
  have hnone : tail.takeWhile p = [] := by
    cases tail with
    | nil => rfl
    | cons c tail => rw [List.takeWhile_cons_of_neg (by simp [hstop c rfl])]
  rw [run, List.takeWhile_append_of_pos hall, hnone, List.append_nil]

theorem nextIs_eq_false {p : Char → Bool} (hstop : ∀ c ∈ tail.head?, p c = false) :
    nextIs p tail = false := by
  cases tail with
  | nil => rfl
  | cons c tail => exact hstop c rfl

theorem digitsBehind?_numeral (hne : digits ≠ []) (h : Numeral radix digits values)
    (hends : radix.Ends tail) :
    digitsBehind? radix radix.isDigit (digits ++ tail) =
      some (.plain (.number radix) digits.length) := by
  rw [digitsBehind?, run_eq_length h.isDigit_of_mem hends.isDigit_eq_false]
  exact if_neg (List.length_eq_zero_iff.not.2 hne)

theorem hexBehind?_numeral (hne : digits ≠ []) (h : Numeral .hex digits values)
    (hends : Radix.hex.Ends tail) :
    hexBehind? (digits ++ tail) = some (.plain (.number .hex) digits.length) := by
  have hrun : run isHexDigit (digits ++ tail) = digits.length :=
    run_eq_length h.isDigit_of_mem hends.isDigit_eq_false
  have hletter : nextIs Text.isLetter tail = false := nextIs_eq_false (hends.2.1 rfl)
  unfold hexBehind?
  dsimp only
  rw [hrun, List.drop_left, hletter, if_neg Bool.false_ne_true]
  exact digitsBehind?_numeral hne h hends

theorem fractionSize_of_ends (hends : Radix.decimal.Ends tail) : fractionSize tail = 0 := by
  fun_cases fractionSize tail with
  | case1 rest hdigit =>
    cases rest with
    | nil => cases hdigit
    | cons c rest =>
      have hnone : c.isDigit = false := hends.2.2 rfl c rest rfl
      exact absurd (hnone.symm.trans hdigit) Bool.false_ne_true
  | case2 => rfl
  | case3 => rfl

/-- The lexeme of a numeral takes its digits and nothing more. -/
theorem unmarkedNumberAt?_numeral {c : Char} {more : List Char} (hne : digits ≠ [])
    (h : Numeral radix digits values) (hends : radix.Ends tail)
    (hcons : radix.mark ++ digits = c :: more) :
    unmarkedNumberAt? c (more ++ tail) = some (.plain (.number radix) more.length) := by
  cases radix with
  | hex =>
    obtain ⟨rfl, rfl⟩ := List.cons.inj hcons
    exact hexBehind?_numeral hne h hends
  | binary =>
    obtain ⟨rfl, rfl⟩ := List.cons.inj hcons
    exact digitsBehind?_numeral hne h hends
  | octal =>
    obtain ⟨rfl, rfl⟩ := List.cons.inj hcons
    exact digitsBehind?_numeral hne h hends
  | decimal =>
    obtain rfl : digits = c :: more := hcons
    have hdigits := List.forall_mem_cons.1 h.isDigit_of_mem
    have hc : c.isDigit = true := hdigits.1
    have hmark : ∀ d : Char, d.isDigit = false → c ≠ d := by
      rintro d hd rfl
      exact absurd (hd.symm.trans hc) Bool.false_ne_true
    have hrun : run Char.isDigit (more ++ tail) = more.length :=
      run_eq_length hdigits.2 hends.isDigit_eq_false
    unfold unmarkedNumberAt?
    rw [if_neg (hmark '$' rfl), if_neg (hmark '%' rfl), if_neg (hmark '&' rfl),
      if_neg (hmark '\'' rfl), if_pos hc, hrun]
    dsimp only
    rw [List.drop_left, fractionSize_of_ends hends, Nat.add_zero]

/-- A number sign before a number is taken along. -/
theorem numberAt?_signed {c d : Char} {sign more w : List Char} {kind : TokenKind}
    (hsign : sign = [] ∨ sign = ['#']) (hcons : sign ++ d :: more = c :: w) (hd : d ≠ '#')
    (h : unmarkedNumberAt? d (more ++ tail) = some (.plain kind more.length)) :
    numberAt? c (w ++ tail) = some (.plain kind w.length) := by
  rcases hsign with rfl | rfl
  · obtain ⟨rfl, rfl⟩ := List.cons.inj hcons
    rw [numberAt?_of_ne hd, h]
  · obtain ⟨rfl, rfl⟩ := List.cons.inj hcons
    show (unmarkedNumberAt? d (more ++ tail)).map _ = _
    rw [h]
    rfl

/-- Letters and digits behind a mark that are not all digits are one illegal lexeme. -/
theorem hexBehind?_misspelled {r : List Char} (hr : ∀ c ∈ r, isAlphanumeric c = true)
    (hstop : ∀ c ∈ tail.head?, isAlphanumeric c = false) (hbad : ∃ c ∈ r, isHexDigit c = false) :
    hexBehind? (r ++ tail) = some (.plain .illegal r.length) := by
  have hsplit : r.takeWhile isHexDigit ++ r.dropWhile isHexDigit = r :=
    List.takeWhile_append_dropWhile
  obtain ⟨c, rest, hrest⟩ : ∃ c rest, r.dropWhile isHexDigit = c :: rest := by
    refine List.exists_cons_of_ne_nil fun hnil => ?_
    obtain ⟨c, hc, hnot⟩ := hbad
    exact absurd (hnot.symm.trans (List.dropWhile_eq_nil_iff.1 hnil c hc)) Bool.false_ne_true
  have hhex : ∀ e ∈ r.takeWhile isHexDigit, isHexDigit e = true := fun e he =>
    List.mem_takeWhile_imp he
  have hc : isHexDigit c = false := by
    have := List.head?_dropWhile_not isHexDigit r
    rw [hrest] at this
    exact this
  generalize r.takeWhile isHexDigit = before at hsplit hhex
  rw [hrest] at hsplit
  subst hsplit
  have hletter : Text.isLetter c = true := by
    have halnum := hr c (List.mem_append_right before List.mem_cons_self)
    rcases Bool.or_eq_true_iff.1 halnum with halpha | hdigit
    · exact halpha
    · exact absurd (hc.symm.trans (isHexDigit_of_isDigit hdigit)) Bool.false_ne_true
  have hrun : run isHexDigit (before ++ (c :: rest ++ tail)) = before.length :=
    run_eq_length hhex fun e he => by
      obtain rfl := Option.some.inj he
      exact hc
  have hwhole : run isAlphanumeric (c :: rest ++ tail) = (c :: rest).length :=
    run_eq_length (fun e he => hr e (List.mem_append_right before he)) hstop
  unfold hexBehind?
  dsimp only
  rw [List.append_assoc, hrun, List.drop_left, hwhole, List.length_append]
  exact if_pos hletter

theorem numberAt?_lone (hstop : ∀ c ∈ tail.head?, isAlphanumeric c = false) :
    numberAt? '$' tail = none := by
  have hhex : ∀ c ∈ tail.head?, isHexDigit c = false := fun c hc =>
    Bool.eq_false_iff.2 fun h =>
      absurd ((hstop c hc).symm.trans (isAlphanumeric_of_isHexDigit h)) Bool.false_ne_true
  have hrun : run isHexDigit ([] ++ tail) = 0 := run_eq_length (by simp) hhex
  rw [List.nil_append] at hrun
  have hletter : nextIs Text.isLetter tail = false := nextIs_eq_false fun c hc =>
    (Bool.or_eq_false_iff.1 (hstop c hc)).1
  show hexBehind? tail = none
  unfold hexBehind? digitsBehind?
  dsimp only
  rw [hrun, List.drop_zero, hletter]
  rfl

end Lexing

/-! ## Reading -/

/-- Modes in which values are read. -/
def Mode.holdsValues : Mode → Bool
  | directive => true
  | expression => true
  | addressing => true
  | operand => true
  | _ => false

namespace Lexing

variable {ref : Option Reference} {mode : Mode} {c : Char} {cs : List Char} {x : Lexeme}

/-- A lexeme of a value is read where values stand. -/
theorem actionAt_of_opens (parens : Nat) (hvalues : mode.holdsValues = true)
    (hopens : opensLexeme c = true) (hslash : c ≠ '/') :
    actionAt ref mode parens c cs =
      .emit (if mode = .operand then operand ref c cs else value ref c cs) := by
  simp only [opensLexeme, List.contains_eq_mem, List.mem_cons, List.not_mem_nil, or_false,
    Bool.not_eq_true', decide_eq_false_iff_not, not_or] at hopens
  obtain ⟨-, -, -, hline, hsemi, hopening, hclosing, hleft, hright⟩ := hopens
  rw [actionAt_of_no_slash (fun h => hslash h.1) (fun h => hslash h.1), if_neg fun h => hsemi h.1]
  cases mode with
  | directive =>
    simp only [modeAction, directiveAction]
    rw [if_neg hline, if_neg hleft, if_neg hright, if_neg hopening, if_neg Mode.noConfusion]
  | expression =>
    simp only [modeAction, expressionAction]
    rw [if_neg hclosing, if_neg hopening, if_neg Mode.noConfusion]
  | addressing =>
    simp only [modeAction, addressingAction]
    rw [if_neg hclosing, if_neg Mode.noConfusion]
  | operand =>
    simp only [modeAction, operandAction]
    rw [if_neg hline, if_neg hright, if_pos trivial]
  | normal | instruction | forLoop | block | conditional | stringLiteral => cases hvalues

/-- A number is read as one lexeme; in an operand it has the role of an address. -/
theorem actionAt_number {kind : TokenKind} {n : Nat} (parens : Nat)
    (hvalues : mode.holdsValues = true) (hsign : mode = .operand → c ≠ '#')
    (h : numberAt? c cs = some (.plain kind n)) (hkind : kind ≠ .string) :
    ∃ x, actionAt ref mode parens c cs = .emit x ∧ Standing kind n x := by
  obtain ⟨hopens, hslash⟩ := opensLexeme_of_number h
  have hstanding := standing_plain hkind n
  refine ⟨_, actionAt_of_opens parens hvalues hopens hslash, ?_⟩
  by_cases hmode : mode = .operand
  · have hparen : c ≠ '(' := by
      rintro rfl
      cases hopens
    have hcomma : c ≠ ',' := by
      rintro rfl
      cases h
    have hquote : c ≠ '"' := by
      rintro rfl
      cases h
    rw [if_pos hmode, operand, if_neg (hsign hmode), if_neg hparen, if_neg hcomma, if_neg hquote, h]
    exact ⟨hstanding.kind_eq, hstanding.more_eq, hstanding.code_eq, hstanding.opening_eq,
      hstanding.closing_eq, hstanding.following_eq, hstanding.gap_eq⟩
  · rw [if_neg hmode, value_of_number h]
    exact hstanding

theorem actionAt_lone (parens : Nat) (hvalues : mode.holdsValues = true)
    (h : numberAt? '$' cs = none) :
    ∃ x, actionAt ref mode parens '$' cs = .emit x ∧ Standing .illegal 0 x := by
  have hoperator : operator '$' cs = .plain .illegal 0 := by cases cs <;> rfl
  refine ⟨_, actionAt_of_opens parens hvalues (by decide) (by decide), ?_⟩
  have hlexeme : (if mode = .operand then operand ref '$' cs else value ref '$' cs) =
      operator '$' cs := by
    split
    · rw [operand, if_neg (by decide), if_neg (by decide), if_neg (by decide),
        if_neg (by decide), h]
      rfl
    · rw [value, h]
      rfl
  rw [hlexeme, hoperator]
  exact standing_plain TokenKind.noConfusion 0

end Lexing

namespace Lexer

variable {ref : Option Reference} {l : Lexer} {c : Char} {w tail : List Char} {kind : TokenKind}

/-- The next token is of a kind and is spelled `cs`. Reading goes on behind it with `tail`, and the
contexts stay as they were. -/
structure Takes (ref : Option Reference) (l : Lexer) (kind : TokenKind) (cs tail : List Char)
    (t : Token) : Prop where
  next : l.next? ref = some (t, { l.skipBlanks with
    rest := tail, place := l.skipBlanks.place.after cs })
  kind_eq : t.kind = kind
  literal_eq : t.literal = String.ofList cs
  place_eq : t.place = l.skipBlanks.place

theorem takes_of_standing {x : Lexeme} (hrest : l.skipBlanks.rest = c :: (w ++ tail))
    (hx : Lexing.actionAt ref l.skipBlanks.nesting.top.mode l.skipBlanks.parens c (w ++ tail) =
      .emit x) (hstanding : Lexing.Standing kind w.length x)
    (hplain : kind ≠ .string ∧ kind ≠ .leftParen ∧ kind ≠ .rightParen) :
    ∃ t, l.Takes ref kind (c :: w) tail t := by
  obtain ⟨hstring, hopening, hclosing⟩ := hplain
  have hparens : parensAfter l.skipBlanks.parens kind = l.skipBlanks.parens := by
    unfold parensAfter
    split
    · exact absurd rfl hopening
    · exact absurd rfl hclosing
    · rfl
  refine ⟨(l.skipBlanks.emit c (w ++ tail) x).1, ?_, ?_, ?_, (emit_kind _ _ _ _).2⟩
  · rw [next?_emit rfl hrest hx, emit, hstanding.kind_eq, hstanding.more_eq, hstanding.opening_eq,
      hstanding.closing_eq, hstanding.following_eq, hstanding.gap_eq, if_neg hstring,
      if_neg hstring, hparens, List.take_left, List.drop_left]
    rfl
  · rw [(emit_kind _ _ _ _).1, hstanding.kind_eq]
  · rw [emit_literal, Lexeme.literalAt, hstanding.code_eq, hstanding.more_eq, List.take_left]

/-- A number is one token, with a number sign before it outside of operands. -/
theorem takes_number {sign : List Char} (hvalues : l.nesting.top.mode.holdsValues = true)
    (hsign : sign = [] ∨ sign = ['#'] ∧ l.nesting.top.mode ≠ .operand) (hc : c ≠ '#')
    (hnumber : Lexing.unmarkedNumberAt? c (w ++ tail) = some (.plain kind w.length))
    (hplain : kind ≠ .string ∧ kind ≠ .leftParen ∧ kind ≠ .rightParen)
    (hrest : l.skipBlanks.rest = sign ++ c :: w ++ tail) :
    ∃ t, l.Takes ref kind (sign ++ c :: w) tail t := by
  obtain ⟨d, v, hcons⟩ : ∃ d v, sign ++ c :: w = d :: v :=
    List.exists_cons_of_ne_nil (List.append_ne_nil_of_right_ne_nil _ (List.cons_ne_nil _ _))
  have hoperand : l.nesting.top.mode = .operand → d ≠ '#' := by
    intro hmode
    rcases hsign with rfl | ⟨-, hother⟩
    · obtain ⟨rfl, -⟩ := List.cons.inj hcons
      exact hc
    · exact absurd hmode hother
  have hread := Lexing.numberAt?_signed (hsign.imp_right And.left) hcons hc hnumber
  rw [hcons] at hrest ⊢
  obtain ⟨x, hx, hstanding⟩ := Lexing.actionAt_number l.skipBlanks.parens hvalues hoperand hread
    hplain.1
  exact takes_of_standing hrest hx hstanding hplain

end Lexer

/-! ## Literals in expressions -/

namespace Grammar

variable {s : State} {sub : Nat → Parser Expr} {rules : Rules} {room least : Nat}

theorem operand_number {radix : Radix} {n : Nat} (hkind : s.current.kind = .number radix)
    (hvalue : numberValue radix s.current.literal = .value n) :
    (operand sub).run s = (.integer s.current n, s) := by
  rw [operand, Parser.run_bind, show (current.run s).1.kind = _ from hkind]
  dsimp only
  rw [show (current.run s).1 = s.current from rfl, integerLiteral, hvalue]
  rfl

theorem expression_illegal (hkind : s.current.kind = .illegal) (hquiet : s.unwinding = false) :
    (expression rules (room + 1) least).run s = (.missing,
      s.add (.atPlace .error (illegalMessage s.current.literal) s.current.place .grammar)) := by
  have hoperand : (operand (expression rules room)).run s = (.missing, if s.unwinding then s else
      s.add (.atPlace .error (illegalMessage s.current.literal) s.current.place .grammar)) := by
    rw [operand, Parser.run_bind, show (current.run s).1.kind = _ from hkind]
    rfl
  rw [hquiet, if_neg Bool.false_ne_true] at hoperand
  unfold expression
  rw [Parser.run_bind, hoperand]
  exact operators_missing

theorem illegalMessage_mark {sign : List Char} (hsign : sign = [] ∨ sign = ['#']) (r : List Char) :
    illegalMessage (String.ofList (sign ++ '$' :: r)) =
      "Invalid hex value '" ++ String.ofList (sign ++ '$' :: r) ++
        "' - hex values must only contain digits 0-9 and letters A-F" := by
  refine if_pos ?_
  simp only [Text.startsWith, String.toList_ofList]
  rcases hsign with rfl | rfl <;> rfl

/-! ## The main statement -/

section Main

variable {l : Lexer} {sign : List Char}

/-- A numeral is one token, and the literal of its positional value. -/
theorem takes_numeral (ref : Option Reference) (rules : Rules) {radix : Radix}
    {digits tail : List Char} {values : List Nat}
    (hvalues : l.nesting.top.mode.holdsValues = true)
    (hsign : sign = [] ∨ sign = ['#'] ∧ l.nesting.top.mode ≠ .operand)
    (hne : digits ≠ []) (h : Numeral radix digits values) (hends : radix.Ends tail)
    (hlimit : radix = .decimal → digits.length ≤ 4300)
    (hrest : l.skipBlanks.rest = sign ++ (radix.mark ++ digits) ++ tail) :
    ∃ t, l.Takes ref (.number radix) (sign ++ (radix.mark ++ digits)) tail t ∧
      ∀ s : State, s.current = t → ∀ room least,
        (expression rules (room + 1) least).run s =
          (operators (expression rules room) least
            (.integer t (Nat.ofDigits radix.base values.reverse))).run s := by
  obtain ⟨c, more, hcons, hc⟩ := h.exists_head hne
  have hnumber := Lexing.unmarkedNumberAt?_numeral hne h hends hcons
  have hvalue := numberValue_numeral (hsign.imp_right And.left) hne h hlimit
  rw [hcons] at hrest hvalue ⊢
  obtain ⟨t, ht⟩ : ∃ t, l.Takes ref (.number radix) (sign ++ c :: more) tail t :=
    Lexer.takes_number hvalues hsign hc hnumber
      ⟨TokenKind.noConfusion, TokenKind.noConfusion, TokenKind.noConfusion⟩ hrest
  refine ⟨t, ht, ?_⟩
  rintro s rfl room least
  unfold expression
  rw [Parser.run_bind, operand_number ht.kind_eq (ht.literal_eq ▸ hvalue)]

/-- A mark with letters behind it that are no digits is one token, and one error. -/
theorem takes_misspelled (ref : Option Reference) (rules : Rules) {r tail : List Char}
    (hvalues : l.nesting.top.mode.holdsValues = true)
    (hsign : sign = [] ∨ sign = ['#'] ∧ l.nesting.top.mode ≠ .operand)
    (hr : ∀ c ∈ r, Lexing.isAlphanumeric c = true)
    (hstop : ∀ c ∈ tail.head?, Lexing.isAlphanumeric c = false)
    (hbad : r = [] ∧ sign = [] ∨ ∃ c ∈ r, ∀ d < 16, ¬Spells c d)
    (hrest : l.skipBlanks.rest = sign ++ '$' :: r ++ tail) :
    ∃ t, l.Takes ref .illegal (sign ++ '$' :: r) tail t ∧
      ∀ s : State, s.current = t → s.unwinding = false → ∀ room least,
        (expression rules (room + 1) least).run s = (.missing, s.add (.atPlace .error
          ("Invalid hex value '" ++ t.literal ++
            "' - hex values must only contain digits 0-9 and letters A-F") t.place .grammar)) := by
  have hplain : TokenKind.illegal ≠ .string ∧ TokenKind.illegal ≠ .leftParen ∧
      TokenKind.illegal ≠ .rightParen :=
    ⟨TokenKind.noConfusion, TokenKind.noConfusion, TokenKind.noConfusion⟩
  obtain ⟨t, ht⟩ : ∃ t, l.Takes ref .illegal (sign ++ '$' :: r) tail t := by
    rcases hbad with ⟨rfl, rfl⟩ | ⟨c, hc, hnot⟩
    · obtain ⟨x, hx, hstanding⟩ := Lexing.actionAt_lone l.skipBlanks.parens hvalues
        (Lexing.numberAt?_lone hstop)
      exact Lexer.takes_of_standing (w := []) hrest hx hstanding hplain
    · have hother : Lexing.isHexDigit c = false := Bool.eq_false_iff.2 fun hhex => by
        obtain ⟨d, hd, hspells⟩ := isHexDigit_iff.1 hhex
        exact hnot d hd hspells
      exact Lexer.takes_number hvalues hsign (by decide)
        (Lexing.hexBehind?_misspelled hr hstop ⟨c, hc, hother⟩) hplain hrest
  refine ⟨t, ht, ?_⟩
  rintro s rfl hquiet room least
  rw [expression_illegal ht.kind_eq hquiet, ht.literal_eq,
    illegalMessage_mark (hsign.imp_right And.left)]

/-- Where values are read, each numeral is one token with its mark and all its digits, and an
expression that starts with it starts with the literal of the positional value. A hexadecimal mark
without digits, or with letters among them that are none, is one token up to the next character that
is no letter and no digit; there is one error in place of an expression that starts with it. -/
theorem numerals_decode (ref : Option Reference) (rules : Rules) (l : Lexer) (sign : List Char)
    (hvalues : l.nesting.top.mode.holdsValues = true)
    (hsign : sign = [] ∨ sign = ['#'] ∧ l.nesting.top.mode ≠ .operand) :
    (∀ radix digits values tail, digits ≠ [] → Numeral radix digits values → radix.Ends tail →
      (radix = .decimal → digits.length ≤ 4300) →
      l.skipBlanks.rest = sign ++ (radix.mark ++ digits) ++ tail →
      ∃ t, l.Takes ref (.number radix) (sign ++ (radix.mark ++ digits)) tail t ∧
        ∀ s : State, s.current = t → ∀ room least,
          (expression rules (room + 1) least).run s =
            (operators (expression rules room) least
              (.integer t (Nat.ofDigits radix.base values.reverse))).run s) ∧
    ∀ r tail, (∀ c ∈ r, c.isAlphanum = true) → (∀ c ∈ tail.head?, c.isAlphanum = false) →
      (r = [] ∧ sign = [] ∨ ∃ c ∈ r, ∀ d < 16, ¬Spells c d) →
      l.skipBlanks.rest = sign ++ '$' :: r ++ tail →
      ∃ t, l.Takes ref .illegal (sign ++ '$' :: r) tail t ∧
        ∀ s : State, s.current = t → s.unwinding = false → ∀ room least,
          (expression rules (room + 1) least).run s = (.missing, s.add (.atPlace .error
            ("Invalid hex value '" ++ t.literal ++
              "' - hex values must only contain digits 0-9 and letters A-F") t.place .grammar)) :=
  ⟨fun _ _ _ _ hne h hends hlimit hrest =>
      takes_numeral ref rules hvalues hsign hne h hends hlimit hrest,
    fun _ _ hr hstop hbad hrest => takes_misspelled ref rules hvalues hsign hr hstop hbad hrest⟩

def behindDirective (text : String) : Lexer :=
  { Lexer.ofText 8 text with nesting := (Nesting.ofLimit 8).push Place.start .directive ".byte" }

/-- The digits `0Ff` in base sixteen before a sign, and the letters `1G` before a comma. -/
theorem numerals_decode_behind_directive :
    (∃ t, (behindDirective " #$0Ff+").Takes none (.number .hex) ['#', '$', '0', 'F', 'f'] ['+'] t ∧
      ∀ s : State, s.current = t → ∀ room least, (expression ⟨8, none⟩ (room + 1) least).run s =
        (operators (expression ⟨8, none⟩ room) least (.integer t 255)).run s) ∧
    ∃ t, (behindDirective "$1G,").Takes none .illegal ['$', '1', 'G'] [','] t ∧
      ∀ s : State, s.current = t → s.unwinding = false → ∀ room least,
        (expression ⟨8, none⟩ (room + 1) least).run s = (.missing, s.add (.atPlace .error
          ("Invalid hex value '" ++ t.literal ++
            "' - hex values must only contain digits 0-9 and letters A-F") t.place .grammar)) := by
  have hnumeral : Numeral .hex ['0', 'F', 'f'] [0, 15, 15] :=
    .cons (by decide) (.cons (by decide) (.cons (by decide) .nil))
  have hends : Radix.hex.Ends ['+'] := by
    refine ⟨?_, ?_, Radix.noConfusion⟩
    · rintro c ⟨⟩
      decide
    · rintro - c ⟨⟩
      rfl
  have hcomma : ∀ c ∈ [','].head?, c.isAlphanum = false := by
    rintro c ⟨⟩
    rfl
  have hvalue : Nat.ofDigits Radix.hex.base [0, 15, 15].reverse = 255 := by decide
  have hrest : (behindDirective " #$0Ff+").skipBlanks.rest =
      ['#'] ++ (Radix.hex.mark ++ ['0', 'F', 'f']) ++ ['+'] := by decide +kernel
  have hhex := (numerals_decode none ⟨8, none⟩ (behindDirective " #$0Ff+") ['#'] (by decide)
    (.inr ⟨rfl, by decide⟩)).1 .hex _ _ _ (List.cons_ne_nil _ _) hnumeral hends Radix.noConfusion
    hrest
  rw [hvalue] at hhex
  exact ⟨hhex, (numerals_decode none ⟨8, none⟩ (behindDirective "$1G,") [] (by decide) (.inl rfl)).2
    ['1', 'G'] [','] (List.all_eq_true.1 rfl) hcomma (.inr ⟨'G', by decide, by decide⟩)
    (by decide +kernel)⟩

end Main

end Grammar

end Asm6510
