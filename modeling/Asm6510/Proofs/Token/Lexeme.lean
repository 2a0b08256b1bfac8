import Asm6510.Token.Lexeme
import Mathlib.Data.List.TakeWhile

/-!
# What every lexeme satisfies

* `Lexing.separators`: the characters that numbers and names are spelled without.
* `Lexeme.Worded`: a lexeme of a number, a name, or a token that a statement starts with. Such a
  lexeme is spelled without separators, unless it is a character literal.
* `Lexing.Part`, `Lexing.Form`: what can be read at some characters, comments apart, in a value and
  in any mode.
* `Lexeme.Like`: what a mode adds to a form: a part in an operand, changes of the nesting before it,
  and the blanks behind a comma.
* `Lexeme.Proper`: the facts about a lexeme that the lexer relies on, whatever form it has.

A form is a string, an operator or worded (`Form.cases_worded`), and what a mode reads is like a
form (`modeAction_form`), so a fact about all lexemes is shown for these three and carried over.

Main statements: `actionAt_proper`, whatever is read is proper; `actionAt_instruction`, right after
a mnemonic only comments are read.
-/

namespace Asm6510

variable {c : Char} {cs : List Char} {p : Char → Bool} {mode : Mode} {x : Lexeme} {kind : TokenKind}

/-- Modes in which statements start. -/
def Mode.startsStatements : Mode → Bool
  | normal => true
  | forLoop => true
  | block => true
  | conditional => true
  | _ => false

/-- Kinds of numbers, of names, and of the tokens that statements start with. -/
def TokenKind.isWorded : TokenKind → Bool
  | number _ => true
  | illegal => true
  | identifier => true
  | function _ => true
  | constant _ => true
  | otherwise => true
  | label => true
  | mnemonic _ => true
  | directive _ => true
  | programCounter => true
  | _ => false

namespace Lexing

/-! ## Separators -/

/-- Characters that numbers and names are spelled without: blanks, the marks of comments and of
strings, parentheses and braces. -/
def separators : List Char :=
  [' ', '\t', '\r', '\n', '/', ';', '"', '(', ')', '\x7b', '\x7d']

/-- The first `n` characters are no separators. -/
def BareTo (n : Nat) (cs : List Char) : Prop :=
  ∀ d ∈ cs.take n, d ∉ separators

/-- A character between apostrophes, which may have a number sign before them. -/
def Quoted (c : Char) (cs : List Char) (more : Nat) : Prop :=
  ∃ value rest, value ≠ '\n' ∧
    (c = '\'' ∧ cs = value :: '\'' :: rest ∧ more = 2 ∨
      c = '#' ∧ cs = '\'' :: value :: '\'' :: rest ∧ more = 3)

section Separators

variable {c : Char} {cs : List Char} {m n : Nat}

theorem bareTo_zero : BareTo 0 cs :=
  fun d hd => absurd hd (by simp)

theorem bareTo_one (hc : c ∉ separators) : BareTo 1 (c :: cs) := by
  simpa [BareTo] using hc

theorem BareTo.add (hm : BareTo m cs) (hn : BareTo n (cs.drop m)) : BareTo (m + n) cs := by
  intro d hd
  rw [List.take_add] at hd
  exact (List.mem_append.1 hd).elim (hm d) (hn d)

theorem not_mem_separators (h : separators.all (fun e => !p e) = true) :
    ∀ d, p d = true → d ∉ separators := by
  intro d hd hmem
  simpa [hd] using List.all_eq_true.1 h d hmem

theorem bareTo_run (h : separators.all (fun e => !p e) = true) (cs : List Char) :
    BareTo (run p cs) cs := by
  intro d hd
  have htake : cs.take (run p cs) = cs.takeWhile p :=
    (List.prefix_iff_eq_take.1 (List.takeWhile_prefix p)).symm
  rw [htake] at hd
  exact not_mem_separators h d (List.mem_takeWhile_imp hd)

theorem bareTo_one_of_nextIs (h : separators.all (fun e => !p e) = true)
    (hnext : nextIs p cs = true) : BareTo 1 cs := by
  cases cs with
  | nil => cases hnext
  | cons d rest => exact bareTo_one (not_mem_separators h d hnext)

theorem bareTo_fraction (cs : List Char) : BareTo (fractionSize cs) cs := by
  unfold fractionSize
  split
  · split
    · rw [Nat.add_comm]
      exact (bareTo_one (by decide)).add (bareTo_run (by decide) _)
    · exact bareTo_zero
  · exact bareTo_zero

end Separators

/-! ## The characters of a string -/

section Strings

variable {e : Char} {w : List Char}

/-- A character that is a backslash neither at the end nor before another character is none. -/
theorem ne_backslash (hlast : e = '\\' → w = [] → False)
    (hmore : ∀ f v, e = '\\' → w = f :: v → False) : e ≠ '\\' := by
  intro he
  cases w with
  | nil => exact hlast he rfl
  | cons f v => exact hmore f v he rfl

theorem stringSize_escape (he : e ≠ '\n') (v : List Char) :
    stringSize ('\\' :: e :: v) = stringSize v + 2 := by
  rw [stringSize]
  exact he

theorem stringSize_plain (hquote : e ≠ '"') (hline : e ≠ '\n') (hslash : e ≠ '\\')
    (v : List Char) : stringSize (e :: v) = stringSize v + 1 := by
  rw [stringSize] <;> simp_all

end Strings

end Lexing

/-- A lexeme at `c :: cs` that is spelled without separators, or a character literal. -/
def Lexeme.Apart (c : Char) (cs : List Char) (x : Lexeme) : Prop :=
  (x.code = none ∧ c ∉ Lexing.separators ∧ Lexing.BareTo x.more cs) ∨
    (x.kind = .number .decimal ∧ Lexing.Quoted c cs x.more)

/-- A lexeme of a number, a name, or a token that a statement starts with. It changes the nesting
only once it is read. -/
structure Lexeme.Worded (c : Char) (cs : List Char) (x : Lexeme) : Prop where
  kind : x.kind.isWorded = true
  text_eq : x.note.text = ""
  gap_eq : x.gap = 0
  opening_eq : x.opening = []
  closing : ∀ e ∈ x.closing, ∃ name, e = .push .directive name
  following : x.following = [] ∨ x.following = [.pop] ∨ x.following = [.push .instruction ""]
  apart : x.Apart c cs

namespace Lexing

variable {more : Nat}

/-! ## Single forms -/

section Single

variable {ref : Option Reference} {c : Char} {cs : List Char} {x : Lexeme}

/-- A lexeme of a number: it leaves the nesting as it is. -/
structure NumberKind (c : Char) (cs : List Char) (x : Lexeme) : Prop where
  kind : x.kind.isNumber = true ∨ x.kind = .illegal
  plain_eq : x = { Lexeme.plain x.kind x.more with code := x.code }
  apart : x.Apart c cs

theorem numberKind_plain (hkind : kind.isNumber = true ∨ kind = .illegal) (hc : c ∉ separators)
    (hcs : BareTo more cs) : NumberKind c cs (Lexeme.plain kind more) :=
  ⟨hkind, rfl, .inl ⟨rfl, hc, hcs⟩⟩

theorem digitsBehind?_eq_some {radix : Radix} (h : digitsBehind? radix p cs = some x) :
    run p cs ≠ 0 ∧ x = Lexeme.plain (.number radix) (run p cs) := by
  unfold digitsBehind? at h
  dsimp only at h
  split at h
  · cases h
  · next hdigits => exact ⟨hdigits, (Option.some.inj h).symm⟩

theorem numberKind_digitsBehind {radix : Radix} (hc : c ∉ separators)
    (hp : separators.all (fun e => !p e) = true) (h : digitsBehind? radix p cs = some x) :
    NumberKind c cs x := by
  obtain ⟨-, rfl⟩ := digitsBehind?_eq_some h
  exact numberKind_plain (.inl rfl) hc (bareTo_run hp cs)

theorem numberKind_unmarked (h : unmarkedNumberAt? c cs = some x) : NumberKind c cs x := by
  unfold unmarkedNumberAt? at h
  split at h
  · next hc =>
    subst hc
    unfold hexBehind? at h
    dsimp only at h
    split at h
    · cases h
      exact numberKind_plain (.inr rfl) (by decide)
        ((bareTo_run (by decide) cs).add (bareTo_run (by decide) _))
    · exact numberKind_digitsBehind (by decide) (by decide) h
  split at h
  · next hc => exact numberKind_digitsBehind (by rw [hc]; decide) (by decide) h
  split at h
  · next hc => exact numberKind_digitsBehind (by rw [hc]; decide) (by decide) h
  split at h
  · next hc =>
    split at h
    · next value rest =>
      split at h
      · cases h
      · next hvalue =>
        cases h
        exact ⟨.inl rfl, rfl, .inr ⟨rfl, value, rest, hvalue, .inl ⟨hc, rfl, rfl⟩⟩⟩
    · cases h
  split at h
  · next hdigit =>
    cases h
    exact numberKind_plain (.inl rfl) (not_mem_separators (by decide) c hdigit)
      ((bareTo_run (by decide) cs).add (bareTo_fraction _))
  · cases h

theorem numberKind (h : numberAt? c cs = some x) : NumberKind c cs x := by
  unfold numberAt? at h
  split at h
  · next hc =>
    subst hc
    cases cs with
    | nil => cases h
    | cons d rest =>
      obtain ⟨y, hy, rfl⟩ := Option.map_eq_some_iff.1 h
      obtain ⟨hkind, hplain, hapart⟩ := numberKind_unmarked hy
      refine ⟨hkind, by rw [hplain]; rfl, ?_⟩
      rcases hapart with ⟨hcode, hd, hrest⟩ | ⟨hdecimal, value, rest, hvalue, hquoted⟩
      · refine .inl ⟨hcode, by decide, ?_⟩
        rw [show y.more + 1 = 1 + y.more from Nat.add_comm _ _]
        exact (bareTo_one hd).add hrest
      · rcases hquoted with ⟨rfl, rfl, hmore⟩ | ⟨rfl, -, -⟩
        · exact .inr ⟨hdecimal, value, rest, hvalue, .inr ⟨rfl, rfl, by rw [hmore]⟩⟩
        · simp [unmarkedNumberAt?] at hy
  · exact numberKind_unmarked h

theorem NumberKind.code (h : NumberKind c cs x) (hcode : x.code ≠ none) :
    x.kind = .number .decimal := by
  rcases h.apart with ⟨hnone, -⟩ | ⟨hkind, -⟩
  · exact absurd hnone hcode
  · exact hkind

theorem nameSize?_eq_some (h : nameSize? c cs = some more) :
    Text.isNameStart c = true ∧ more = run isDotted cs ∨
      c = '!' ∧ nextIs (fun d => Text.isNameStart d || d == '+' || d == '-') cs = true ∧
        more = run isDotted cs +
          run (fun d => d == '+' || d == '-') (cs.drop (run isDotted cs)) := by
  unfold nameSize? at h
  split at h
  · next hname => exact .inl ⟨hname, (Option.some.inj h).symm⟩
  split at h
  · next hmark => exact .inr ⟨hmark.1, hmark.2, (Option.some.inj h).symm⟩
  · cases h

theorem bare_nameSize (h : nameSize? c cs = some more) : c ∉ separators ∧ BareTo more cs := by
  rcases nameSize?_eq_some h with ⟨hname, rfl⟩ | ⟨rfl, -, rfl⟩
  · exact ⟨not_mem_separators (by decide) c hname, bareTo_run (by decide) cs⟩
  · exact ⟨by decide, (bareTo_run (by decide) cs).add (bareTo_run (by decide) _)⟩

theorem wordAt?_eq_some (h : wordAt? ref c cs = some x) :
    ∃ kind more note, x = { Lexeme.plain kind more with note } ∧ note.text = "" ∧
      (kind.isName = true ∨ kind = .otherwise) ∧ nameSize? c cs = some more := by
  unfold wordAt? at h
  obtain ⟨more, hmore, rfl⟩ := Option.map_eq_some_iff.1 h
  dsimp only
  split
  · exact ⟨_, more, _, rfl, rfl, .inr rfl, hmore⟩
  split
  · exact ⟨_, more, _, rfl, rfl, .inl rfl, hmore⟩
  · refine ⟨_, more, _, rfl, rfl, .inl ?_, hmore⟩
    split <;> rfl

/-- What a statement starts with, values apart: a directive, the mark of the program counter, a
label or a mnemonic. -/
inductive Head (c : Char) (cs : List Char) : Lexeme → Prop
  | preprocessor (hc : c = '#') (name : String) :
    Head c cs (directive (.directive .preprocessor) name (run Text.isLetter cs))
  | directive (hc : c = '.') (cls : DirectiveClass) (name : String) :
    Head c cs (directive (.directive cls) name (run Text.isNamePart cs))
  | programCounter (hc : c = '*') (hnext : nextIs (· == '=') cs = true) :
    Head c cs (Lexeme.plain .programCounter 1)
  | label (hc : c = '!' ∨ Text.isNameStart c = true)
      (hcolon : nextIs (· == ':') (cs.drop (run Text.isNamePart cs)) = true) :
    Head c cs (Lexeme.plain .label (run Text.isNamePart cs + 1))
  | mnemonic {d e : Char} {rest : List Char} {note : Note} (hcs : cs = d :: e :: rest)
      (hc : Text.isLetter c = true) (hd : Text.isLetter d = true) (he : Text.isLetter e = true)
      (htext : note.text = "") (cls : MnemonicClass) :
    Head c cs { Lexeme.plain (.mnemonic cls) 2 with note, following := [.push .instruction ""] }

theorem head_preprocessor (h : preprocessorAt? ref c cs = some x) : Head c cs x := by
  unfold preprocessorAt? at h
  split at h
  · next hc =>
    split at h
    · dsimp only at h
      split at h
      · cases h
        exact .preprocessor hc _
      · cases h
    · cases h
  · cases h

theorem head_directive (h : directiveAt? ref c cs = some x) : Head c cs x := by
  unfold directiveAt? at h
  split at h
  · next hc =>
    cases h
    exact .directive hc.1 _ _
  · cases h

theorem head_programCounter (h : programCounterAt? c cs = some x) : Head c cs x := by
  unfold programCounterAt? at h
  split at h
  · next hc =>
    cases h
    exact .programCounter hc.1 hc.2
  · cases h

theorem head_label (h : labelAt? c cs = some x) : Head c cs x := by
  unfold labelAt? at h
  split at h
  · next hc =>
    dsimp only at h
    split at h
    · next rest hcolon =>
      split at h
      · cases h
      · cases h
        exact .label hc (by rw [hcolon]; rfl)
    · cases h
  · cases h

theorem head_mnemonic (h : mnemonicAt? ref c cs = some x) : Head c cs x := by
  unfold mnemonicAt? at h
  split at h
  · next known d e rest =>
    split at h
    · next hword =>
      simp only [Bool.and_eq_true] at hword
      obtain ⟨⟨⟨hc, hd⟩, he⟩, -⟩ := hword
      obtain ⟨info, -, rfl⟩ := Option.map_eq_some_iff.1 h
      exact .mnemonic rfl hc hd he rfl _
    · cases h
  · cases h

end Single

/-! ## All forms -/

/-- What can be read at `c :: cs` as a part of a value or of an operand. -/
inductive Part (ref : Option Reference) (c : Char) (cs : List Char) : Lexeme → Prop
  | string (hc : c = '"') : Part ref c cs (string cs)
  | operator (hc : c ≠ '"') : Part ref c cs (operator c cs)
  | number {x : Lexeme} (h : numberAt? c cs = some x) : Part ref c cs x
  | word {x : Lexeme} (h : wordAt? ref c cs = some x) : Part ref c cs x
  | register (h : isLoneRegister (c :: cs) = true) : Part ref c cs indexRegister

/-- What can be read at `c :: cs` outside of comments. -/
inductive Form (ref : Option Reference) (c : Char) (cs : List Char) (x : Lexeme) : Prop
  | part (h : Part ref c cs x)
  | head (h : Head c cs x)

section Forms

variable {ref : Option Reference} {c : Char} {cs : List Char} {x : Lexeme}

theorem worded_plain {note : Note} (hkind : kind.isWorded = true) (htext : note.text = "")
    (hc : c ∉ separators) (hcs : BareTo more cs) :
    ({ Lexeme.plain kind more with note } : Lexeme).Worded c cs :=
  ⟨hkind, htext, rfl, rfl, fun _ he => absurd he List.not_mem_nil, .inl rfl, .inl ⟨rfl, hc, hcs⟩⟩

theorem worded_number (h : numberAt? c cs = some x) : x.Worded c cs := by
  obtain ⟨hkind, hplain, hapart⟩ := numberKind h
  have hworded : x.kind.isWorded = true := by
    rcases hkind with hkind | hkind
    · revert hkind
      cases x.kind <;> first | exact fun _ => rfl | exact Bool.noConfusion
    · rw [hkind]
      rfl
  refine ⟨hworded, ?_, ?_, ?_, ?_, ?_, hapart⟩
  all_goals rw [hplain]
  · rfl
  · rfl
  · rfl
  · exact fun _ he => absurd he List.not_mem_nil
  · exact .inl rfl

theorem worded_word (h : wordAt? ref c cs = some x) : x.Worded c cs := by
  obtain ⟨kind, more, note, rfl, htext, hkind, hmore⟩ := wordAt?_eq_some h
  have hworded : kind.isWorded = true := by
    rcases hkind with hkind | rfl
    · revert hkind
      cases kind <;> first | exact fun _ => rfl | exact Bool.noConfusion
    · rfl
  exact worded_plain hworded htext (bare_nameSize hmore).1 (bare_nameSize hmore).2

theorem worded_register (h : isLoneRegister (c :: cs) = true) : indexRegister.Worded c cs := by
  have hc : c ∉ separators := by
    simp only [isLoneRegister, Bool.and_eq_true, Bool.or_eq_true, beq_iff_eq] at h
    rcases h.1 with ((rfl | rfl) | rfl) | rfl <;> decide
  exact ⟨rfl, rfl, rfl, rfl, fun _ he => absurd he List.not_mem_nil, .inr (.inl rfl),
    .inl ⟨rfl, hc, bareTo_zero⟩⟩

theorem worded_directive (cls : DirectiveClass) (name : String) (hc : c ∉ separators)
    (hp : separators.all (fun e => !p e) = true) :
    (directive (.directive cls) name (run p cs)).Worded c cs :=
  ⟨rfl, rfl, rfl, rfl, List.forall_mem_singleton.2 ⟨name, rfl⟩, .inl rfl,
    .inl ⟨rfl, hc, bareTo_run hp cs⟩⟩

theorem worded_head (h : Head c cs x) : x.Worded c cs := by
  cases h with
  | preprocessor hc name => exact worded_directive _ name (by rw [hc]; decide) (by decide)
  | directive hc cls name => exact worded_directive cls name (by rw [hc]; decide) (by decide)
  | programCounter hc hnext =>
    exact worded_plain rfl rfl (by rw [hc]; decide) (bareTo_one_of_nextIs (by decide) hnext)
  | label hc hcolon =>
    refine worded_plain rfl rfl ?_
      ((bareTo_run (by decide) cs).add (bareTo_one_of_nextIs (by decide) hcolon))
    rcases hc with rfl | hname
    · decide
    · exact not_mem_separators (by decide) c hname
  | mnemonic hcs hc hd he htext cls =>
    subst hcs
    have hletter := not_mem_separators (p := Text.isLetter) (by decide)
    exact ⟨rfl, htext, rfl, rfl, fun _ he => absurd he List.not_mem_nil, .inr (.inr rfl),
      .inl ⟨rfl, hletter c hc, (bareTo_one (hletter _ hd)).add (bareTo_one (hletter _ he))⟩⟩

/-- **A form is a string, an operator, or worded.** -/
theorem Form.cases_worded (h : Form ref c cs x) :
    c = '"' ∧ x = string cs ∨ c ≠ '"' ∧ x = operator c cs ∨ x.Worded c cs := by
  cases h with
  | part h =>
    cases h with
    | string hc => exact .inl ⟨hc, rfl⟩
    | operator hc => exact .inr (.inl ⟨hc, rfl⟩)
    | number h => exact .inr (.inr (worded_number h))
    | word h => exact .inr (.inr (worded_word h))
    | register h => exact .inr (.inr (worded_register h))
  | head h => exact .inr (.inr (worded_head h))

/-- A lexeme of a value is a number, a string, a name or an operator. -/
theorem value_cases (ref : Option Reference) (c : Char) (cs : List Char) {P : Lexeme → Prop}
    (hnumber : ∀ x, numberAt? c cs = some x → P x) (hstring : c = '"' → P (string cs))
    (hword : ∀ x, wordAt? ref c cs = some x → P x) (hoperator : c ≠ '"' → P (operator c cs)) :
    P (value ref c cs) := by
  unfold value stringAt?
  cases hn : numberAt? c cs with
  | some x => exact hnumber x hn
  | none =>
    by_cases hc : c = '"'
    · rw [if_pos hc]
      exact hstring hc
    · rw [if_neg hc]
      cases hw : wordAt? ref c cs with
      | some x => exact hword x hw
      | none => exact hoperator hc

theorem part_value (ref : Option Reference) (c : Char) (cs : List Char) :
    Part ref c cs (value ref c cs) :=
  value_cases (P := Part ref c cs) ref c cs (fun _ => .number) .string (fun _ => .word) .operator

/-- A statement starts with a token of its own, or with a value. -/
theorem statement_cases (ref : Option Reference) (c : Char) (cs : List Char) :
    Head c cs (statement ref c cs) ∨ statement ref c cs = value ref c cs := by
  unfold statement
  cases hpreprocessor : preprocessorAt? ref c cs with
  | some x => exact .inl (head_preprocessor hpreprocessor)
  | none =>
  cases hdirective : directiveAt? ref c cs with
  | some x => exact .inl (head_directive hdirective)
  | none =>
  cases hcounter : programCounterAt? c cs with
  | some x => exact .inl (head_programCounter hcounter)
  | none =>
  cases hlabel : labelAt? c cs with
  | some x => exact .inl (head_label hlabel)
  | none =>
  cases hmnemonic : mnemonicAt? ref c cs with
  | some x => exact .inl (head_mnemonic hmnemonic)
  | none => exact .inr rfl

theorem form_statement (ref : Option Reference) (c : Char) (cs : List Char) :
    Form ref c cs (statement ref c cs) := by
  rcases statement_cases ref c cs with hhead | hvalue
  · exact .head hhead
  · rw [hvalue]
    exact .part (part_value ref c cs)

end Forms

end Lexing

/-! ## What a mode adds -/

/-- The lexeme `x` at `c :: cs` is `y`, perhaps with a part in an operand; a bracket may change the
nesting before it, and a comma may have blanks behind it. -/
structure Lexeme.Like (c : Char) (cs : List Char) (x y : Lexeme) : Prop where
  kind_eq : x.kind = y.kind
  more_eq : x.more = y.more
  code_eq : x.code = y.code
  text_eq : x.note.text = y.note.text
  closing_eq : x.closing = y.closing
  following_eq : x.following = y.following
  opening : x.opening = y.opening ∨
    y = Lexing.operator c cs ∧ (c = '\x7b' ∨ c = '(' ∨ c = ')') ∧
      ∃ e, x.opening = [e] ∧ (e = .pop ∨ e = .push .expression "" ∨ e = .push .addressing "")
  gap : x.gap = y.gap ∨
    y = Lexing.operator c cs ∧ c = ',' ∧ x.gap = Lexing.run Lexing.isLineBlank cs

namespace Lexing

open Lexeme

section Modes

variable {ref : Option Reference} {c : Char} {cs : List Char} {x : Lexeme}

theorem like_refl (x : Lexeme) : x.Like c cs x :=
  ⟨rfl, rfl, rfl, rfl, rfl, rfl, .inl rfl, .inl rfl⟩

theorem like_withRole (x : Lexeme) (role : OperandRole) : (x.withRole role).Like c cs x :=
  ⟨rfl, rfl, rfl, rfl, rfl, rfl, .inl rfl, .inl rfl⟩

theorem like_bracket {e : Nesting.Edit} (hc : c = '\x7b' ∨ c = '(' ∨ c = ')')
    (he : e = .pop ∨ e = .push .expression "" ∨ e = .push .addressing "") :
    ((operator c cs).after e).Like c cs (operator c cs) :=
  ⟨rfl, rfl, rfl, rfl, rfl, rfl, .inr ⟨rfl, hc, e, rfl, he⟩, .inl rfl⟩

theorem like_operandComma (hc : c = ',') : (operandComma c cs).Like c cs (operator c cs) := by
  unfold operandComma
  dsimp only
  split
  all_goals exact ⟨rfl, rfl, rfl, rfl, rfl, rfl, .inl rfl, .inr ⟨rfl, hc, rfl⟩⟩

theorem part_operand (ref : Option Reference) (c : Char) (cs : List Char) :
    ∃ y, Part ref c cs y ∧ (operand ref c cs).Like c cs y := by
  unfold operand
  split
  · next hc => exact ⟨_, .operator (by rw [hc]; decide), like_withRole _ _⟩
  split
  · next hc =>
    exact ⟨_, .operator (by rw [hc]; decide), rfl, rfl, rfl, rfl, rfl, rfl,
      .inr ⟨rfl, .inr (.inl hc), _, rfl, .inr (.inr rfl)⟩, .inl rfl⟩
  split
  · next hc => exact ⟨_, .operator (by rw [hc]; decide), like_operandComma hc⟩
  split
  · next hc => exact ⟨_, .string hc, like_refl _⟩
  next hquote =>
  split
  · next y hy => exact ⟨y, .number hy, like_withRole _ _⟩
  split
  · next hregister => exact ⟨_, .register hregister, like_refl _⟩
  split
  · next y hy => exact ⟨y, .word hy, like_withRole _ _⟩
  · exact ⟨_, .operator hquote, like_refl _⟩

theorem instructionAction_ne_emit (c : Char) (x : Lexeme) : instructionAction c ≠ .emit x := by
  unfold instructionAction
  split <;> exact Action.noConfusion

theorem modeAction_statement (hmode : mode.startsStatements = true) :
    modeAction ref mode c cs = .emit (statement ref c cs) := by
  cases mode <;> first | rfl | cases hmode

/-- Outside of strings, what is read where no statement starts is like a part of a value or of an
operand. -/
theorem modeAction_part (hmode : mode ≠ .stringLiteral) (hstarts : mode.startsStatements = false)
    (h : modeAction ref mode c cs = .emit x) : ∃ y, Part ref c cs y ∧ x.Like c cs y := by
  have hbracket : ∀ {e : Nesting.Edit}, (c = '\x7b' ∨ c = '(' ∨ c = ')') →
      (e = .pop ∨ e = .push .expression "" ∨ e = .push .addressing "") →
      Action.emit ((operator c cs).after e) = .emit x → ∃ y, Part ref c cs y ∧ x.Like c cs y := by
    intro e hc he h
    cases h
    refine ⟨_, .operator ?_, like_bracket hc he⟩
    rcases hc with rfl | rfl | rfl <;> decide
  have hvalue : Action.emit (value ref c cs) = .emit x → ∃ y, Part ref c cs y ∧ x.Like c cs y := by
    intro h
    cases h
    exact ⟨_, part_value ref c cs, like_refl _⟩
  cases mode with
  | stringLiteral => exact absurd rfl hmode
  | normal | forLoop | block | conditional => cases hstarts
  | instruction => exact absurd h (instructionAction_ne_emit c x)
  | directive =>
    rw [show modeAction ref .directive c cs = directiveAction ref c cs from rfl] at h
    unfold directiveAction at h
    split at h
    · cases h
    split at h
    · next hc => exact hbracket (.inl hc) (.inl rfl) h
    split at h
    · cases h
    split at h
    · next hc => exact hbracket (.inr (.inl hc)) (.inr (.inl rfl)) h
    · exact hvalue h
  | expression =>
    rw [show modeAction ref .expression c cs = expressionAction ref c cs from rfl] at h
    unfold expressionAction at h
    split at h
    · next hc => exact hbracket (.inr (.inr hc)) (.inl rfl) h
    split at h
    · next hc => exact hbracket (.inr (.inl hc)) (.inr (.inl rfl)) h
    · exact hvalue h
  | addressing =>
    rw [show modeAction ref .addressing c cs = addressingAction ref c cs from rfl] at h
    unfold addressingAction at h
    split at h
    · next hc => exact hbracket (.inr (.inr hc)) (.inl rfl) h
    · exact hvalue h
  | operand =>
    rw [show modeAction ref .operand c cs = operandAction ref c cs from rfl] at h
    unfold operandAction at h
    split at h
    · cases h
    split at h
    · cases h
    · cases h
      exact part_operand ref c cs

/-- **What is read outside of comments has a form.** -/
theorem modeAction_form (hmode : mode ≠ .stringLiteral) (h : modeAction ref mode c cs = .emit x) :
    ∃ y, Form ref c cs y ∧ x.Like c cs y := by
  cases hstarts : mode.startsStatements with
  | true =>
    rw [modeAction_statement hstarts] at h
    cases h
    exact ⟨_, form_statement ref c cs, like_refl _⟩
  | false =>
    obtain ⟨y, hy, hlike⟩ := modeAction_part hmode hstarts h
    exact ⟨y, .part hy, hlike⟩

end Modes

end Lexing

/-! ## Proper lexemes -/

/-- A change of the nesting that does not put a mnemonic on the stack. -/
def Nesting.Edit.isCalm : Nesting.Edit → Bool
  | .push mode _ => mode != .instruction
  | _ => true

/-- A lexeme before the characters `cs` that is a token of its own: it is not the end of the text,
its literal is its spelling, it reads along blanks only, and at most its last change of the nesting
enters a mnemonic. -/
structure Lexeme.Proper (x : Lexeme) (cs : List Char) : Prop where
  kind_ne : x.kind ≠ .endOfText
  text_eq : x.note.text = ""
  gap_blank : ∀ d ∈ (cs.drop x.more).take x.gap, Lexing.isLineBlank d = true
  opening_calm : ∀ e ∈ x.opening, e.isCalm = true
  closing_calm : ∀ e ∈ x.closing, e.isCalm = true
  following_le : x.following.length ≤ 1

theorem Lexeme.proper_plain (hk : kind ≠ .endOfText) (more : Nat) (cs : List Char) :
    (plain kind more).Proper cs :=
  ⟨hk, rfl, by simp [plain], by simp [plain], by simp [plain], by simp [plain]⟩

theorem Lexeme.Worded.proper (h : x.Worded c cs) (ds : List Char) : x.Proper ds := by
  refine ⟨fun hkind => ?_, h.text_eq, ?_, ?_, fun e he => ?_, ?_⟩
  · have hworded := h.kind
    rw [hkind] at hworded
    cases hworded
  · rw [h.gap_eq]
    simp
  · rw [h.opening_eq]
    exact fun _ he => absurd he List.not_mem_nil
  · obtain ⟨name, rfl⟩ := h.closing e he
    rfl
  · rcases h.following with hf | hf | hf
    all_goals rw [hf]
    all_goals decide

namespace Lexing

open Lexeme

variable {ref : Option Reference} {parens : Nat}

theorem ofPair?_ne_end {d : Char} (h : TokenKind.ofPair? c d = some kind) : kind ≠ .endOfText := by
  unfold TokenKind.ofPair? at h
  split at h
  all_goals cases h
  all_goals decide

theorem ofChar_ne_end (c : Char) : TokenKind.ofChar c ≠ .endOfText := by
  unfold TokenKind.ofChar
  split <;> decide

theorem proper_operator (c : Char) (cs : List Char) : (operator c cs).Proper cs := by
  unfold operator
  dsimp only
  split
  · rename_i kind hp
    split at hp
    · exact proper_plain (ofPair?_ne_end hp) 1 _
    · cases hp
  · refine ⟨ofChar_ne_end c, rfl, by simp [plain], by simp [plain], ?_, by simp [plain]⟩
    intro e he
    dsimp only at he
    split at he
    · rw [List.mem_singleton.1 he]; rfl
    · rw [List.mem_singleton.1 he]; rfl
    · cases he

theorem proper_lineComment (cs : List Char) : (lineComment cs).Proper cs := by
  refine ⟨TokenKind.noConfusion, rfl, ?_, List.forall_mem_singleton.2 rfl, ?_, Nat.zero_le 1⟩
  all_goals simp [lineComment, Lexeme.after, plain]

theorem proper_string (cs ds : List Char) : (string cs).Proper ds :=
  ⟨TokenKind.noConfusion, rfl, by simp [string, plain], List.forall_mem_singleton.2 rfl,
    List.forall_mem_singleton.2 rfl, by simp [string, plain]⟩

theorem Form.proper (h : Form ref c cs x) : x.Proper cs := by
  rcases h.cases_worded with ⟨-, rfl⟩ | ⟨-, rfl⟩ | hworded
  · exact proper_string cs cs
  · exact proper_operator c cs
  · exact hworded.proper cs

/-- Brackets change the nesting as they may, and the blanks behind a comma are the only ones that
are read along. -/
theorem proper_of_like {y : Lexeme} (hy : y.Proper cs) (h : x.Like c cs y) : x.Proper cs := by
  refine ⟨h.kind_eq ▸ hy.kind_ne, h.text_eq.trans hy.text_eq, ?_, ?_, ?_, ?_⟩
  · rcases h.gap with hgap | ⟨rfl, rfl, hgap⟩
    · rw [hgap, h.more_eq]
      exact hy.gap_blank
    · have hmore : (operator ',' cs).more = 0 := by
        unfold operator
        cases cs <;> rfl
      have htake : cs.take (run isLineBlank cs) = cs.takeWhile isLineBlank :=
        (List.prefix_iff_eq_take.1 (List.takeWhile_prefix _)).symm
      rw [h.more_eq, hmore, hgap, List.drop_zero, htake]
      exact fun d hd => List.mem_takeWhile_imp hd
  · rcases h.opening with hopening | ⟨-, -, e, hopening, rfl | rfl | rfl⟩
    · rw [hopening]
      exact hy.opening_calm
    all_goals rw [hopening]
    all_goals exact List.forall_mem_singleton.2 rfl
  · rw [h.closing_eq]
    exact hy.closing_calm
  · rw [h.following_eq]
    exact hy.following_le

theorem modeAction_proper (h : modeAction ref mode c cs = .emit x) : x.Proper cs := by
  by_cases hmode : mode = .stringLiteral
  · subst hmode
    cases h
    exact proper_string cs cs
  · obtain ⟨y, hform, hlike⟩ := modeAction_form hmode h
    exact proper_of_like hform.proper hlike

/-- What the characters ahead are read as: a comment, or what the mode makes of them. -/
theorem actionAt_cases (ref : Option Reference) (mode : Mode) (parens : Nat) (c : Char)
    (cs : List Char) :
    actionAt ref mode parens c cs = .emit (lineComment cs) ∨
      (∃ rest, actionAt ref mode parens c cs = .emit (blockComment rest)) ∨
      actionAt ref mode parens c cs = modeAction ref mode c cs := by
  unfold actionAt
  split
  · exact .inl rfl
  · exact .inr (.inl ⟨_, rfl⟩)
  · split
    · exact .inl rfl
    · exact .inr (.inr rfl)

/-- **Whatever is read is proper.** -/
theorem actionAt_proper (h : actionAt ref mode parens c cs = .emit x) : x.Proper cs := by
  rcases actionAt_cases ref mode parens c cs with ha | ⟨rest, ha⟩ | ha
  · rw [ha] at h
    cases h
    exact proper_lineComment cs
  · rw [ha] at h
    cases h
    exact proper_plain (by decide) _ cs
  · rw [ha] at h
    exact modeAction_proper h

/-- Right after a mnemonic only comments are read, and they change the nesting as the end of a line
does, or not at all. -/
theorem actionAt_instruction (h : actionAt ref .instruction parens c cs = .emit x) :
    (x.opening = [.endLine] ∨ x.opening = []) ∧ x.closing = [] ∧ x.following = [] := by
  rcases actionAt_cases ref .instruction parens c cs with ha | ⟨rest, ha⟩ | ha
  · rw [ha] at h
    cases h
    exact ⟨.inl rfl, rfl, rfl⟩
  · rw [ha] at h
    cases h
    exact ⟨.inr rfl, rfl, rfl⟩
  · rw [ha] at h
    exact absurd h (instructionAction_ne_emit c x)

/-- What a mode can do: read a token, read a line feed, be left, or begin an operand. -/
theorem modeAction_cases (ref : Option Reference) (mode : Mode) (c : Char) (cs : List Char) :
    (∃ x, modeAction ref mode c cs = .emit x) ∨
      (modeAction ref mode c cs = .newline ∧ c = '\n') ∨
      (modeAction ref mode c cs = .leave ∧ (mode = .directive ∨ mode = .operand)) ∨
      (modeAction ref mode c cs = .operand ∧ mode = .instruction) := by
  cases mode with
  | directive =>
    rw [show modeAction ref .directive c cs = directiveAction ref c cs from rfl]
    unfold directiveAction
    split
    · rename_i hc
      exact .inr (.inl ⟨rfl, hc⟩)
    split
    · exact .inl ⟨_, rfl⟩
    split
    · exact .inr (.inr (.inl ⟨rfl, .inl rfl⟩))
    split <;> exact .inl ⟨_, rfl⟩
  | operand =>
    rw [show modeAction ref .operand c cs = operandAction ref c cs from rfl]
    unfold operandAction
    split
    · rename_i hc
      exact .inr (.inl ⟨rfl, hc⟩)
    split
    · exact .inr (.inr (.inl ⟨rfl, .inr rfl⟩))
    · exact .inl ⟨_, rfl⟩
  | instruction =>
    rw [show modeAction ref .instruction c cs = instructionAction c from rfl]
    unfold instructionAction
    split
    · rename_i hc
      exact .inr (.inl ⟨rfl, hc⟩)
    · exact .inr (.inr (.inr ⟨rfl, rfl⟩))
  | expression =>
    rw [show modeAction ref .expression c cs = expressionAction ref c cs from rfl]
    unfold expressionAction
    split
    · exact .inl ⟨_, rfl⟩
    split <;> exact .inl ⟨_, rfl⟩
  | addressing =>
    rw [show modeAction ref .addressing c cs = addressingAction ref c cs from rfl]
    unfold addressingAction
    split <;> exact .inl ⟨_, rfl⟩
  | normal | forLoop | block | conditional | stringLiteral => exact .inl ⟨_, rfl⟩

/-- The same with comments: what is not read as a token is a line feed, or changes the mode. -/
theorem actionAt_quiet :
    (actionAt ref mode parens c cs = .newline → c = '\n') ∧
      (actionAt ref mode parens c cs = .leave → mode = .directive ∨ mode = .operand) ∧
      (actionAt ref mode parens c cs = .operand → mode = .instruction) := by
  rcases actionAt_cases ref mode parens c cs with ha | ⟨rest, ha⟩ | ha
  · rw [ha]
    exact ⟨Action.noConfusion, Action.noConfusion, Action.noConfusion⟩
  · rw [ha]
    exact ⟨Action.noConfusion, Action.noConfusion, Action.noConfusion⟩
  · rw [ha]
    rcases modeAction_cases ref mode c cs with ⟨x, hm⟩ | ⟨hm, hc⟩ | ⟨hm, hc⟩ | ⟨hm, hc⟩
    · rw [hm]
      exact ⟨Action.noConfusion, Action.noConfusion, Action.noConfusion⟩
    · rw [hm]
      exact ⟨fun _ => hc, Action.noConfusion, Action.noConfusion⟩
    · rw [hm]
      exact ⟨Action.noConfusion, fun _ => hc, Action.noConfusion⟩
    · rw [hm]
      exact ⟨Action.noConfusion, Action.noConfusion, fun _ => hc⟩

end Lexing

end Asm6510
