import Asm6510.Proofs.Grammar.Statements
import Asm6510.Proofs.Token.Progress
import Mathlib

/-!
# The tokens that are parsed

* `Parsed.stream`: the tokens of a text without its comments, which the grammar reads.

The stream ends in its only end of the text (`parse_endsOnce`), its places increase
(`parse_increasing`) and are places of the text (`parse_place`), the statements of the program
account for all of it (`parse_items`), and they are made of its tokens (`parse_from`,
`parse_nodes`).
-/

namespace Asm6510

open Grammar

/-- The tokens that the grammar reads: all but the comments. -/
def Parsed.stream (p : Parsed) : List Token :=
  p.tokens.filter fun t => !t.kind.isComment

/-! ## The tokens of a text -/

theorem tokenize_endsOnce (ref : Option Reference) (limit : Int) (text : String) :
    EndsOnce (tokenize ref limit text).1 := by
  have hl : (Lexer.ofText limit text).nesting.Orderly := Nesting.orderly_ofLimit limit
  obtain ⟨ts, last, hts, hlast, hbefore, -, -⟩ := Lexer.run_complete ref hl
  exact ⟨ts, last, hts, hlast, hbefore⟩

theorem tokenize_laid (ref : Option Reference) (limit : Int) (text : String) :
    ∃ left, Laid [] text.toList (tokenize ref limit text).1 left := by
  have hl : (Lexer.ofText limit text).nesting.Orderly := Nesting.orderly_ofLimit limit
  obtain ⟨ts, last, -, -, -, -, hsession⟩ := Lexer.run_complete ref hl
  have hlaid : Laid [] ([] ++ text.toList) (tokenize ref limit text).1 _ ∧ _ :=
    Lexer.session?_laid_from (by simp) rfl hsession
  exact ⟨_, hlaid.1⟩

/-- A token stands behind some of the characters of the text. -/
theorem Laid.place_behind {before ahead left : List Char} {ts : List Token}
    (h : Laid before ahead ts left) :
    ∀ t ∈ ts, ∃ read, read <+: before ++ ahead ∧ t.place = Place.behind read := by
  induction ts generalizing before ahead with
  | nil => exact fun t ht => absurd ht List.not_mem_nil
  | cons t ts ih =>
    obtain ⟨gap, behind, _, hahead, hplace, _, _, hts⟩ := h
    intro u hu
    rcases List.mem_cons.1 hu with rfl | hu
    · exact ⟨before ++ gap, ⟨_, by rw [hahead, List.append_assoc]⟩, hplace⟩
    · obtain ⟨read, hread, hu⟩ := ih hts u hu
      refine ⟨read, ?_, hu⟩
      rw [hahead]
      simpa [List.append_assoc] using hread

theorem Lexer.length_of_session {ref : Option Reference} {l l' : Lexer} {ts : List Token} {n : Nat}
    (h : l.session? ref (List.replicate n .next) = some (ts, l')) : ts.length = n := by
  induction n generalizing l ts with
  | zero =>
    cases h
    rfl
  | succ n ih =>
    obtain ⟨us, m, vs, hcall, hmore, rfl⟩ := session?_cons h
    obtain ⟨r, -, hr⟩ := Option.map_eq_some_iff.1 hcall
    cases hr
    rw [List.length_append, ih hmore]
    exact Nat.add_comm 1 n

/-- Readings up to the only end of the text give its tokens. -/
theorem Lexer.run_of_session {ref : Option Reference} {l l' : Lexer} {ts : List Token} (n : Nat)
    (h : l.session? ref (List.replicate n .next) = some (ts, l')) (he : EndsOnce ts) :
    l.run ref = (ts, l') := by
  obtain rfl := length_of_session h
  induction ts generalizing l with
  | nil => exact absurd he (by decide)
  | cons t ts ih =>
    rw [List.length_cons, List.replicate_succ] at h
    obtain ⟨us, m, vs, hcall, hmore, hts⟩ := session?_cons h
    obtain ⟨⟨u, m'⟩, hnext, hcall⟩ := Option.map_eq_some_iff.1 hcall
    cases hcall
    obtain ⟨rfl, rfl⟩ : t = u ∧ ts = vs := by simpa using hts
    rw [run]
    split
    · rename_i hnone
      rw [hnone] at hnext
      cases hnext
    · rename_i hsome
      rw [hsome] at hnext
      cases hnext
      cases ts with
      | nil =>
        rw [dif_pos (he.kind_eq_iff.2 rfl)]
        cases hmore
        rfl
      | cons v vs =>
        have hne : t.kind ≠ .endOfText := fun hk => List.cons_ne_nil v vs (he.kind_eq_iff.1 hk)
        rw [dif_neg hne, ih (he.suffix (List.suffix_cons t (v :: vs))) hmore]

/-! ## The stream of a parse -/

section Stream

variable {ref : Option Reference} {lexLimit limit : Int} {text : String} {parsed : Parsed}

/-- A text has a first token that is no comment. -/
theorem exists_stream (ref : Option Reference) (lexLimit : Int) (text : String) :
    ∃ first rest, ((tokenize ref lexLimit text).1.filter fun t => !t.kind.isComment) =
      first :: rest := by
  obtain ⟨before, last, hstream, -⟩ := (tokenize_endsOnce ref lexLimit text).filter
  refine List.exists_cons_of_ne_nil ?_
  rw [hstream]
  exact List.append_ne_nil_of_right_ne_nil _ (List.cons_ne_nil _ _)

theorem parse_of_stream {first : Token} {rest : List Token}
    (h : ((tokenize ref lexLimit text).1.filter fun t => !t.kind.isComment) = first :: rest) :
    parse ref lexLimit limit text =
      if (parseRun ⟨depthBound limit, ref⟩ (tokenize ref lexLimit text).2.nesting.overflow first
          rest).2.unbounded = true then
        .error .infiniteNumber
      else
        .ok ⟨(tokenize ref lexLimit text).1,
          ⟨first, (parseRun ⟨depthBound limit, ref⟩
            (tokenize ref lexLimit text).2.nesting.overflow first rest).1⟩,
          (parseRun ⟨depthBound limit, ref⟩
            (tokenize ref lexLimit text).2.nesting.overflow first rest).2.diagnostics⟩ := by
  unfold parse parseTokens
  dsimp only
  rw [h]

/-- What a parse gives comes from a run over the stream in which every number was in range. -/
theorem parse_ok (h : parse ref lexLimit limit text = .ok parsed) :
    ∃ first rest,
      ((tokenize ref lexLimit text).1.filter fun t => !t.kind.isComment) = first :: rest ∧
      (parseRun ⟨depthBound limit, ref⟩ (tokenize ref lexLimit text).2.nesting.overflow first
        rest).2.unbounded = false ∧
      parsed = ⟨(tokenize ref lexLimit text).1,
        ⟨first, (parseRun ⟨depthBound limit, ref⟩
          (tokenize ref lexLimit text).2.nesting.overflow first rest).1⟩,
        (parseRun ⟨depthBound limit, ref⟩
          (tokenize ref lexLimit text).2.nesting.overflow first rest).2.diagnostics⟩ := by
  obtain ⟨first, rest, hstream⟩ := exists_stream ref lexLimit text
  rw [parse_of_stream hstream] at h
  split at h
  · cases h
  · rename_i hbounded
    cases h
    exact ⟨first, rest, hstream, Bool.eq_false_iff.2 hbounded, rfl⟩

theorem parse_tokens (h : parse ref lexLimit limit text = .ok parsed) :
    parsed.tokens = (tokenize ref lexLimit text).1 := by
  obtain ⟨first, rest, -, -, rfl⟩ := parse_ok h
  rfl

theorem parse_endsOnce (h : parse ref lexLimit limit text = .ok parsed) :
    EndsOnce parsed.stream := by
  rw [Parsed.stream, parse_tokens h]
  exact (tokenize_endsOnce ref lexLimit text).filter

theorem parse_increasing (h : parse ref lexLimit limit text = .ok parsed) :
    parsed.stream.Pairwise fun t u => t.place.before u.place = true := by
  obtain ⟨left, hlaid⟩ := tokenize_laid ref lexLimit text
  obtain ⟨before, last, htokens, -, hbefore⟩ := tokenize_endsOnce ref lexLimit text
  have hfollows := hlaid.pairwise
  rw [Parsed.stream, parse_tokens h]
  refine List.Pairwise.filter _ ?_
  rw [htokens, List.pairwise_append] at hfollows ⊢
  obtain ⟨hfront, -, hlast⟩ := hfollows
  refine ⟨?_, List.pairwise_singleton _ _, fun t ht u hu => ?_⟩
  · exact hfront.imp_of_mem fun ht _ hfollow => hfollow.1 (hbefore _ ht)
  · exact (hlast t ht u hu).1 (hbefore t ht)

theorem parse_nodup (h : parse ref lexLimit limit text = .ok parsed) : parsed.stream.Nodup := by
  refine (parse_increasing h).imp fun hbefore heq => ?_
  rw [heq, Place.before_iff] at hbefore
  omega

theorem parse_place (h : parse ref lexLimit limit text = .ok parsed) {t : Token}
    (ht : t ∈ parsed.stream) :
    1 ≤ t.place.line ∧ t.place.line ≤ text.toList.count '\n' + 1 ∧ 1 ≤ t.place.column := by
  rw [Parsed.stream, parse_tokens h] at ht
  obtain ⟨left, hlaid⟩ := tokenize_laid ref lexLimit text
  obtain ⟨read, hread, hplace⟩ := hlaid.place_behind t (List.mem_filter.1 ht).1
  have hcount : read.count '\n' ≤ text.toList.count '\n' := hread.sublist.count_le _
  rw [hplace, Place.behind]
  dsimp only
  omega

/-- The statements of a program account for the whole stream. -/
theorem parse_items (h : parse ref lexLimit limit text = .ok parsed) :
    ∃ overflow last, last.kind = .endOfText ∧
      Items ⟨parsed.stream, overflow⟩ parsed.diagnostics endsText parsed.program.statements
        parsed.stream [last] := by
  have hends := parse_endsOnce h
  obtain ⟨first, rest, hstream, -, rfl⟩ := parse_ok h
  rw [Parsed.stream, hstream] at hends ⊢
  obtain ⟨last, hlast, hitems⟩ := parseRun_items ⟨depthBound limit, ref⟩ hends
  exact ⟨_, last, hlast, hitems⟩

/-- The program is made of tokens of the stream. -/
theorem parse_from (h : parse ref lexLimit limit text = .ok parsed) :
    ∀ s ∈ parsed.program.statements, s.AllFrom parsed.stream := by
  obtain ⟨first, rest, hstream, -, rfl⟩ := parse_ok h
  rw [Parsed.stream, hstream]
  let src : Source := ⟨first :: rest, (tokenize ref lexLimit text).2.nesting.overflow⟩
  have hstart : (State.start first rest).Within src := List.suffix_rfl
  exact (along_program ⟨depthBound limit, ref⟩ src _ hstart).2

theorem parse_nodes (h : parse ref lexLimit limit text = .ok parsed) :
    ∀ n ∈ (Node.program parsed.program).preorder, n.From parsed.stream :=
  Node.From.preorder (n := .program parsed.program) (parse_from h)

theorem tokenize_of_session {tokens : List Token} {overflow : Option Place} (n : Nat)
    (h : ((Lexer.ofText lexLimit text).session? ref (List.replicate n .next)).map
      (fun r => (r.1, r.2.nesting.overflow)) = some (tokens, overflow)) (he : EndsOnce tokens) :
    (tokenize ref lexLimit text).1 = tokens ∧
      (tokenize ref lexLimit text).2.nesting.overflow = overflow := by
  obtain ⟨⟨ts, l⟩, hsession, hts⟩ := Option.map_eq_some_iff.1 h
  cases hts
  rw [tokenize, Lexer.run_of_session n hsession he]
  exact ⟨rfl, rfl⟩

theorem parse_of_session {tokens : List Token} {overflow : Option Place} (n : Nat)
    (h : ((Lexer.ofText lexLimit text).session? ref (List.replicate n .next)).map
      (fun r => (r.1, r.2.nesting.overflow)) = some (tokens, overflow)) (he : EndsOnce tokens) :
    parse ref lexLimit limit text = parseTokens ref limit overflow tokens := by
  obtain ⟨htokens, hoverflow⟩ := tokenize_of_session n h he
  rw [← htokens, ← hoverflow, parse]

/-- What is computed from the result of a parse holds of a program. -/
theorem exists_parsed {r : Except ParseFault Parsed} {P : Parsed → Prop} [DecidablePred P]
    (h : r.toOption.any (fun p => decide (P p)) = true) : ∃ parsed, r = .ok parsed ∧ P parsed := by
  cases r with
  | error e => cases h
  | ok parsed => exact ⟨parsed, rfl, of_decide_eq_true h⟩

/-- What is computed from the first `n` tokens of a text holds of its program, if the last of them
is the end of the text. -/
theorem exists_parsed_of_session {tokens : List Token} {overflow : Option Place}
    {P : Parsed → Prop} [DecidablePred P] (n : Nat)
    (h : ((Lexer.ofText lexLimit text).session? ref (List.replicate n .next)).map
      (fun r => (r.1, r.2.nesting.overflow)) = some (tokens, overflow)) (he : EndsOnce tokens)
    (hp : (parseTokens ref limit overflow tokens).toOption.any (fun p => decide (P p)) = true) :
    ∃ parsed, parse ref lexLimit limit text = .ok parsed ∧ P parsed := by
  rw [parse_of_session n h he]
  exact exists_parsed hp

end Stream

/-! ## A text with its tokens -/

/-- A token in a context, with nothing noted about it. -/
def tokenIn (mode : Mode) (word : String) (depth : Nat) (kind : TokenKind) (literal : String)
    (line column : Nat) : Token :=
  ⟨kind, literal, ⟨line, column⟩, ⟨mode, word, depth⟩, Note.none⟩

/-- A directive that no reference knows. -/
def directiveToken (word : String) (depth line column : Nat) : Token :=
  { tokenIn .directive word depth (.directive .preprocessor) word line column with
    note := { Note.none with directive := word } }

/-- A macro with a parameter and a label, in a namespace. -/
def nestedText : String :=
  ".namespace n\x7b.macro m(p)\x7ba:\x7d\x7d"

end Asm6510
