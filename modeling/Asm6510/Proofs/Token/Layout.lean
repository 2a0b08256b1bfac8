import Asm6510.Proofs.Token.Lexeme
import Asm6510.Token.Lexer
import Mathlib

/-!
# Tokens in their text

Reading loses nothing: the tokens lie in their text one behind the other with blanks between them,
and every token knows its line and column.

* `Place.behind`: line and column counted in the text itself.
* `Lexer.Reads`: what one reading takes from the text.
* `Lexer.Call`, `Lexer.session?`: readings mixed with changes of the nesting from outside.
* `Laid`: the tokens of a text in their places.

Main statement: `session?_laid`, whatever the calls are, the tokens that they give are laid out in
the text, and their places increase.
-/

namespace Asm6510

variable {l l' : Lexer} {ts : List Token} {ref : Option Reference} {before cs left : List Char}
  {c : Char} {t : Token}

namespace Place

/-! ## Places -/

/-- The place behind the first characters of a text: a line for each line feed among them, and a
column for each character behind the last line feed. -/
def behind (cs : List Char) : Place :=
  ⟨1 + cs.count '\n', 1 + (cs.reverse.takeWhile (· != '\n')).length⟩

theorem next_behind (cs : List Char) (c : Char) : (behind cs).next c = behind (cs ++ [c]) := by
  unfold next
  split
  · rename_i hc
    subst hc
    simp [behind, Nat.add_assoc]
  · rename_i hc
    have hb : (c != '\n') = true := by simpa using hc
    simp [behind, hc, hb, Nat.add_comm]

/-- Keeping line and column current character by character counts them. -/
theorem start_after (cs : List Char) : start.after cs = behind cs := by
  induction cs using List.reverseRecOn with
  | nil => rfl
  | append_singleton cs c ih =>
    rw [after_append, ih]
    exact next_behind cs c

theorem before_iff {p q : Place} :
    p.before q = true ↔ p.line < q.line ∨ p.line = q.line ∧ p.column < q.column := by
  simp [before]

theorem before_trans {p q r : Place} (hpq : p.before q = true) (hqr : q.before r = true) :
    p.before r = true := by
  rw [before_iff] at *
  omega

theorem before_next (p : Place) (c : Char) : p.before (p.next c) = true := by
  rw [before_iff]
  unfold next
  split
  · exact .inl (Nat.lt_succ_self _)
  · exact .inr ⟨rfl, Nat.lt_succ_self _⟩

theorem before_after (p : Place) (h : cs ≠ []) : p.before (p.after cs) = true := by
  induction cs generalizing p with
  | nil => exact absurd rfl h
  | cons c cs ih =>
    rw [after_cons]
    cases cs with
    | nil => exact before_next p c
    | cons d ds => exact before_trans (before_next p c) (ih (p.next c) (List.cons_ne_nil d ds))

theorem after_line (p : Place) (h : '\n' ∉ cs) : p.after cs = ⟨p.line, p.column + cs.length⟩ := by
  induction cs generalizing p with
  | nil => rfl
  | cons c cs ih =>
    obtain ⟨hc, hcs⟩ := not_or.1 (mt List.mem_cons.2 h)
    rw [after_cons, ih _ hcs, next, if_neg (Ne.symm hc), List.length_cons]
    dsimp only
    rw [Nat.add_assoc, Nat.add_comm 1]

end Place

/-! ## One reading -/

/-- The characters that stand between tokens. -/
def Lexing.isWhite (c : Char) : Bool :=
  c == ' ' || c == '\t' || c == '\r' || c == '\n'

theorem Lexing.isWhite_of_isLineBlank (h : isLineBlank c = true) : isWhite c = true := by
  simp only [isLineBlank] at h
  simp only [isWhite, h, Bool.true_or]

theorem Lexing.isWhite_of_isSkipped {mode : Mode} (h : isSkipped mode c = true) :
    isWhite c = true := by
  simp only [isSkipped, Bool.or_eq_true, Bool.and_eq_true] at h
  rcases h with h | ⟨h, _⟩
  · exact isWhite_of_isLineBlank h
  · simp only [isWhite, h, Bool.or_true]

namespace Lexer

open Lexing

/-- A token read by `l` behind the blanks `gap`, with the blanks `tail` read along behind it. -/
structure Reads (l : Lexer) (gap : List Char) (t : Token) (tail : List Char) (l' : Lexer) :
    Prop where
  gap_white : ∀ c ∈ gap, isWhite c = true
  tail_white : ∀ c ∈ tail, isWhite c = true
  rest_eq : l.rest = gap ++ (t.spelling.toList ++ (tail ++ l'.rest))
  token_place : t.place = l.place.after gap
  place_eq : l'.place = l.place.after (gap ++ (t.spelling.toList ++ tail))
  spelling_eq : t.kind = .endOfText ↔ t.spelling = ""
  rest_end : t.kind = .endOfText → tail ++ l'.rest = []

/-- Blanks before a reading belong to its gap. -/
theorem Reads.behind {m : Lexer} {skipped gap tail : List Char} (h : m.Reads gap t tail l')
    (hs : ∀ c ∈ skipped, isWhite c = true) (hrest : l.rest = skipped ++ m.rest)
    (hplace : m.place = l.place.after skipped) : l.Reads (skipped ++ gap) t tail l' := by
  refine ⟨?_, h.tail_white, ?_, ?_, ?_, h.spelling_eq, h.rest_end⟩
  · intro c hc
    rcases List.mem_append.1 hc with hc | hc
    · exact hs c hc
    · exact h.gap_white c hc
  · rw [hrest, h.rest_eq, List.append_assoc]
  · rw [h.token_place, hplace, Place.after_append]
  · rw [h.place_eq, hplace, List.append_assoc, ← Place.after_append]

/-- The blanks that are skipped before a reading. -/
def skipped (l : Lexer) : List Char :=
  l.rest.takeWhile (isSkipped l.nesting.top.mode)

theorem skipped_white (l : Lexer) : ∀ c ∈ l.skipped, isWhite c = true :=
  fun _ hc => isWhite_of_isSkipped (List.mem_takeWhile_imp hc)

theorem skipped_append (l : Lexer) : l.rest = l.skipped ++ l.skipBlanks.rest :=
  List.takeWhile_append_dropWhile.symm

theorem emit_spelling (l : Lexer) (c : Char) (cs : List Char) {x : Lexeme} (hx : x.Proper cs) :
    (l.emit c cs x).1.spelling = String.ofList (c :: cs.take x.more) := by
  unfold emit
  dsimp only
  split
  · exact if_pos hx.text_eq
  · exact if_neg (by simp)

theorem emit_kind (l : Lexer) (c : Char) (cs : List Char) (x : Lexeme) :
    (l.emit c cs x).1.kind = x.kind ∧ (l.emit c cs x).1.place = l.place := by
  unfold emit
  dsimp only
  split <;> exact ⟨rfl, rfl⟩

theorem reads_emit {x : Lexeme} (hl : l.rest = c :: cs) (hx : x.Proper cs) :
    l.Reads [] (l.emit c cs x).1 ((cs.drop x.more).take x.gap) (l.emit c cs x).2 := by
  have hspell := emit_spelling l c cs hx
  obtain ⟨hkind, hplace⟩ := emit_kind l c cs x
  refine ⟨by simp, ?_, ?_, hplace, ?_, ?_, ?_⟩
  · exact fun d hd => isWhite_of_isLineBlank (hx.gap_blank d hd)
  · have hrest : (l.emit c cs x).2.rest = (cs.drop x.more).drop x.gap := rfl
    rw [hspell, hl, hrest, String.toList_ofList, List.take_append_drop, List.nil_append,
      List.cons_append, List.take_append_drop]
  · rw [hspell, List.nil_append, String.toList_ofList, Place.after_append]
    rfl
  · rw [hkind, hspell]
    exact ⟨fun h => absurd h hx.kind_ne, fun h => absurd h (by simp)⟩
  · rw [hkind]
    exact fun h => absurd h hx.kind_ne

/-- **What one reading takes from the text.** -/
theorem next?_reads (h : l.next? ref = some (t, l')) : ∃ gap tail, l.Reads gap t tail l' := by
  fun_induction next? ref l with
  | case1 l s hr =>
    obtain ⟨rfl, rfl⟩ := Prod.mk.inj (Option.some.inj h)
    have he : s.Reads [] s.endToken [] s :=
      ⟨by simp, by simp, by simp [endToken, Token.spelling, Note.none], rfl, rfl,
        ⟨fun _ => rfl, fun _ => rfl⟩, fun _ => hr⟩
    exact ⟨_, _, he.behind l.skipped_white l.skipped_append rfl⟩
  | case2 l s c cs hr x hx =>
    have he := reads_emit hr (actionAt_proper hx)
    rw [Option.some.inj h] at he
    exact ⟨_, _, he.behind l.skipped_white l.skipped_append rfl⟩
  | case3 l s c cs hr hx ih =>
    obtain ⟨gap, tail, hm⟩ := ih h
    -- the line feed that ends the mode stands between the tokens as well
    have hc : c = '\n' := actionAt_quiet.1 hx
    have hs : s.Reads ([c] ++ gap) t tail l' := hm.behind (by simp [hc, isWhite]) hr rfl
    exact ⟨_, _, hs.behind l.skipped_white l.skipped_append rfl⟩
  | case4 l s c cs hr hx hp ih =>
    obtain ⟨gap, tail, hm⟩ := ih h
    exact ⟨_, _, hm.behind l.skipped_white l.skipped_append rfl⟩
  | case5 => cases h
  | case6 l s c cs hr hx hp ih =>
    obtain ⟨gap, tail, hm⟩ := ih h
    exact ⟨_, _, hm.behind l.skipped_white l.skipped_append rfl⟩
  | case7 => cases h

/-! ## Sessions -/

/-- A call on a lexer. -/
inductive Call
  | next
  | push (mode : Mode) (directive : String)
  | pop
deriving DecidableEq, Repr

/-- Carries out a call: the token that it gives, if it is a reading, and the state behind it. There
is nothing where the reading does not return. -/
def call? (ref : Option Reference) (l : Lexer) : Call → Option (List Token × Lexer)
  | .next => (l.next? ref).map fun r => ([r.1], r.2)
  | .push mode directive => some ([], (l.push mode directive).2)
  | .pop => some ([], l.pop)

/-- Carries out calls one after another: all tokens that they give, and the state at the end. -/
def session? (ref : Option Reference) (l : Lexer) : List Call → Option (List Token × Lexer)
  | [] => some ([], l)
  | call :: calls =>
    match l.call? ref call with
    | none => none
    | some (ts, l') => (l'.session? ref calls).map fun r => (ts ++ r.1, r.2)

theorem session?_cons {call : Call} {calls : List Call}
    (h : l.session? ref (call :: calls) = some (ts, l')) :
    ∃ us m vs, l.call? ref call = some (us, m) ∧ m.session? ref calls = some (vs, l') ∧
      ts = us ++ vs := by
  unfold session? at h
  split at h
  · cases h
  · rename_i us m hm
    obtain ⟨⟨vs, l''⟩, hv, he⟩ := Option.map_eq_some_iff.1 h
    cases he
    exact ⟨us, m, vs, hm, hv, rfl⟩

/-- A call reads a token, or leaves the text alone. -/
theorem call?_cases {m : Lexer} {call : Call} {us : List Token}
    (h : l.call? ref call = some (us, m)) :
    (∃ t, l.next? ref = some (t, m) ∧ us = [t]) ∨
      us = [] ∧ m.rest = l.rest ∧ m.place = l.place := by
  cases call with
  | next =>
    obtain ⟨⟨t, l'⟩, ht, he⟩ := Option.map_eq_some_iff.1 h
    cases he
    exact .inl ⟨t, ht, rfl⟩
  | push mode directive =>
    cases h
    exact .inr ⟨rfl, rfl, rfl⟩
  | pop =>
    cases h
    exact .inr ⟨rfl, rfl, rfl⟩

end Lexer

/-! ## Layout -/

/-- Tokens lie in the characters `ahead`, which stand behind the characters `before` of a text, and
leave the characters `left`. Blanks stand before each token and before what is left; a token is
spelled by the characters at its place. Only the end of the text has no characters, and it stands
behind all of them. -/
def Laid (before ahead : List Char) : List Token → (left : List Char) → Prop
  | [], left => ∃ gap, (∀ c ∈ gap, Lexing.isWhite c = true) ∧ ahead = gap ++ left
  | t :: ts, left => ∃ gap behind,
      (∀ c ∈ gap, Lexing.isWhite c = true) ∧
      ahead = gap ++ (t.spelling.toList ++ behind) ∧
      t.place = Place.behind (before ++ gap) ∧
      (t.kind = .endOfText ↔ t.spelling = "") ∧
      (t.kind = .endOfText → behind = []) ∧
      Laid (before ++ gap ++ t.spelling.toList) behind ts left

/-- Two tokens in order: the second stands behind the first, or both are the end of the text. -/
def Token.Follows (t u : Token) : Prop :=
  (t.kind ≠ .endOfText → t.place.before u.place = true) ∧
    (t.kind = .endOfText → u.kind = .endOfText ∧ u.place = t.place)

theorem Place.behind_append (xs ys : List Char) : behind (xs ++ ys) = (behind xs).after ys := by
  rw [← start_after, ← start_after, after_append]

theorem Laid.place_after {ahead : List Char} (h : Laid before ahead ts left) :
    ∀ u ∈ ts, ∃ cs, u.place = (Place.behind before).after cs := by
  induction ts generalizing before ahead with
  | nil => exact fun u hu => absurd hu List.not_mem_nil
  | cons t ts ih =>
    obtain ⟨gap, rest, _, _, hplace, _, _, hts⟩ := h
    intro u hu
    rcases List.mem_cons.1 hu with rfl | hu
    · exact ⟨gap, by rw [hplace, Place.behind_append]⟩
    · obtain ⟨cs, hcs⟩ := ih hts u hu
      rw [Place.behind_append, Place.behind_append, ← Place.after_append,
        ← Place.after_append] at hcs
      exact ⟨_, hcs⟩

theorem Laid.ended (h : Laid before [] ts left) :
    ∀ u ∈ ts, u.kind = .endOfText ∧ u.place = Place.behind before := by
  induction ts generalizing before with
  | nil => exact fun u hu => absurd hu List.not_mem_nil
  | cons t ts ih =>
    obtain ⟨gap, rest, _, hahead, hplace, hend, _, hts⟩ := h
    obtain ⟨rfl, hrest⟩ := List.append_eq_nil_iff.1 hahead.symm
    obtain ⟨hspell, rfl⟩ := List.append_eq_nil_iff.1 hrest
    rw [hspell, List.append_nil, List.append_nil] at hts
    rw [List.append_nil] at hplace
    intro u hu
    rcases List.mem_cons.1 hu with rfl | hu
    · exact ⟨hend.2 (String.toList_eq_nil_iff.1 hspell), hplace⟩
    · exact ih hts u hu

theorem Laid.pairwise {ahead : List Char} (h : Laid before ahead ts left) :
    ts.Pairwise Token.Follows := by
  induction ts generalizing before ahead with
  | nil => exact List.Pairwise.nil
  | cons t ts ih =>
    obtain ⟨gap, rest, _, _, hplace, hend, hlast, hts⟩ := h
    refine List.Pairwise.cons ?_ (ih hts)
    intro u hu
    refine ⟨?_, ?_⟩
    · intro hk
      have hspell : t.spelling.toList ≠ [] := fun he => hk (hend.2 (String.toList_eq_nil_iff.1 he))
      obtain ⟨cs, hcs⟩ := hts.place_after u hu
      rw [hcs, Place.behind_append _ t.spelling.toList, ← hplace, ← Place.after_append]
      exact t.place.before_after (List.append_ne_nil_of_left_ne_nil hspell cs)
    · intro hk
      rw [hlast hk, hend.1 hk] at hts
      obtain ⟨hu1, hu2⟩ := hts.ended u hu
      exact ⟨hu1, by rw [hu2, hplace]; simp⟩

/-- Of two tokens in a list, one is related to the other if each one is to those behind it. -/
theorem rel_or_rel_of_pairwise {R : Token → Token → Prop} (h : ts.Pairwise R) {u : Token}
    (ht : t ∈ ts) (hu : u ∈ ts) (hne : t ≠ u) : R t u ∨ R u t := by
  have hsymm : Std.Symm fun t u => R t u ∨ R u t := ⟨fun _ _ h => h.symm⟩
  have hor : ts.Pairwise fun t u => R t u ∨ R u t := h.imp Or.inl
  exact hor.forall ht hu hne

namespace Lexer

/-- What a session reads, from any state: `before` is what stands before the blanks `tail` that the
last reading took along. -/
theorem session?_laid_from {calls : List Call} {tail : List Char}
    (htail : ∀ c ∈ tail, Lexing.isWhite c = true) (hplace : l.place = Place.behind (before ++ tail))
    (h : l.session? ref calls = some (ts, l')) :
    Laid before (tail ++ l.rest) ts l'.rest ∧
      ∃ read, before ++ (tail ++ l.rest) = read ++ l'.rest ∧ l'.place = Place.behind read := by
  induction calls generalizing l ts before tail with
  | nil =>
    cases h
    exact ⟨⟨tail, htail, rfl⟩, before ++ tail, by rw [List.append_assoc], hplace⟩
  | cons call calls ih =>
    obtain ⟨us, m, vs, hm, hvs, rfl⟩ := session?_cons h
    rcases call?_cases hm with ⟨t, ht, rfl⟩ | ⟨rfl, hrest, hp⟩
    · obtain ⟨gap, more, hr⟩ := next?_reads ht
      have hmplace :
          m.place = Place.behind (before ++ (tail ++ gap) ++ t.spelling.toList ++ more) := by
        rw [hr.place_eq, hplace, ← Place.behind_append]
        simp only [List.append_assoc]
      obtain ⟨hlaid, read, hread, hl'⟩ := ih hr.tail_white hmplace hvs
      refine ⟨⟨tail ++ gap, more ++ m.rest, ?_, ?_, ?_, hr.spelling_eq, hr.rest_end, hlaid⟩, read,
        ?_, hl'⟩
      · intro c hc
        rcases List.mem_append.1 hc with hc | hc
        · exact htail c hc
        · exact hr.gap_white c hc
      · rw [hr.rest_eq, List.append_assoc]
      · rw [hr.token_place, hplace, ← Place.behind_append, List.append_assoc]
      · rw [← hread, hr.rest_eq]
        simp only [List.append_assoc]
    · rw [← hrest]
      exact ih htail (by rw [hp, hplace]) hvs

/-- **Reading loses nothing.** Whatever calls are made on the lexer of a text, the tokens that they
give lie in the text in order, each spelled by the characters at its line and column, with only
blanks between them and before the end; what is left is unread, and the places increase. -/
theorem session?_laid {ref : Option Reference} {limit : Int} {text : String} {calls : List Call}
    {ts : List Token} {l : Lexer} (h : (ofText limit text).session? ref calls = some (ts, l)) :
    Laid [] text.toList ts l.rest ∧ ts.Pairwise Token.Follows ∧
      ∃ read, text.toList = read ++ l.rest ∧ l.place = Place.behind read := by
  have hlaid : Laid [] ([] ++ text.toList) ts l.rest ∧
      ∃ read, [] ++ ([] ++ text.toList) = read ++ l.rest ∧ l.place = Place.behind read :=
    session?_laid_from (by simp) rfl h
  exact ⟨hlaid.1, hlaid.1.pairwise, hlaid.2⟩

/-- A character literal, a comma with the blank behind it, and a name on the next line, read while
the mode is changed from outside; the end of the text is read twice. -/
theorem session?_laid_mixed :
    ∃ ts l, (ofText 4 "'a' , \n b").session? none
        [.push .operand "", .next, .next, .pop, .next, .next, .next] = some (ts, l) ∧
      ts.map Token.spelling = ["'a'", ",", "b", "", ""] ∧
      Laid [] "'a' , \n b".toList ts l.rest ∧ ts.Pairwise Token.Follows := by
  have hs : ((ofText 4 "'a' , \n b").session? none
      [.push .operand "", .next, .next, .pop, .next, .next, .next]).map
        (fun r => r.1.map Token.spelling) = some ["'a'", ",", "b", "", ""] := by cbv
  obtain ⟨⟨ts, l⟩, h, hspell⟩ := Option.map_eq_some_iff.1 hs
  have hlaid := session?_laid h
  exact ⟨ts, l, h, hspell, hlaid.1, hlaid.2.1⟩

end Lexer

end Asm6510
