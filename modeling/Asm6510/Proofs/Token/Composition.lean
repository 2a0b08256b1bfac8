import Asm6510.Proofs.Grammar.Stream
import Asm6510.Proofs.Token.Lookahead
import Asm6510.Proofs.Token.Relocation
import Asm6510.Proofs.Token.Shape
import Mathlib

/-!
# Reading a text in parts

What is read before a stop does not depend on what is behind it, and where the end of a text is
read, reading goes on with whatever is put there. So a text that leaves nothing open at the end of a
line can be read apart from what follows it.

* `Lexer.next?_before`: one reading before a stop.
* `Lexer.next?_resume`: the reading that finds the end of the text, with more text there.
* `Lexer.run_append`: a run over lines, with more text behind them.

Main statement: `tokenize_append`, the tokens of two texts one behind the other.
-/

namespace Asm6510

namespace Lexer

open Lexing

variable {ref : Option Reference} {l l' : Lexer} {t : Token} {c d : Char} {w v : List Char}

/-! ## Readings before a stop -/

theorem skipBlanks_append (hw : w.dropWhile (isSkipped l.nesting.top.mode) = c :: v)
    (rest : List Char) :
    skipBlanks { l with rest := w ++ rest } =
      { l with
        rest := c :: (v ++ rest)
        place := l.place.after (w.takeWhile (isSkipped l.nesting.top.mode)) } := by
  have hlength : (w.takeWhile (isSkipped l.nesting.top.mode)).length ≠ w.length := by
    have hall : (w.takeWhile (isSkipped l.nesting.top.mode) ++ c :: v).length = w.length := by
      rw [← hw, List.takeWhile_append_dropWhile]
    simp only [List.length_append, List.length_cons] at hall
    omega
  unfold skipBlanks
  simp only [List.dropWhile_append, hw, List.takeWhile_append, hlength, List.isEmpty_cons,
    Bool.false_eq_true, ↓reduceIte, List.cons_append]

theorem emit_append {x : Lexeme} (h : x.more + x.gap ≤ v.length) (rest : List Char) :
    l.emit c (v ++ rest) x =
      ((l.emit c v x).1, { (l.emit c v x).2 with rest := (l.emit c v x).2.rest ++ rest }) := by
  have htake : (v ++ rest).take x.more = v.take x.more :=
    List.take_append_of_le_length (by omega)
  have hdrop : (v ++ rest).drop x.more = v.drop x.more ++ rest :=
    List.drop_append_of_le_length (by omega)
  have hgap : x.gap ≤ (v.drop x.more).length := by
    rw [List.length_drop]
    omega
  unfold emit
  simp only [htake, hdrop, List.take_append_of_le_length hgap, List.drop_append_of_le_length hgap]

theorem next?_length_le (h : l.next? ref = some (t, l')) : l'.rest.length ≤ l.rest.length := by
  obtain ⟨gap, tail, hreads⟩ := next?_reads h
  have hlength := congrArg List.length hreads.rest_eq
  simp only [List.length_append] at hlength
  omega

/-- A reading finds the end of the text, or takes a character behind the blanks. -/
theorem next?_shorter (h : l.next? ref = some (t, l')) :
    l'.rest = [] ∨ l'.rest.length < l.skipBlanks.rest.length := by
  fun_induction next? ref l with
  | case1 l s hr =>
    obtain ⟨-, rfl⟩ := Prod.mk.inj (Option.some.inj h)
    exact .inl hr
  | case2 l s c cs hr x hx =>
    have hlt := length_emit_lt s c cs x
    rw [Option.some.inj h, ← hr] at hlt
    exact .inr hlt
  | case3 l s c cs hr hx ih =>
    have hle := next?_length_le h
    have hcs : cs.length < s.rest.length := by simp [hr]
    exact .inr (Nat.lt_of_le_of_lt hle hcs)
  | case4 l s c cs hr hx hp ih =>
    refine (ih h).imp_right fun hlt => Nat.lt_of_lt_of_le hlt ?_
    exact length_skipBlanks_le { s with nesting := s.nesting.pop }
  | case5 => cases h
  | case6 l s c cs hr hx hp ih =>
    refine (ih h).imp_right fun hlt => Nat.lt_of_lt_of_le hlt ?_
    exact length_skipBlanks_le { s with nesting := s.operandNesting }
  | case7 => cases h

/-- A reading that leaves a character and what is behind it finds another one before it. -/
theorem exists_dropWhile_eq_cons {behind : List Char} (hrest : l.rest = w ++ d :: behind)
    (h : l.next? ref = some (t, l')) (hleft : behind.length < l'.rest.length) :
    ∃ c v, w.dropWhile (isSkipped l.nesting.top.mode) = c :: v := by
  cases hdrop : w.dropWhile (isSkipped l.nesting.top.mode) with
  | cons c v => exact ⟨c, v, rfl⟩
  | nil =>
    exfalso
    have hs : l.skipBlanks.rest = (d :: behind).dropWhile (isSkipped l.nesting.top.mode) := by
      show l.rest.dropWhile _ = _
      rw [hrest, List.dropWhile_append, hdrop]
      rfl
    have hle : l.skipBlanks.rest.length ≤ behind.length + 1 := by
      rw [hs]
      exact (List.dropWhile_suffix _).length_le
    rcases next?_shorter h with hnil | hlt
    · rw [hnil] at hleft
      exact Nat.not_lt_zero _ hleft
    · omega

/-- The two states behind the blanks, with different characters behind the stop. -/
theorem skipBlanks_before {behind : List Char} (hrest : l.rest = w ++ d :: behind)
    (hfound : ∃ c v, w.dropWhile (isSkipped l.nesting.top.mode) = c :: v) {cs : List Char}
    (hr : l.skipBlanks.rest = c :: cs) :
    ∃ v, c :: v <:+ w ∧ cs = v ++ d :: behind ∧
      ∀ other, skipBlanks { l with rest := w ++ other } =
        { l.skipBlanks with rest := c :: (v ++ other) } := by
  obtain ⟨e, v, hw⟩ := hfound
  have hs := skipBlanks_append hw (d :: behind)
  rw [← hrest] at hs
  rw [show l.skipBlanks = _ from hs] at hr
  obtain ⟨rfl, rfl⟩ := List.cons.inj hr
  refine ⟨v, hw ▸ List.dropWhile_suffix _, rfl, ?_⟩
  intro other
  rw [skipBlanks_append hw other, show l.skipBlanks = _ from hs]

/-- **A reading that ends before a stop does not depend on what is behind the stop.** -/
theorem next?_before {behind other : List Char} (hrest : l.rest = w ++ d :: behind)
    (hb : Stops w d behind) (ho : Stops w d other) (h : l.next? ref = some (t, l'))
    (hleft : behind.length < l'.rest.length) :
    ∃ v, v <:+ w ∧ l'.rest = v ++ d :: behind ∧
      next? ref { l with rest := w ++ d :: other } =
        some (t, { l' with rest := v ++ d :: other }) := by
  have hfound := exists_dropWhile_eq_cons hrest h hleft
  revert w
  fun_induction next? ref l with
  | case1 l s hr =>
    intro w hrest hb ho hfound
    obtain ⟨-, rfl⟩ := Prod.mk.inj (Option.some.inj h)
    rw [hr] at hleft
    exact absurd hleft (Nat.not_lt_zero _)
  | case2 l s e cs hr x hx =>
    intro w hrest hb ho hfound
    obtain ⟨v, hsuffix, rfl, hs⟩ := skipBlanks_before hrest hfound hr
    have hread : s.emit e (v ++ d :: behind) x = (t, l') := Option.some.inj h
    have hl' : l'.rest = ((v ++ d :: behind).drop x.more).drop x.gap := by
      rw [← show (s.emit e (v ++ d :: behind) x).2 = l' from congrArg Prod.snd hread]
      rfl
    have hsize : x.more + x.gap ≤ v.length := by
      rw [hl'] at hleft
      simp only [List.length_drop, List.length_append, List.length_cons] at hleft
      omega
    have hx' : actionAt ref s.nesting.top.mode s.parens e (v ++ d :: other) = .emit x := by
      refine actionAt_congr (hb.suffix hsuffix) (ho.suffix hsuffix) hx ?_
      intro y hy
      cases hy
      omega
    rw [emit_append hsize] at hread
    obtain ⟨rfl, rfl⟩ := Prod.mk.inj hread
    refine ⟨(s.emit e v x).2.rest, ?_, rfl, ?_⟩
    · exact ((List.drop_suffix _ _).trans (List.drop_suffix _ _)).trans
        ((List.suffix_cons e v).trans hsuffix)
    · rw [next?_emit (hs (d :: other)) rfl hx']
      exact congrArg some (emit_append hsize (d :: other))
  | case3 l s e cs hr hx ih =>
    intro w hrest hb ho hfound
    obtain ⟨v, hsuffix, rfl, hs⟩ := skipBlanks_before hrest hfound hr
    have hx' := actionAt_congr (hb.suffix hsuffix) (ho.suffix hsuffix) hx
      fun _ hy => Action.noConfusion hy
    have hv : v <:+ w := (List.suffix_cons e v).trans hsuffix
    obtain ⟨u, hu, hrest', hnext⟩ := ih h rfl (hb.suffix hv) (ho.suffix hv)
      (exists_dropWhile_eq_cons rfl h hleft)
    refine ⟨u, hu.trans hv, hrest', ?_⟩
    rw [next?_newline (hs (d :: other)) rfl hx']
    exact hnext
  | case4 l s e cs hr hx hp ih =>
    intro w hrest hb ho hfound
    obtain ⟨v, hsuffix, rfl, hs⟩ := skipBlanks_before hrest hfound hr
    have hx' := actionAt_congr (hb.suffix hsuffix) (ho.suffix hsuffix) hx
      fun _ hy => Action.noConfusion hy
    have hrest' : s.rest = e :: v ++ d :: behind := hr
    obtain ⟨u, hu, hleft', hnext⟩ := ih h hrest' (hb.suffix hsuffix) (ho.suffix hsuffix)
      (exists_dropWhile_eq_cons hrest' h hleft)
    refine ⟨u, hu.trans hsuffix, hleft', ?_⟩
    rw [next?_leave (hs (d :: other)) rfl hx' hp]
    exact hnext
  | case5 => cases h
  | case6 l s e cs hr hx hp ih =>
    intro w hrest hb ho hfound
    obtain ⟨v, hsuffix, rfl, hs⟩ := skipBlanks_before hrest hfound hr
    have hx' := actionAt_congr (hb.suffix hsuffix) (ho.suffix hsuffix) hx
      fun _ hy => Action.noConfusion hy
    have hrest' : s.rest = e :: v ++ d :: behind := hr
    obtain ⟨u, hu, hleft', hnext⟩ := ih h hrest' (hb.suffix hsuffix) (ho.suffix hsuffix)
      (exists_dropWhile_eq_cons hrest' h hleft)
    refine ⟨u, hu.trans hsuffix, hleft', ?_⟩
    rw [next?_operand (hs (d :: other)) rfl hx' hp]
    exact hnext
  | case7 => cases h

/-! ## Reading on at the end -/

/-- A reading depends only on what is behind the blanks. -/
theorem next?_eq_of_skipBlanks {m : Lexer} (h : l.skipBlanks = m.skipBlanks) :
    l.next? ref = m.next? ref := by
  cases hrest : m.skipBlanks.rest with
  | nil => rw [next?_nil h hrest, next?_nil rfl hrest]
  | cons c cs => rw [next?_cons h hrest, next?_cons rfl hrest]

theorem run_eq_of_next? {m : Lexer} (h : l.next? ref = m.next? ref) :
    (l.run ref).1 = (m.run ref).1 := by
  cases hm : m.next? ref with
  | none =>
    rw [hm] at h
    rw [run_of_none h, run_of_none hm]
  | some r =>
    rw [hm] at h
    by_cases hend : r.1.kind = .endOfText
    · rw [run_of_end h hend, run_of_end hm hend]
    · rw [run_of_token h hend, run_of_token hm hend]

theorem actionAt_newline {mode : Mode} (hmode : mode.endsAtLine = true) (parens : Nat)
    (cs : List Char) : actionAt ref mode parens '\n' cs = .newline := by
  cases mode with
  | directive | instruction | operand => rfl
  | _ => cases hmode

/-- A line feed is skipped unless the mode ends there. -/
theorem endsAtLine_of_skipBlanks {cs : List Char} (h : l.skipBlanks.rest = '\n' :: cs) :
    l.skipBlanks.nesting.top.mode.endsAtLine = true := by
  have hskip := skipBlanks_head h
  simpa [isSkipped, isLineBlank] using hskip

/-- Where the end of the text is found behind a character, that is a line feed. -/
theorem action_of_end {n : Nesting} {cs : List Char} (hr : l.skipBlanks.rest = c :: cs)
    (h : next? ref { l.skipBlanks with nesting := n } = some (t, l'))
    (ht : t.kind = .endOfText) :
    actionAt ref l.skipBlanks.nesting.top.mode l.skipBlanks.parens c cs = .newline := by
  obtain ⟨gap, tail, hreads⟩ := next?_reads h
  have hgap : l.skipBlanks.rest = gap := by
    rw [hreads.rest_eq, hreads.spelling_eq.1 ht, hreads.rest_end ht]
    simp
  have hwhite : isWhite c = true := hreads.gap_white c (by rw [← hgap, hr]; simp)
  have hskip := skipBlanks_head hr
  have hc : c = '\n' := by
    simp only [isSkipped, isLineBlank, Bool.or_eq_false_iff] at hskip
    simpa [isWhite, hskip.1] using hwhite
  subst hc
  exact actionAt_newline (endsAtLine_of_skipBlanks hr) _ cs

/-- **Where the end of the text is found, reading goes on with more text put there.** -/
theorem next?_resume (h : l.next? ref = some (t, l')) (ht : t.kind = .endOfText)
    (more : List Char) :
    next? ref { l with rest := l.rest ++ more } = next? ref { l' with rest := more } := by
  fun_induction next? ref l with
  | case1 l s hr =>
    obtain ⟨-, rfl⟩ := Prod.mk.inj (Option.some.inj h)
    have hdrop : l.rest.dropWhile (isSkipped l.nesting.top.mode) = [] := hr
    have htake : l.rest.takeWhile (isSkipped l.nesting.top.mode) = l.rest := by
      have hall := List.takeWhile_append_dropWhile (p := isSkipped l.nesting.top.mode) (l := l.rest)
      rwa [hdrop, List.append_nil] at hall
    apply next?_eq_of_skipBlanks
    simp only [skipBlanks, s, List.dropWhile_append, hdrop, List.takeWhile_append, htake,
      List.isEmpty_nil, ↓reduceIte, Place.after_append]
  | case2 l s c cs hr x hx =>
    have hkind : t.kind = x.kind := by
      rw [← (emit_kind s c cs x).1, Option.some.inj h]
    exact absurd (hkind.symm.trans ht) (actionAt_proper hx).kind_ne
  | case3 l s c cs hr hx ih =>
    obtain rfl : c = '\n' := actionAt_quiet.1 hx
    have hs : skipBlanks { l with rest := l.rest ++ more } =
        { s with rest := '\n' :: (cs ++ more) } := skipBlanks_append hr more
    rw [next?_newline hs rfl (actionAt_newline (endsAtLine_of_skipBlanks hr) _ _)]
    exact ih h
  | case4 l s c cs hr hx hp ih =>
    have hnewline := action_of_end hr h ht
    rw [hx] at hnewline
    cases hnewline
  | case5 => cases h
  | case6 l s c cs hr hx hp ih =>
    have hnewline := action_of_end hr h ht
    rw [hx] at hnewline
    cases hnewline
  | case7 => cases h

/-! ## The state at the end of a run -/

end Lexer

namespace Lexer

open Lexing

variable {ref : Option Reference} {l l' : Lexer} {t : Token}

theorem next?_limit (h : l.next? ref = some (t, l')) : l'.nesting.limit = l.nesting.limit := by
  obtain ⟨gap, m, -, hm, ⟨-, -, rfl⟩ | ⟨c, cs, x, -, -, -, hemit⟩⟩ :=
    next?_cases h (P := fun n => n.limit = l.nesting.limit)
      (fun n hn => (Nesting.pop_limit n).trans hn)
      (fun n place hn => (Nesting.push_limit n place _ _).trans hn) rfl
  · exact hm
  · rw [← show (m.emit c cs x).2 = l' from congrArg Prod.snd hemit, ← hm]
    unfold emit
    simp only [Nesting.apply_limit]

theorem run_end (ref : Option Reference) (hl : l.nesting.Orderly) :
    (l.run ref).2.rest = [] ∧ (l.run ref).2.place = l.place.after l.rest ∧
      (l.run ref).2.nesting.limit = l.nesting.limit := by
  fun_induction run ref l with
  | case1 l hnone => exact absurd hnone (next?_ne_none hl)
  | case2 l t l' hnext hend =>
    obtain ⟨gap, tail, hreads⟩ := next?_reads hnext
    have hrest := hreads.rest_eq
    have hleft := hreads.rest_end hend
    rw [hleft, List.append_nil] at hrest
    obtain ⟨rfl, hl'⟩ := List.append_eq_nil_iff.1 hleft
    refine ⟨hl', ?_, next?_limit hnext⟩
    rw [hreads.place_eq, hrest, List.append_nil]
  | case3 l t l' hnext hmore ts last hrun ih =>
    have horderly := next?_orderly hnext hl
    obtain ⟨gap, tail, hreads⟩ := next?_reads hnext
    rw [hrun] at ih
    obtain ⟨hrest, hplace, hlimit⟩ := ih horderly
    refine ⟨hrest, ?_, hlimit.trans (next?_limit hnext)⟩
    rw [hplace, hreads.place_eq, ← Place.after_append, hreads.rest_eq]
    simp only [List.append_assoc]

/-- A reading; the blanks that are read along behind its token stand in its line. -/
theorem next?_reads_line (h : l.next? ref = some (t, l')) (ht : t.kind ≠ .endOfText) :
    ∃ gap tail, l.Reads gap t tail l' ∧ ∀ c ∈ tail, isLineBlank c = true := by
  obtain ⟨gap, m, hbehind, -, ⟨-, rfl, -⟩ | ⟨c, cs, x, hrest, -, hx, hemit⟩⟩ :=
    next?_cases h (P := fun _ => True) (fun _ _ => trivial) (fun _ _ _ => trivial) trivial
  · exact absurd rfl ht
  · have hproper := actionAt_proper hx
    have hreads := reads_emit hrest hproper
    rw [hemit] at hreads
    exact ⟨_, _, hreads.behind hbehind.white hbehind.rest_eq hbehind.place_eq, hproper.gap_blank⟩

/-! ## Runs over lines -/

/-- A token that does not go on to the end of lines leaves their last line feed. -/
theorem rest_ne_nil_of_line (h : l.next? ref = some (t, l')) (ht : t.kind ≠ .endOfText)
    (hline : l.rest.getLast? = some '\n')
    (hends : t.place.after t.spelling.toList ≠ l.place.after l.rest) : l'.rest ≠ [] := by
  obtain ⟨gap, tail, hreads, htail⟩ := next?_reads_line h ht
  intro hl'
  have hrest := hreads.rest_eq
  rw [hl', List.append_nil] at hrest
  by_cases hnil : tail = []
  · apply hends
    rw [hrest, hnil, hreads.token_place, List.append_nil, Place.after_append]
  · rw [hrest, List.getLast?_append_of_ne_nil _ (by simp [hnil]),
      List.getLast?_append_of_ne_nil _ hnil] at hline
    have hblank := htail '\n' (List.mem_of_getLast? hline)
    exact absurd hblank (by decide)

/-- **A run over lines, with more text behind them**: up to the end it reads the same tokens, unless
the last of them goes on. -/
theorem run_append (hl : l.nesting.Orderly) (hline : l.rest = [] ∨ l.rest.getLast? = some '\n')
    (hlast : ∀ t, (l.run ref).1.dropLast.getLast? = some t →
      t.place.after t.spelling.toList ≠ l.place.after l.rest) (more : List Char) :
    (run ref { l with rest := l.rest ++ more }).1 =
      (l.run ref).1.dropLast ++ (run ref { (l.run ref).2 with rest := more }).1 := by
  fun_induction run ref l with
  | case1 l hnone => exact absurd hnone (next?_ne_none hl)
  | case2 l t l' hnext hend => exact run_eq_of_next? (next?_resume hnext hend more)
  | case3 l t l' hnext hmore ts last hrun ih =>
    have horderly := next?_orderly hnext hl
    obtain ⟨gap, tail, hreads⟩ := next?_reads hnext
    have hplace : l'.place.after l'.rest = l.place.after l.rest := by
      rw [hreads.place_eq, ← Place.after_append, hreads.rest_eq]
      simp only [List.append_assoc]
    obtain ⟨us, e, hts, -, -, hlength, -⟩ := run_complete ref horderly
    rw [hrun] at hts ih
    obtain rfl : ts = us ++ [e] := hts
    have hline : l.rest.getLast? = some '\n' := by
      refine hline.resolve_left fun hnil => ?_
      obtain ⟨cs, hcs, hconsumed⟩ := next?_consumes hnext hmore
      rw [hnil] at hconsumed
      exact hcs (List.append_eq_nil_iff.1 hconsumed.symm).1
    -- the token is the last one, or another one is read behind it
    have hl' : l'.rest ≠ [] := by
      cases us with
      | nil => exact rest_ne_nil_of_line hnext hmore hline (hlast t rfl)
      | cons u us =>
        intro hnil
        rw [hnil] at hlength
        exact absurd hlength (by simp)
    obtain ⟨w, hw⟩ := List.getLast?_eq_some_iff.1 hline
    have hstops : ∀ behind, Stops w '\n' behind := fun _ => ⟨rfl, fun _ => .inl rfl⟩
    obtain ⟨v, -, hv, hnext'⟩ := next?_before hw (hstops []) (hstops more) hnext
      (List.length_pos_of_ne_nil hl')
    have hdrop : (t :: (us ++ [e])).dropLast = t :: us := by
      rw [← List.cons_append, List.dropLast_concat]
    have hih := ih horderly (.inr (by rw [hv]; simp)) ?_
    · rw [hv, List.append_assoc, List.singleton_append, List.dropLast_concat] at hih
      rw [hw, List.append_assoc, List.singleton_append, run_of_token hnext' hmore, hih, hdrop]
      rfl
    · intro u hu
      rw [hplace]
      apply hlast
      rw [List.dropLast_concat] at hu
      rw [hdrop, List.getLast?_cons, hu]
      rfl

end Lexer

theorem Place.behind_of_line {cs : List Char} (h : cs.getLast? = some '\n') :
    behind cs = start.below (cs.count '\n') := by
  obtain ⟨w, rfl⟩ := List.getLast?_eq_some_iff.1 h
  simp [behind, start, below]

/-- A state with nothing open and a text ahead is the one at the start of the text, in another
setting. -/
theorem Lexer.within_ofText {l : Lexer} {lines : Nat} (hplace : l.place = Place.start.below lines)
    (hparens : l.parens = 0) (hframes : l.nesting.frames = []) (hrefused : l.nesting.refused = 0)
    (limit : Int) (text : String) :
    { l with rest := text.toList } =
      (ofText limit text).within ⟨lines, l.nesting.limit, l.nesting.overflow⟩ := by
  obtain ⟨rest, place, parens, bound, frames, refused, overflow⟩ := l
  dsimp only at hplace hparens hframes hrefused
  subst hplace hparens hframes hrefused
  simp [within, ofText, Nesting.within, Nesting.ofLimit]

/-- **Lines that leave nothing open are read apart from what follows them.** Where the lines end
with no context, no refused push and no parenthesis open, and their last token does not go on to
their end, the tokens of lines with a text behind them are those of the lines, without the end of
the text, and those of the text, as many lines further down. -/
theorem tokenize_append (ref : Option Reference) (limit : Int) (lines text : String)
    (hline : lines.toList.getLast? = some '\n')
    (hcontexts : (tokenize ref limit lines).2.nesting.contexts = [Context.normal])
    (hrefused : (tokenize ref limit lines).2.nesting.refused = 0)
    (hparens : (tokenize ref limit lines).2.parens = 0)
    (hlast : ∀ t, (tokenize ref limit lines).1.dropLast.getLast? = some t →
      t.place.after t.spelling.toList ≠ Place.behind lines.toList) :
    (tokenize ref limit (lines ++ text)).1 =
      (tokenize ref limit lines).1.dropLast ++
        (tokenize ref limit text).1.map (·.below (lines.toList.count '\n')) := by
  have horderly := Nesting.orderly_ofLimit limit
  obtain ⟨-, hplace, hlimit⟩ := Lexer.run_end (l := Lexer.ofText limit lines) ref horderly
  obtain ⟨-, -, hlimit'⟩ := Lexer.run_end (l := Lexer.ofText limit text) ref horderly
  have hends : ∀ t, (tokenize ref limit lines).1.dropLast.getLast? = some t →
      t.place.after t.spelling.toList ≠ Place.start.after lines.toList := by
    rw [Place.start_after]
    exact hlast
  have hjoined : (tokenize ref limit (lines ++ text)).1 = (tokenize ref limit lines).1.dropLast ++
      (Lexer.run ref { (tokenize ref limit lines).2 with rest := text.toList }).1 := by
    have hwhole : Lexer.ofText limit (lines ++ text) =
        { Lexer.ofText limit lines with rest := lines.toList ++ text.toList } := by
      rw [Lexer.ofText, String.toList_append]
      rfl
    rw [tokenize, hwhole]
    exact Lexer.run_append horderly (.inr hline) hends text.toList
  have hframes : (tokenize ref limit lines).2.nesting.frames = [] := by
    have hlength := congrArg List.length hcontexts
    rw [Nesting.contexts, Nesting.length_contextsOf] at hlength
    exact List.length_eq_zero_iff.1 (Nat.succ.inj hlength)
  have hbehind : (tokenize ref limit lines).2.place =
      Place.start.below (lines.toList.count '\n') := by
    rw [← Place.behind_of_line hline, ← Place.start_after]
    exact hplace
  have hfits : ((Lexer.ofText limit text).run ref).2.nesting.Fits
      ⟨lines.toList.count '\n', (tokenize ref limit lines).2.nesting.limit,
        (tokenize ref limit lines).2.nesting.overflow⟩ := .inl (hlimit'.trans hlimit.symm)
  rw [hjoined, Lexer.within_ofText hbehind hparens hframes hrefused limit text,
    Lexer.run_within horderly hfits]
  rfl

/-- A directive with a string and a comment. -/
def stringLine : String := ".a \"s\" // it\n"

/-- With room for one context, the string in the directive has none of its own. -/
theorem tokenize_stringLine :
    tokenize none 2 stringLine =
      ([directiveToken ".a" 1 1 1, tokenIn .directive ".a" 1 .string "\"s\"" 1 4,
        tokenIn .normal "" 0 .lineComment "// it" 1 8, tokenIn .normal "" 0 .endOfText "" 2 1],
      ⟨[], ⟨2, 1⟩, 0, ⟨2, [], 0, some ⟨1, 4⟩⟩⟩) := by
  apply Lexer.run_of_session 4
  · cbv
  · decide

/-- A push was refused in the line, but nothing is open behind it. -/
theorem tokenize_append_stringLine :
    (tokenize none 2 (stringLine ++ "b: (")).1 =
      (tokenize none 2 stringLine).1.dropLast ++
        (tokenize none 2 "b: (").1.map (·.below (stringLine.toList.count '\n')) := by
  apply tokenize_append
  · decide
  · rw [tokenize_stringLine]
    rfl
  · rw [tokenize_stringLine]
  · rw [tokenize_stringLine]
  · rw [tokenize_stringLine]
    intro t ht
    cases ht
    decide

end Asm6510
