import Asm6510.Proofs.Token.Progress
import Mathlib

/-!
# Reading elsewhere

The same characters give the same tokens when they are read further down in a text, with more room
on the stack, or after a push that was refused earlier: only the lines of the tokens change.

* `Lexer.next?_nil`, `next?_emit`, `next?_newline`, `next?_leave`, `next?_operand`: one turn of a
  reading.
* `Setting`, `Lexer.within`: a state carried over into another setting.
* `Nesting.Fits`: the setting has the same bound, or more room than was needed.

Main statement: `Lexer.run_within`, a run that fits a setting goes the same way in it.
-/

namespace Asm6510

namespace Lexer

open Lexing

/-! ## One turn of a reading -/

section Turns

variable {ref : Option Reference} {l s : Lexer} {c : Char} {cs : List Char}

theorem next?_nil (hs : l.skipBlanks = s) (hrest : s.rest = []) :
    l.next? ref = some (s.endToken, s) := by
  subst hs
  rw [next?]
  split
  · rfl
  · rename_i hcons
    rw [hrest] at hcons
    cases hcons

theorem next?_cons (hs : l.skipBlanks = s) (hrest : s.rest = c :: cs) :
    l.next? ref =
      match actionAt ref s.nesting.top.mode s.parens c cs with
      | .emit x => some (s.emit c cs x)
      | .newline =>
        next? ref { s with rest := cs, place := s.place.next c, nesting := s.nesting.pop }
      | .leave =>
        if s.nesting.pop.pending < s.nesting.pending then
          next? ref { s with nesting := s.nesting.pop }
        else
          none
      | .operand =>
        if s.operandNesting.pending < s.nesting.pending then
          next? ref { s with nesting := s.operandNesting }
        else
          none := by
  subst hs
  rw [next?]
  split
  · rename_i hnil
    rw [hrest] at hnil
    cases hnil
  · rename_i hcons
    rw [hrest] at hcons
    cases hcons
    rfl

theorem next?_emit {x : Lexeme} (hs : l.skipBlanks = s) (hrest : s.rest = c :: cs)
    (hx : actionAt ref s.nesting.top.mode s.parens c cs = .emit x) :
    l.next? ref = some (s.emit c cs x) := by
  rw [next?_cons hs hrest, hx]

theorem next?_newline (hs : l.skipBlanks = s) (hrest : s.rest = c :: cs)
    (hx : actionAt ref s.nesting.top.mode s.parens c cs = .newline) :
    l.next? ref =
      next? ref { s with rest := cs, place := s.place.next c, nesting := s.nesting.pop } := by
  rw [next?_cons hs hrest, hx]

theorem next?_leave (hs : l.skipBlanks = s) (hrest : s.rest = c :: cs)
    (hx : actionAt ref s.nesting.top.mode s.parens c cs = .leave)
    (hless : s.nesting.pop.pending < s.nesting.pending) :
    l.next? ref = next? ref { s with nesting := s.nesting.pop } := by
  rw [next?_cons hs hrest, hx]
  exact if_pos hless

theorem next?_operand (hs : l.skipBlanks = s) (hrest : s.rest = c :: cs)
    (hx : actionAt ref s.nesting.top.mode s.parens c cs = .operand)
    (hless : s.operandNesting.pending < s.nesting.pending) :
    l.next? ref = next? ref { s with nesting := s.operandNesting } := by
  rw [next?_cons hs hrest, hx]
  exact if_pos hless

theorem run_of_none (h : l.next? ref = none) : l.run ref = ([], l) := by
  rw [run]
  split
  · rfl
  · rename_i hsome
    rw [h] at hsome
    cases hsome

theorem run_of_end {t : Token} {l' : Lexer} (h : l.next? ref = some (t, l'))
    (ht : t.kind = .endOfText) : l.run ref = ([t], l') := by
  rw [run]
  split
  · rename_i hnone
    rw [h] at hnone
    cases hnone
  · rename_i hsome
    rw [h] at hsome
    cases hsome
    exact dif_pos ht

theorem run_of_token {t : Token} {l' : Lexer} (h : l.next? ref = some (t, l'))
    (ht : t.kind ≠ .endOfText) : l.run ref = (t :: (l'.run ref).1, (l'.run ref).2) := by
  rw [run]
  split
  · rename_i hnone
    rw [h] at hnone
    cases hnone
  · rename_i hsome
    rw [h] at hsome
    cases hsome
    exact dif_neg ht

end Turns

end Lexer

/-! ## Settings -/

/-- The place some lines further down. -/
def Place.below (p : Place) (lines : Nat) : Place :=
  ⟨p.line + lines, p.column⟩

@[simp] theorem Place.below_zero (p : Place) : p.below 0 = p := rfl

theorem Place.below_next (p : Place) (lines : Nat) (c : Char) :
    (p.below lines).next c = (p.next c).below lines := by
  unfold next
  split
  · simp [below, Nat.add_right_comm]
  · rfl

theorem Place.below_after (p : Place) (lines : Nat) (cs : List Char) :
    (p.below lines).after cs = (p.after cs).below lines := by
  induction cs generalizing p with
  | nil => rfl
  | cons c cs ih => rw [after_cons, after_cons, below_next, ih]

def Token.below (t : Token) (lines : Nat) : Token :=
  { t with place := t.place.below lines }

@[simp] theorem Token.below_zero (t : Token) : t.below 0 = t := rfl

/-- How else a text may be read: behind some lines, with another bound for the stack, and after a
push that was refused before the text. -/
structure Setting where
  lines : Nat
  limit : Nat
  refusal : Option Place

namespace Nesting

def within (n : Nesting) (e : Setting) : Nesting :=
  { n with limit := e.limit, overflow := e.refusal.or (n.overflow.map (·.below e.lines)) }

/-- The setting has the same bound, or at least that bound while nothing was refused. -/
def Fits (n : Nesting) (e : Setting) : Prop :=
  n.limit = e.limit ∨ n.limit ≤ e.limit ∧ n.overflow = none

variable {n : Nesting} {e : Setting}

@[simp] theorem within_top (n : Nesting) (e : Setting) : (n.within e).top = n.top := rfl

theorem within_pop (n : Nesting) (e : Setting) : (n.within e).pop = n.pop.within e := by
  unfold pop
  show (if n.refused = 0 then _ else _) = _
  split <;> rfl

theorem fits_of_pop (h : n.pop.Fits e) : n.Fits e := by
  unfold pop at h
  split at h
  · exact h
  · exact h

/-- A push that fits was accepted, or the bounds are the same. -/
theorem within_push {place : Place} {mode : Mode} {directive : String}
    (h : (n.push place mode directive).Fits e) :
    (n.within e).push (place.below e.lines) mode directive =
      (n.push place mode directive).within e := by
  have hdepth : (n.within e).depth = n.depth := rfl
  have hlimit : (n.within e).limit = e.limit := rfl
  unfold push at h ⊢
  by_cases hfull : n.isFull = true
  · rw [if_pos hfull] at h ⊢
    rcases h with h | ⟨_, h⟩
    · have hfull' : (n.within e).isFull = true := by
        rw [isFull, hdepth, hlimit, ← show n.limit = e.limit from h]
        exact hfull
      rw [if_pos hfull']
      cases e with
      | mk lines limit refusal => cases refusal <;> cases ho : n.overflow <;> simp [within, ho]
    · cases h
  · rw [if_neg hfull] at h ⊢
    have hle : n.limit ≤ e.limit := by
      rcases h with h | h
      · exact Nat.le_of_eq h
      · exact h.1
    have hroom : ¬(n.within e).isFull = true := by
      rw [isFull, decide_eq_true_iff] at hfull ⊢
      rw [hdepth, hlimit]
      omega
    rw [if_neg hroom]
    rfl

theorem fits_of_push {place : Place} {mode : Mode} {directive : String}
    (h : (n.push place mode directive).Fits e) : n.Fits e := by
  unfold push at h
  split at h
  · rcases h with h | ⟨_, h⟩
    · exact .inl h
    · cases h
  · exact h

theorem within_edit {place : Place} {x : Edit} (h : (n.edit place x).Fits e) :
    (n.within e).edit (place.below e.lines) x = (n.edit place x).within e := by
  cases x with
  | push mode directive => exact within_push h
  | pop => exact within_pop n e
  | endLine =>
    show (if n.refused = 0 ∧ n.top.mode.endsAtLine = true then (n.within e).pop else _) =
      (if n.refused = 0 ∧ n.top.mode.endsAtLine = true then n.pop else n).within e
    rw [within_pop]
    split <;> rfl
  | closeBlock =>
    show (if n.refused ≠ 0 ∨ n.top.mode = .block then (n.within e).pop else _) =
      (if n.refused ≠ 0 ∨ n.top.mode = .block then n.pop else n).within e
    rw [within_pop]
    split <;> rfl

theorem fits_of_edit {place : Place} {x : Edit} (h : (n.edit place x).Fits e) : n.Fits e :=
  edit_rec (P := fun m => m.Fits e → n.Fits e) (fun _ _ _ => fits_of_push) fits_of_pop id h

theorem fits_of_apply {place : Place} {edits : List Edit} (h : (n.apply place edits).Fits e) :
    n.Fits e := by
  induction edits generalizing n with
  | nil => exact h
  | cons x edits ih => exact fits_of_edit (ih h)

theorem within_apply {place : Place} {edits : List Edit} (h : (n.apply place edits).Fits e) :
    (n.within e).apply (place.below e.lines) edits = (n.apply place edits).within e := by
  induction edits generalizing n with
  | nil => rfl
  | cons x edits ih =>
    have hx : (n.edit place x).Fits e := fits_of_apply h
    show ((n.within e).edit (place.below e.lines) x).apply (place.below e.lines) edits = _
    rw [within_edit hx]
    exact ih h

end Nesting

namespace Lexer

open Lexing Nesting

variable {ref : Option Reference} {l l' : Lexer} {t : Token} {e : Setting}

def within (l : Lexer) (e : Setting) : Lexer :=
  ⟨l.rest, l.place.below e.lines, l.parens, l.nesting.within e⟩

theorem within_skipBlanks (l : Lexer) (e : Setting) :
    (l.within e).skipBlanks = l.skipBlanks.within e := by
  unfold skipBlanks within
  simp only [within_top, Place.below_after]

theorem within_emit {c : Char} {cs : List Char} {x : Lexeme}
    (h : (l.emit c cs x).2.nesting.Fits e) :
    (l.within e).emit c cs x = ((l.emit c cs x).1.below e.lines, (l.emit c cs x).2.within e) := by
  have hfollowing := h
  have hclosing := fits_of_apply hfollowing
  have hopening := fits_of_apply hclosing
  unfold emit within Token.below
  simp only [Place.below_after, within_apply hopening, within_apply hclosing,
    within_apply hfollowing, within_top]
  cases x.code <;> rfl

theorem fits_of_emit {c : Char} {cs : List Char} {x : Lexeme}
    (h : (l.emit c cs x).2.nesting.Fits e) : l.nesting.Fits e :=
  fits_of_apply (fits_of_apply (fits_of_apply h))

theorem within_operandNesting (h : l.operandNesting.Fits e) :
    (l.within e).operandNesting = l.operandNesting.within e := by
  show ((l.nesting.within e).pop).push (l.place.below e.lines) .operand "" = _
  rw [within_pop]
  exact within_push h

theorem fits_of_next? (h : l.next? ref = some (t, l')) (hfits : l'.nesting.Fits e) :
    l.nesting.Fits e := by
  fun_induction next? ref l with
  | case1 l s hr =>
    obtain ⟨-, rfl⟩ := Prod.mk.inj (Option.some.inj h)
    exact hfits
  | case2 l s c cs hr x hx =>
    have hl' : (s.emit c cs x).2 = l' := congrArg Prod.snd (Option.some.inj h)
    rw [← hl'] at hfits
    exact fits_of_emit (l := s) hfits
  | case3 l s c cs hr hx ih => exact fits_of_pop (ih h)
  | case4 l s c cs hr hx hp ih => exact fits_of_pop (ih h)
  | case5 => cases h
  | case6 l s c cs hr hx hp ih => exact fits_of_pop (fits_of_push (ih h))
  | case7 => cases h

/-- **A reading that fits a setting goes the same way in it.** -/
theorem next?_within (h : l.next? ref = some (t, l')) (hfits : l'.nesting.Fits e) :
    (l.within e).next? ref = some (t.below e.lines, l'.within e) := by
  fun_induction next? ref l with
  | case1 l s hr =>
    obtain ⟨rfl, rfl⟩ := Prod.mk.inj (Option.some.inj h)
    exact next?_nil (within_skipBlanks l e) hr
  | case2 l s c cs hr x hx =>
    have hread : s.emit c cs x = (t, l') := Option.some.inj h
    have hwithin : (s.within e).emit c cs x = (t.below e.lines, l'.within e) := by
      rw [within_emit (by rw [hread]; exact hfits), hread]
    rw [next?_emit (within_skipBlanks l e) hr hx]
    exact congrArg some hwithin
  | case3 l s c cs hr hx ih =>
    rw [next?_newline (within_skipBlanks l e) hr hx, ← ih h]
    simp only [within, within_pop, Place.below_next, s]
  | case4 l s c cs hr hx hp ih =>
    have hless : (s.within e).nesting.pop.pending < (s.within e).nesting.pending := by
      rw [within, within_pop]
      exact hp
    rw [next?_leave (within_skipBlanks l e) hr hx hless, ← ih h]
    simp only [within, within_pop, s]
  | case5 => cases h
  | case6 l s c cs hr hx hp ih =>
    have hoperand := within_operandNesting (l := s) (fits_of_next? h hfits)
    have hless : (s.within e).operandNesting.pending < (s.within e).nesting.pending := by
      rw [hoperand]
      exact hp
    rw [next?_operand (within_skipBlanks l e) hr hx hless, ← ih h]
    show next? ref { s.within e with nesting := (s.within e).operandNesting } = _
    rw [hoperand]
    rfl
  | case7 => cases h

theorem fits_of_run (h : (l.run ref).2.nesting.Fits e) : l.nesting.Fits e := by
  fun_induction run ref l with
  | case1 l hnone => exact h
  | case2 l t l' hnext hend => exact fits_of_next? hnext h
  | case3 l t l' hnext hmore ts last hrun ih =>
    rw [hrun] at ih
    exact fits_of_next? hnext (ih h)

/-- **A run that fits a setting goes the same way in it**: the tokens are the same, some lines
further down. -/
theorem run_within (hl : l.nesting.Orderly) (h : (l.run ref).2.nesting.Fits e) :
    (l.within e).run ref =
      ((l.run ref).1.map (·.below e.lines), (l.run ref).2.within e) := by
  fun_induction run ref l with
  | case1 l hnone => exact absurd hnone (next?_ne_none hl)
  | case2 l t l' hnext hend => exact run_of_end (next?_within hnext h) hend
  | case3 l t l' hnext hmore ts last hrun ih =>
    have horderly := next?_orderly hnext hl
    have hfits : l'.nesting.Fits e := fits_of_run (by rw [hrun]; exact h)
    rw [hrun] at ih
    rw [run_of_token (next?_within hnext hfits) hmore, ih horderly h]
    rfl

end Lexer

end Asm6510
