import Asm6510.Proofs.Grammar.Progress

/-!
# Marks and their partners

* `fromMatch`: the tokens from the partner of an open mark on, found by counting.
* `State.next`: the tokens that are still to be read; the end of the text stays among them.

Main statement: `skipNestedRun_fromMatch`, skipping from an opening mark leads to its partner.
-/

namespace Asm6510.Grammar

/-! ## Counting -/

/-- The tokens from the mark on that closes an open one, when `depth` more are open inside it. Where
the open one is never closed, these are the tokens from the end of the text on. -/
def fromMatch (opening closing : TokenKind) : (depth : Nat) → List Token → List Token
  | _, [] => []
  | depth, t :: rest =>
    if t.kind = .endOfText then t :: rest
    else if t.kind = opening then fromMatch opening closing (depth + 1) rest
    else if t.kind = closing then
      if depth = 0 then t :: rest else fromMatch opening closing (depth - 1) rest
    else fromMatch opening closing depth rest

section Counting

variable {opening closing : TokenKind} {depth : Nat} {t : Token} {rest : List Token}

theorem fromMatch_end (h : t.kind = .endOfText) :
    fromMatch opening closing depth (t :: rest) = t :: rest := by
  rw [fromMatch, if_pos h]

theorem fromMatch_open (hend : t.kind ≠ .endOfText) (h : t.kind = opening) :
    fromMatch opening closing depth (t :: rest) = fromMatch opening closing (depth + 1) rest := by
  rw [fromMatch, if_neg hend, if_pos h]

theorem fromMatch_close_zero (hend : t.kind ≠ .endOfText) (hopen : t.kind ≠ opening)
    (h : t.kind = closing) : fromMatch opening closing 0 (t :: rest) = t :: rest := by
  rw [fromMatch, if_neg hend, if_neg hopen, if_pos h, if_pos rfl]

theorem fromMatch_close_succ (hend : t.kind ≠ .endOfText) (hopen : t.kind ≠ opening)
    (h : t.kind = closing) :
    fromMatch opening closing (depth + 1) (t :: rest) = fromMatch opening closing depth rest := by
  rw [fromMatch, if_neg hend, if_neg hopen, if_pos h, if_neg (Nat.succ_ne_zero depth),
    Nat.add_sub_cancel]

theorem fromMatch_other (hend : t.kind ≠ .endOfText) (hopen : t.kind ≠ opening)
    (hclose : t.kind ≠ closing) :
    fromMatch opening closing depth (t :: rest) = fromMatch opening closing depth rest := by
  rw [fromMatch, if_neg hend, if_neg hopen, if_neg hclose]

theorem fromMatch_suffix (opening closing : TokenKind) (depth : Nat) (tokens : List Token) :
    fromMatch opening closing depth tokens <:+ tokens := by
  induction tokens generalizing depth with
  | nil => exact List.suffix_rfl
  | cons t rest ih =>
    have hlater : ∀ n, fromMatch opening closing n rest <:+ t :: rest :=
      fun n => (ih n).trans (List.suffix_cons t rest)
    unfold fromMatch
    split
    · exact List.suffix_rfl
    · split
      · exact hlater _
      · split
        · split
          · exact List.suffix_rfl
          · exact hlater _
        · exact hlater _

/-- Counting ends at a closing mark or at the end of the text. -/
theorem kind_of_fromMatch {tokens : List Token}
    (h : fromMatch opening closing depth tokens = t :: rest) :
    t.kind = .endOfText ∨ t.kind = closing := by
  induction tokens generalizing depth with
  | nil => cases h
  | cons u us ih =>
    unfold fromMatch at h
    split at h
    · rename_i hend
      cases h
      exact .inl hend
    · split at h
      · exact ih h
      · split at h
        · rename_i hclose
          split at h
          · cases h
            exact .inr hclose
          · exact ih h
        · exact ih h

theorem fromMatch_ne_nil {tokens : List Token} (h : ∃ t ∈ tokens, t.kind = .endOfText) :
    fromMatch opening closing depth tokens ≠ [] := by
  induction tokens generalizing depth with
  | nil => simp at h
  | cons t rest ih =>
    unfold fromMatch
    split
    · exact List.cons_ne_nil t rest
    · rename_i hend
      have hrest : ∃ u ∈ rest, u.kind = .endOfText := by simpa [hend] using h
      split
      · exact ih hrest
      · split
        · split
          · exact List.cons_ne_nil t rest
          · exact ih hrest
        · exact ih hrest

/-- Counting may pause at the partner of an inner mark. -/
theorem fromMatch_fromMatch (opening closing : TokenKind) (depth inner : Nat)
    (tokens : List Token) :
    fromMatch opening closing depth (fromMatch opening closing inner tokens) =
      fromMatch opening closing (depth + inner) tokens := by
  induction tokens generalizing inner with
  | nil => rfl
  | cons t rest ih =>
    by_cases hend : t.kind = .endOfText
    · rw [fromMatch_end hend, fromMatch_end hend, fromMatch_end hend]
    · by_cases hopen : t.kind = opening
      · rw [fromMatch_open hend hopen, fromMatch_open hend hopen, ih]
        rfl
      · by_cases hclose : t.kind = closing
        · cases inner with
          | zero => rw [fromMatch_close_zero hend hopen hclose, Nat.add_zero]
          | succ inner =>
            rw [fromMatch_close_succ hend hopen hclose, ih, ← Nat.add_assoc,
              fromMatch_close_succ hend hopen hclose]
        · rw [fromMatch_other hend hopen hclose, fromMatch_other hend hopen hclose, ih]

end Counting

/-! ## What is still to be read -/

namespace State

/-- The tokens that are still to be read. The end of the text stays among them. -/
def next (s : State) : List Token :=
  s.advance.tokens

/-- The second state is the first one at a later token. -/
def Moved (s s' : State) : Prop :=
  s' = { s with current := s'.current, ahead := s'.ahead }

variable {s : State} {t : Token} {rest : List Token}

theorem next_of_cons (h : s.ahead = t :: rest) : s.next = t :: rest := by
  rw [next, advance_of_cons h, tokens]

theorem next_of_nil (h : s.ahead = []) : s.next = s.tokens := by
  rw [next, advance_of_nil h]

theorem Moved.trans {s' s'' : State} (h : s.Moved s') (h' : s'.Moved s'') : s.Moved s'' := by
  unfold Moved at *
  rw [h'.trans (by rw [h])]

theorem moved_advance (s : State) : s.Moved s.advance := by
  cases h : s.ahead with
  | nil => rw [advance_of_nil h]; rfl
  | cons t rest => rw [advance_of_cons h]; rfl

end State

/-! ## Skipping -/

/-- Skipping behind an opening mark ends on its partner, or right before the end of the text. The
number of open marks tells which. -/
theorem skipNestedRun_fromMatch (opening closing : TokenKind) (depth : Nat) (s : State) :
    s.Moved (skipNestedRun opening closing (depth + 1) s).1.2 ∧
    if (skipNestedRun opening closing (depth + 1) s).1.1 = 0 then
      (skipNestedRun opening closing (depth + 1) s).1.2.tokens =
          fromMatch opening closing depth s.ahead ∧
        (skipNestedRun opening closing (depth + 1) s).1.2.current.kind = closing
    else
      (skipNestedRun opening closing (depth + 1) s).1.2.ahead =
          fromMatch opening closing depth s.ahead ∧
        ∀ t ∈ (skipNestedRun opening closing (depth + 1) s).1.2.ahead.head?,
          t.kind = .endOfText := by
  induction s using State.left_induction generalizing depth with
  | _ s ih =>
    cases ha : s.ahead with
    | nil =>
      rw [skipNestedRun_nil ha]
      exact ⟨rfl, by simp [ha, fromMatch]⟩
    | cons t rest =>
      have hlt := State.left_advance_lt ha
      have hadvance := State.advance_of_cons ha
      have hahead : s.advance.ahead = rest := by rw [hadvance]
      rw [skipNestedRun_cons ha]
      by_cases hend : t.kind = .endOfText
      · rw [if_pos hend, fromMatch_end hend]
        exact ⟨rfl, by simp [ha, hend]⟩
      · rw [if_neg hend]
        by_cases hopen : t.kind = opening
        · rw [if_pos hopen, fromMatch_open hend hopen, ← hahead]
          obtain ⟨hmoved, h⟩ := ih _ hlt (depth + 1)
          exact ⟨s.moved_advance.trans hmoved, h⟩
        · rw [if_neg hopen]
          by_cases hclose : t.kind = closing
          · rw [if_pos hclose]
            cases depth with
            | zero =>
              rw [skipNestedRun_zero, fromMatch_close_zero hend hopen hclose]
              refine ⟨s.moved_advance, ?_⟩
              rw [if_pos rfl, hadvance]
              exact ⟨rfl, hclose⟩
            | succ depth =>
              rw [fromMatch_close_succ hend hopen hclose, ← hahead]
              obtain ⟨hmoved, h⟩ := ih _ hlt depth
              exact ⟨s.moved_advance.trans hmoved, h⟩
          · rw [if_neg hclose, fromMatch_other hend hopen hclose, ← hahead]
            obtain ⟨hmoved, h⟩ := ih _ hlt depth
            exact ⟨s.moved_advance.trans hmoved, h⟩

end Asm6510.Grammar
