import Asm6510.Grammar.Program

/-!
# The loops of the grammar, unfolded once

One equation for each loop at a state with no tokens ahead, and one at a state with tokens ahead:
what a turn does, and from where the loop goes on.
-/

namespace Asm6510.Grammar

namespace State

variable {s : State} {t : Token} {rest : List Token}

theorem advance_of_cons (h : s.ahead = t :: rest) :
    s.advance = { s with current := t, ahead := rest } := by
  unfold advance
  rw [h]

theorem advance_of_nil (h : s.ahead = []) : s.advance = s := by
  unfold advance
  rw [h]

theorem peek_of_cons (h : s.ahead = t :: rest) : s.peek = t := by
  unfold peek
  rw [h]

theorem peek_of_nil (h : s.ahead = []) : s.peek = s.current := by
  unfold peek
  rw [h]

/-- Induction on the number of tokens ahead, which every turn of a loop makes smaller. -/
theorem left_induction {P : State → Prop} (turn : ∀ s, (∀ s', s'.left < s.left → P s') → P s)
    (s : State) : P s :=
  (measure left).wf.induction s turn

end State

variable {α : Type} {s : State} {t : Token} {rest : List Token} {sub : Nat → Parser Expr}
  {least : Nat} {separator opening closing : TokenKind} {body : Parser (Option (List α))}
  {left : Expr}

/-! ## Items behind separators -/

theorem whileNext_nil (h : s.ahead = []) : (whileNext separator body).run s = (([], false), s) := by
  show (whileNextRun separator body s).1 = _
  rw [whileNextRun]
  split
  · rfl
  · rename_i h'
    rw [h] at h'
    cases h'

theorem whileNext_cons (h : s.ahead = t :: rest) :
    (whileNext separator body).run s =
      if t.kind = separator then
        match (body.run s.advance).1 with
        | none => (([], true), (body.run s.advance).2)
        | some items =>
          let more := (whileNext separator body).run (body.run s.advance).2
          ((items ++ more.1.1, more.1.2), more.2)
      else (([], false), s) := by
  show (whileNextRun separator body s).1 = _
  rw [whileNextRun]
  split
  · rename_i h'
    rw [h] at h'
    cases h'
  · rename_i t' rest' h'
    rw [h] at h'
    cases h'
    split
    · dsimp only
      cases (body.run s.advance).1 with
      | none => rfl
      | some items => rfl
    · rfl

theorem whileNext_next {c : Token} {ds : List Diagnostic} {reported unwinding unbounded : Bool} :
    (whileNext separator body).run ⟨c, t :: rest, ds, reported, unwinding, unbounded⟩ =
      if t.kind = separator then
        match (body.run ⟨t, rest, ds, reported, unwinding, unbounded⟩).1 with
        | none => (([], true), (body.run ⟨t, rest, ds, reported, unwinding, unbounded⟩).2)
        | some items =>
          let more := (whileNext separator body).run
            (body.run ⟨t, rest, ds, reported, unwinding, unbounded⟩).2
          ((items ++ more.1.1, more.1.2), more.2)
      else (([], false), ⟨c, t :: rest, ds, reported, unwinding, unbounded⟩) :=
  whileNext_cons rfl

/-! ## Skipping -/

theorem skipNestedRun_zero : (skipNestedRun opening closing 0 s).1 = (0, s) := by
  rw [skipNestedRun]
  rfl

theorem skipNestedRun_nil {depth : Nat} (h : s.ahead = []) :
    (skipNestedRun opening closing (depth + 1) s).1 = (depth + 1, s) := by
  rw [skipNestedRun, if_neg (Nat.succ_ne_zero depth)]
  split
  · rfl
  · rename_i h'
    rw [h] at h'
    cases h'

theorem skipNestedRun_cons {depth : Nat} (h : s.ahead = t :: rest) :
    (skipNestedRun opening closing (depth + 1) s).1 =
      if t.kind = .endOfText then (depth + 1, s)
      else
        (skipNestedRun opening closing
          (if t.kind = opening then depth + 2 else if t.kind = closing then depth else depth + 1)
          s.advance).1 := by
  rw [skipNestedRun, if_neg (Nat.succ_ne_zero depth)]
  split
  · rename_i h'
    rw [h] at h'
    cases h'
  · rename_i t' rest' h'
    rw [h] at h'
    cases h'
    split <;> rfl

theorem skipLineRun_nil {line : Nat} (h : s.ahead = []) : (skipLineRun line s).1 = s := by
  rw [skipLineRun]
  split
  · rfl
  · rename_i h'
    rw [h] at h'
    cases h'

theorem skipLineRun_cons {line : Nat} (h : s.ahead = t :: rest) :
    (skipLineRun line s).1 =
      if t.place.line = line ∧ t.kind ≠ .endOfText then (skipLineRun line s.advance).1 else s := by
  rw [skipLineRun]
  split
  · rename_i h'
    rw [h] at h'
    cases h'
  · rename_i t' rest' h'
    rw [h] at h'
    cases h'
    split <;> rfl

/-! ## Items up to a token that ends them -/

theorem untilKind_stop {stop : TokenKind → Bool} {item : Parser (List α × Bool)}
    (h : stop s.current.kind = true) : (untilKind stop item).run s = ([], s) := by
  show (untilRun stop item s).1 = _
  rw [untilRun]
  simp only [h, if_true]

theorem untilKind_turn {stop : TokenKind → Bool} {item : Parser (List α × Bool)}
    (h : stop s.current.kind = false) :
    (untilKind stop item).run s =
      if (item.run s).1.2 = true ∨ (item.run s).2.ahead = [] then
        ((item.run s).1.1, (item.run s).2)
      else
        let more := (untilKind stop item).run (item.run s).2.advance
        ((item.run s).1.1 ++ more.1, more.2) := by
  show (untilRun stop item s).1 = _
  rw [untilRun]
  simp only [h, Bool.false_eq_true, if_false]
  split
  · rename_i hb
    rw [if_pos (.inl hb)]
  · rename_i hb
    split
    · rename_i hn
      rw [if_pos (.inr hn)]
    · rename_i t' rest' hc
      rw [if_neg (by simp [hb, hc])]
      rfl

/-! ## Operators behind an operand -/

theorem operators_nil (h : s.ahead = []) : (operators sub least left).run s = (left, s) := by
  show (operatorsRun sub least left s).1 = _
  rw [operatorsRun]
  split
  · rfl
  · rename_i h'
    rw [h] at h'
    cases h'

theorem operators_cons (h : s.ahead = t :: rest) :
    (operators sub least left).run s =
      if !left.isMissing ∧ t.kind ≠ .endOfText ∧ least < level t.kind then
        (operators sub least ((operatorTail sub left).run s.advance).1).run
          ((operatorTail sub left).run s.advance).2
      else (left, s) := by
  show (operatorsRun sub least left s).1 = _
  rw [operatorsRun]
  split
  · rename_i h'
    rw [h] at h'
    cases h'
  · rename_i t' rest' h'
    rw [h] at h'
    cases h'
    split <;> rfl

theorem operators_next {c : Token} {ds : List Diagnostic} {reported unwinding unbounded : Bool} :
    (operators sub least left).run ⟨c, t :: rest, ds, reported, unwinding, unbounded⟩ =
      if !left.isMissing ∧ t.kind ≠ .endOfText ∧ least < level t.kind then
        (operators sub least
            ((operatorTail sub left).run ⟨t, rest, ds, reported, unwinding, unbounded⟩).1).run
          ((operatorTail sub left).run ⟨t, rest, ds, reported, unwinding, unbounded⟩).2
      else (left, ⟨c, t :: rest, ds, reported, unwinding, unbounded⟩) :=
  operators_cons rfl

theorem operators_missing : (operators sub least .missing).run s = (.missing, s) := by
  cases h : s.ahead with
  | nil => exact operators_nil h
  | cons t rest => rw [operators_cons h, if_neg (by simp [Expr.isMissing])]

end Asm6510.Grammar
