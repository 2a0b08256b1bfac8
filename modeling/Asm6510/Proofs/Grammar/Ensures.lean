import Asm6510.Proofs.Grammar.Loops

/-!
# What parsers ensure

* `Ensures`: from a state with a property, a parser gives a result and a state with another one.
  There is one rule for each step.

Main statements: `ensures_whileNext`, `ensures_untilKind`, `ensures_operators`, an invariant of each
loop.
-/

namespace Asm6510.Grammar

/-- From a state with `P`, the parser gives a result and a state with `Q`. -/
def Ensures {α : Type} (P : State → Prop) (p : Parser α) (Q : α → State → Prop) : Prop :=
  ∀ s, P s → Q (p.run s).1 (p.run s).2

variable {α β : Type} {P : State → Prop} {Q : β → State → Prop}

theorem Ensures.pre {P' : State → Prop} {p : Parser β} (h : Ensures P p Q)
    (hP : ∀ s, P' s → P s) : Ensures P' p Q :=
  fun s hs => h s (hP s hs)

theorem Ensures.post {Q' : β → State → Prop} {p : Parser β} (h : Ensures P p Q)
    (hQ : ∀ b s, Q b s → Q' b s) : Ensures P p Q' :=
  fun s hs => hQ _ _ (h s hs)

theorem Ensures.pure {b : β} (h : ∀ s, P s → Q b s) : Ensures P (Pure.pure b) Q :=
  h

theorem Ensures.bind {M : α → State → Prop} {p : Parser α} {f : α → Parser β}
    (hp : Ensures P p M) (hf : ∀ a, Ensures (M a) (f a) Q) : Ensures P (p >>= f) Q :=
  fun s hs => hf _ _ (hp s hs)

theorem Ensures.current {f : Token → Parser β}
    (hf : ∀ t, Ensures (fun s => s.current = t ∧ P s) (f t) Q) :
    Ensures P (Grammar.current >>= f) Q :=
  fun s hs => hf s.current s ⟨rfl, hs⟩

theorem Ensures.peek {f : Token → Parser β}
    (hf : ∀ t, Ensures (fun s => s.peek = t ∧ P s) (f t) Q) : Ensures P (Grammar.peek >>= f) Q :=
  fun s hs => hf s.peek s ⟨rfl, hs⟩

theorem Ensures.state {f : State → Parser β}
    (hf : ∀ s₀, Ensures (fun s => s = s₀ ∧ P s) (f s₀) Q) : Ensures P (Grammar.state >>= f) Q :=
  fun s hs => hf s s ⟨rfl, hs⟩

theorem Ensures.advance {M : Token → State → Prop} {f : Token → Parser β}
    (hM : ∀ s, P s → M s.advance.current s.advance) (hf : ∀ t, Ensures (M t) (f t) Q) :
    Ensures P (Grammar.advance >>= f) Q :=
  fun s hs => hf _ _ (hM s hs)

theorem Ensures.advance_pure {b : β} (h : ∀ s, P s → Q b s.advance) :
    Ensures P (do let _ ← Grammar.advance; return b) Q :=
  h

theorem Ensures.ifNext {kind : TokenKind} {f : Bool → Parser β}
    (hyes : Ensures (fun s => s.peek.kind = kind ∧ P s) (f true) Q)
    (hno : Ensures P (f false) Q) : Ensures P (nextIs kind >>= f) Q := by
  intro s hs
  rw [Parser.run_bind, show (nextIs kind).run s = (s.peek.kind == kind, s) from rfl]
  cases hk : s.peek.kind == kind with
  | true => exact hyes s ⟨eq_of_beq hk, hs⟩
  | false => exact hno s hs

/-- The two branches behind the question whether a value goes on with the line. -/
theorem Ensures.ifValue {f : Bool → Parser β}
    (hyes : Ensures (fun s => s.peek.place.line = s.current.place.line ∧ P s) (f true) Q)
    (hno : Ensures P (f false) Q) : Ensures P (hasValueOnLine >>= f) Q := by
  intro s hs
  rw [Parser.run_bind, show hasValueOnLine.run s =
    (s.peek.place.line == s.current.place.line && !endsStatement s.peek, s) from rfl]
  cases hk : s.peek.place.line == s.current.place.line && !endsStatement s.peek with
  | true => exact hyes s ⟨eq_of_beq (Bool.and_eq_true_iff.1 hk).1, hs⟩
  | false => exact hno s hs

/-! ## Loops -/

/-- What holds behind a turn of a loop over items: `D` of the items so far if it stops the loop, and
else `I` of those and the new ones. -/
def Turn (I D : List α → State → Prop) (acc : List α) : Option (List α) → State → Prop
  | none, s => D acc s
  | some items, s => I (acc ++ items) s

/-- A loop over items behind separators keeps `I`, which speaks of the items so far; where the body
stops it, it ends with `D`. -/
theorem ensures_whileNext {separator : TokenKind} {body : Parser (Option (List α))}
    {I D : List α → State → Prop}
    (hbody : ∀ acc, Ensures
      (fun s' => ∃ s, I acc s ∧ s.ahead ≠ [] ∧ s.peek.kind = separator ∧ s' = s.advance)
      body (Turn I D acc)) (acc : List α) :
    Ensures (I acc) (whileNext separator body)
      (fun r s => if r.2 = true then D (acc ++ r.1) s else I (acc ++ r.1) s) := by
  intro s
  induction s using State.left_induction generalizing acc with
  | _ s ih =>
    intro hI
    cases ha : s.ahead with
    | nil =>
      rw [whileNext_nil ha]
      simpa using hI
    | cons t rest =>
      rw [whileNext_cons ha]
      split
      · rename_i hsep
        have hturn := hbody acc s.advance
          ⟨s, hI, by simp [ha], by rw [State.peek_of_cons ha, hsep], rfl⟩
        have hlt := Nat.lt_of_le_of_lt (body.left_le s.advance) (State.left_advance_lt ha)
        split
        · rename_i hnone
          rw [hnone] at hturn
          simpa [Turn] using hturn
        · rename_i items hsome
          rw [hsome] at hturn
          have hmore := ih _ hlt (acc ++ items) hturn
          simpa using hmore
      · simpa using hI

/-- A loop up to a token of some kind keeps `I`, which speaks of the items so far; where it ends,
`D` holds. -/
theorem ensures_untilKind {stop : TokenKind → Bool} {item : Parser (List α × Bool)}
    {I D : List α → State → Prop} (hstop : ∀ acc s, stop s.current.kind = true → I acc s → D acc s)
    (hitem : ∀ acc, Ensures (fun s => stop s.current.kind = false ∧ I acc s) item fun r s =>
      if r.2 = true ∨ s.ahead = [] then D (acc ++ r.1) s else I (acc ++ r.1) s.advance)
    (acc : List α) : Ensures (I acc) (untilKind stop item) fun r s => D (acc ++ r) s := by
  intro s
  induction s using State.left_induction generalizing acc with
  | _ s ih =>
    intro hI
    cases hk : stop s.current.kind with
    | true =>
      rw [untilKind_stop hk]
      simpa using hstop acc s hk hI
    | false =>
      rw [untilKind_turn hk]
      have hturn := hitem acc s ⟨hk, hI⟩
      dsimp only at hturn
      split
      · rename_i hlast
        rwa [if_pos hlast] at hturn
      · rename_i hgo
        rw [if_neg hgo] at hturn
        cases ha : (item.run s).2.ahead with
        | nil => exact absurd (.inr ha) hgo
        | cons t rest =>
          have hlt := Nat.lt_of_lt_of_le (State.left_advance_lt ha) (item.left_le s)
          have hmore := ih _ hlt _ hturn
          simpa using hmore

/-- The loop over operators behind an operand keeps `I`, and ends where no further operator belongs
to the expression. -/
theorem ensures_operators {sub : Nat → Parser Expr} {least : Nat} {I : Expr → State → Prop}
    (htail : ∀ left, Ensures (fun s' => ∃ s, I left s ∧ s.ahead ≠ [] ∧
        s.peek.kind ≠ .endOfText ∧ least < level s.peek.kind ∧ s' = s.advance)
      (operatorTail sub left) I) (left : Expr) :
    Ensures (I left) (operators sub least left) fun e s => I e s ∧
      (s.ahead = [] ∨ ¬(!e.isMissing ∧ s.peek.kind ≠ .endOfText ∧ least < level s.peek.kind)) := by
  intro s
  induction s using State.left_induction generalizing left with
  | _ s ih =>
    intro hI
    cases ha : s.ahead with
    | nil =>
      rw [operators_nil ha]
      exact ⟨hI, .inl ha⟩
    | cons t rest =>
      have hpeek := State.peek_of_cons ha
      rw [operators_cons ha]
      split
      · rename_i hgo
        have hlt := Nat.lt_of_le_of_lt ((operatorTail sub left).left_le s.advance)
          (State.left_advance_lt ha)
        rw [← hpeek] at hgo
        exact ih _ hlt _ (htail left _ ⟨s, hI, by simp [ha], hgo.2.1, hgo.2.2, rfl⟩)
      · rename_i hstop
        rw [← hpeek] at hstop
        exact ⟨hI, .inr hstop⟩

end Asm6510.Grammar
