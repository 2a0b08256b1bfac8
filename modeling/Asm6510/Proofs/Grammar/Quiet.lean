import Asm6510.Proofs.Grammar.Ensures
import Asm6510.Proofs.Grammar.Parsers

/-!
# Parsing without a message

What a parser promises when nothing was reported.

* `Quiet`: from one state to another nothing was reported or silenced.
* `Ends`: tokens that end in an end of the text.
* `Reads`: a parser takes steps and, from a state with `P`, if all was quiet, ends with `Q`. There
  is one rule for each step of the grammar's parsers; reporting is a step after which everything
  holds, so that a proof only follows the branches that read something.

Main statement: `reads_whileNext`, an invariant of the loop over items behind separators.
-/

namespace Asm6510.Grammar

variable {src : Source} {s s' s'' : State}

/-! ## Quiet runs -/

/-- Nothing was reported on the way from `s` to `s'`: no message was added, messages are not
silenced as they are behind nesting beyond the bound, and all numbers were in range. -/
structure Quiet (s s' : State) : Prop where
  heard : s'.unwinding = false
  bounded : s'.unbounded = false
  silent : s'.diagnostics = s.diagnostics

/-- What is quiet as a whole is quiet in both of its parts. -/
theorem Quiet.split (h : Quiet s s'') (h₁ : Run src false s s') (h₂ : Run src false s' s'') :
    Quiet s s' ∧ Quiet s' s'' := by
  have hle₁ := h₁.diagnostics_prefix
  have hle₂ := h₂.diagnostics_prefix
  have hsame : s'.diagnostics = s.diagnostics := by
    refine (hle₁.eq_of_length_le ?_).symm
    rw [← h.silent]
    exact hle₂.length_le
  refine ⟨⟨h₂.unwinding_eq_false h.heard, h₂.unbounded_eq_false h.bounded, hsame⟩, ?_⟩
  exact ⟨h.heard, h.bounded, h.silent.trans hsame.symm⟩

theorem not_quiet_reportHere (message : String) :
    ¬ Quiet s ((reportHere message).run s).2 := by
  intro h
  cases hu : s.unwinding with
  | true =>
    have hheard := h.heard
    simp only [reportHere, Parser.run_bind, reportAt, current, hu, if_true] at hheard
    cases hheard
  | false =>
    have hlen := congrArg List.length h.silent
    simp [reportHere, reportAt, current, hu, State.add] at hlen

/-! ## The next token -/

/-- Tokens that end in an end of the text. -/
def Ends (tokens : List Token) : Prop :=
  ∃ before last, tokens = before ++ [last] ∧ last.kind = .endOfText

theorem State.Within.ahead_ne_nil (hs : s.Within src) (he : Ends src.tokens)
    (hk : s.current.kind ≠ .endOfText) : s.ahead ≠ [] := by
  intro ha
  obtain ⟨before, last, htokens, hlast⟩ := he
  obtain ⟨skipped, hs⟩ := hs
  rw [State.tokens, ha, htokens] at hs
  obtain ⟨-, hl⟩ := List.append_inj' hs rfl
  cases hl
  exact hk hlast

theorem State.tokens_advance (h : s.ahead ≠ []) : s.advance.tokens = s.ahead := by
  cases ha : s.ahead with
  | nil => exact absurd ha h
  | cons t rest => rw [State.advance_of_cons ha, State.tokens]

theorem State.current_advance (h : s.ahead ≠ []) : s.advance.current = s.peek := by
  cases ha : s.ahead with
  | nil => exact absurd ha h
  | cons t rest => rw [State.advance_of_cons ha, State.peek_of_cons ha]

/-- Moving onto a token of a known kind that is not the end. -/
theorem State.Within.onto (hs : s.Within src) (he : Ends src.tokens) (hne : s.ahead ≠ [])
    {kind : TokenKind} (hk : s.peek.kind = kind) (hkind : kind ≠ .endOfText) :
    s.advance.current.kind = kind ∧ s.ahead = s.advance.current :: s.advance.ahead ∧
      s.advance.ahead ≠ [] := by
  have hcurrent : s.advance.current.kind = kind := by rw [State.current_advance hne, hk]
  refine ⟨hcurrent, (State.tokens_advance hne).symm, ?_⟩
  exact hs.advance.ahead_ne_nil he (hcurrent ▸ hkind)

/-! ## Rules -/

/-- The parser takes steps. If it starts from a state with `P` and nothing is reported, its result
and the state it ends in satisfy `Q`. -/
def Reads (src : Source) {α : Type} (P : State → Prop) (p : Parser α) (Q : α → State → Prop) :
    Prop :=
  ∀ s : State, s.Within src →
    Run src false s (p.run s).2 ∧ (P s → Quiet s (p.run s).2 → Q (p.run s).1 (p.run s).2)

variable {α β : Type} {P : State → Prop} {Q : β → State → Prop}

theorem Reads.pre {P' : State → Prop} {p : Parser β} (h : Reads src P p Q)
    (hP : ∀ s, s.Within src → P' s → P s) : Reads src P' p Q :=
  fun s hs => ⟨(h s hs).1, fun hp => (h s hs).2 (hP s hs hp)⟩

theorem Reads.post {Q' : β → State → Prop} {p : Parser β} (h : Reads src P p Q)
    (hQ : ∀ b s, s.Within src → Q b s → Q' b s) : Reads src P p Q' := by
  intro s hs
  obtain ⟨hrun, hq⟩ := h s hs
  exact ⟨hrun, fun hp hquiet => hQ _ _ (hrun.within hs) (hq hp hquiet)⟩

theorem Reads.pure {b : β} (h : ∀ s, s.Within src → P s → Q b s) :
    Reads src P (Pure.pure b) Q :=
  fun s hs => ⟨.refl, fun hp _ => h s hs hp⟩

theorem Reads.bind {M : α → State → Prop} {p : Parser α} {f : α → Parser β}
    (hp : Reads src P p M) (hf : ∀ a, Reads src (M a) (f a) Q) : Reads src P (p >>= f) Q := by
  intro s hs
  obtain ⟨hrun₁, hm⟩ := hp s hs
  obtain ⟨hrun₂, hq⟩ := hf (p.run s).1 _ (hrun₁.within hs)
  refine ⟨hrun₁.trans hrun₂, fun hP hquiet => ?_⟩
  obtain ⟨hquiet₁, hquiet₂⟩ := Quiet.split hquiet hrun₁ hrun₂
  exact hq (hm hP hquiet₁) hquiet₂

theorem Reads.current {f : Token → Parser β}
    (hf : ∀ t ∈ src.tokens, Reads src (fun s => s.current = t ∧ P s) (f t) Q) :
    Reads src P (Grammar.current >>= f) Q := by
  intro s hs
  obtain ⟨hrun, hq⟩ := hf s.current (State.current_mem hs) s hs
  exact ⟨hrun, fun hP hquiet => hq ⟨rfl, hP⟩ hquiet⟩

theorem Reads.peek {f : Token → Parser β}
    (hf : ∀ t, Reads src (fun s => s.peek = t ∧ P s) (f t) Q) :
    Reads src P (Grammar.peek >>= f) Q := by
  intro s hs
  obtain ⟨hrun, hq⟩ := hf s.peek s hs
  exact ⟨hrun, fun hP hquiet => hq ⟨rfl, hP⟩ hquiet⟩

theorem Reads.advance {M : Token → State → Prop} {f : Token → Parser β}
    (hM : ∀ s, s.Within src → P s → M s.advance.current s.advance)
    (hf : ∀ t, Reads src (M t) (f t) Q) : Reads src P (Grammar.advance >>= f) Q := by
  refine Reads.bind (M := M) (fun s hs => ?_) hf
  exact ⟨run_advance s, fun hP _ => hM s hs hP⟩

theorem Reads.advance_pure {b : β} (h : ∀ s, s.Within src → P s → Q b s.advance) :
    Reads src P (do let _ ← Grammar.advance; return b) Q :=
  Reads.advance (M := fun _ => Q b) h fun _ => Reads.pure fun _ _ hb => hb

/-- A parser known for every value of what `g` tells of the state it starts from, used where `P`
holds. -/
theorem Reads.call {γ : Type} {A : γ → State → Prop} {R : γ → β → State → Prop} {p : Parser β}
    (h : ∀ x, Reads src (A x) p (R x)) (g : State → γ)
    (hA : ∀ s, s.Within src → P s → A (g s) s) :
    Reads src P p (fun b s => ∃ s₀, s₀.Within src ∧ P s₀ ∧ R (g s₀) b s) := by
  intro s hs
  obtain ⟨hrun, hR⟩ := h (g s) s hs
  exact ⟨hrun, fun hP hquiet => ⟨s, hs, hP, hR (hA s hs hP) hquiet⟩⟩

/-- What holds behind a parser in any case holds behind a quiet one. -/
theorem Reads.also {R : β → State → Prop} {p : Parser β} (h : Reads src P p Q)
    (hR : ∀ s, R (p.run s).1 (p.run s).2) : Reads src P p fun b s => Q b s ∧ R b s := by
  intro s hs
  obtain ⟨hrun, hq⟩ := h s hs
  exact ⟨hrun, fun hP hquiet => ⟨hq hP hquiet, hR s⟩⟩

theorem Reads.byNext {kind : TokenKind} {f : Bool → Parser β}
    (hyes : Reads src (fun s => s.peek.kind = kind ∧ P s) (f true) Q)
    (hno : Reads src (fun s => s.peek.kind ≠ kind ∧ P s) (f false) Q) :
    Reads src P (nextIs kind >>= f) Q := by
  intro s hs
  rw [Parser.run_bind, show (nextIs kind).run s = (s.peek.kind == kind, s) from rfl]
  cases hk : s.peek.kind == kind with
  | true => exact ⟨(hyes s hs).1, fun hP hquiet => (hyes s hs).2 ⟨eq_of_beq hk, hP⟩ hquiet⟩
  | false => exact ⟨(hno s hs).1, fun hP hquiet => (hno s hs).2 ⟨ne_of_beq_false hk, hP⟩ hquiet⟩

theorem Reads.ifNext {kind : TokenKind} {f : Bool → Parser β}
    (hyes : Reads src (fun s => s.peek.kind = kind ∧ P s) (f true) Q)
    (hno : Reads src P (f false) Q) : Reads src P (nextIs kind >>= f) Q :=
  Reads.byNext hyes fun s hs => ⟨(hno s hs).1, fun h => (hno s hs).2 h.2⟩

/-- After a report there is nothing to prove. -/
theorem Reads.report {message : String} (hm : Ordinary message) {b : β} :
    Reads src P (do reportHere message; return b) Q := by
  refine Reads.bind (M := fun _ _ => False) (fun s hs => ?_) fun _ =>
    Reads.pure fun _ _ => False.elim
  exact ⟨(along_reportHere hm s hs).1, fun _ hquiet => not_quiet_reportHere message hquiet⟩

/-- A loop over items behind separators keeps `I`, which speaks of the items so far; where the body
stops it, it ends with `D`. -/
theorem reads_whileNext {separator : TokenKind} {body : Parser (Option (List α))}
    {I D : List α → State → Prop}
    (hbody : ∀ acc, Reads src
      (fun s' => ∃ s, s.Within src ∧ I acc s ∧ s.ahead ≠ [] ∧ s.peek.kind = separator ∧
        s' = s.advance)
      body (Turn I D acc)) (acc : List α) :
    Reads src (I acc) (whileNext separator body)
      (fun r s => if r.2 = true then D (acc ++ r.1) s else I (acc ++ r.1) s) := by
  intro s₀ hs₀
  -- what holds of the items so far holds if all was quiet since the loop was entered
  let since (J : List α → State → Prop) (items : List α) (s : State) : Prop :=
    Run src false s₀ s ∧ (I acc s₀ → Quiet s₀ s → J items s)
  have hturn : ∀ items, Ensures
      (fun s' => ∃ s, since I items s ∧ s.ahead ≠ [] ∧ s.peek.kind = separator ∧ s' = s.advance)
      body (Turn (since I) (since D) items) := by
    rintro items _ ⟨s, ⟨hrun, hkept⟩, hahead, hk, rfl⟩
    have hs := hrun.within hs₀
    have hadv : Run src false s s.advance := run_advance s
    obtain ⟨hbodyRun, hread⟩ := hbody items s.advance hs.advance
    have hquiet : I acc s₀ → Quiet s₀ (body.run s.advance).2 →
        Turn I D items (body.run s.advance).1 (body.run s.advance).2 := by
      intro hI hquiet
      obtain ⟨hfirst, hrest⟩ := hquiet.split hrun (hadv.trans hbodyRun)
      exact hread ⟨s, hs, hkept hI hfirst, hahead, hk, rfl⟩ (hrest.split hadv hbodyRun).2
    have hall := hrun.trans (hadv.trans hbodyRun)
    cases hitems : (body.run s.advance).1 with
    | none => exact ⟨hall, by rwa [hitems] at hquiet⟩
    | some more => exact ⟨hall, by rwa [hitems] at hquiet⟩
  have hloop := ensures_whileNext hturn acc s₀ ⟨.refl, fun hI _ => hI⟩
  dsimp only at hloop ⊢
  split at hloop
  · rename_i hstop
    rwa [if_pos hstop]
  · rename_i hgo
    rwa [if_neg hgo]

/-- A loop over items ends before a token that is no separator, unless its body stops it. -/
theorem whileNext_stops (separator : TokenKind) (body : Parser (Option (List α))) (s : State) :
    ((whileNext separator body).run s).1.2 = false →
      ((whileNext separator body).run s).2.ahead = [] ∨
        ((whileNext separator body).run s).2.peek.kind ≠ separator := by
  induction s using State.left_induction with
  | _ s ih =>
    cases ha : s.ahead with
    | nil =>
      rw [whileNext_nil ha]
      exact fun _ => .inl ha
    | cons t rest =>
      rw [whileNext_cons ha]
      split
      · split
        · intro h
          cases h
        · exact ih _ (Nat.lt_of_le_of_lt (body.left_le s.advance) (State.left_advance_lt ha))
      · rename_i ht
        intro _
        rw [State.peek_of_cons ha]
        exact .inr ht

end Asm6510.Grammar
