import Asm6510.Proofs.Grammar.Loops
import Mathlib.Logic.Relation

/-!
# The steps of a parse

Every parser of the grammar is a sequence of a few kinds of steps: it moves on by one token, adds a
message, or sets a flag.

* `Source`: what a parse is given.
* `Ordinary`: messages about neither the bound of the nesting nor an addressing mode.
* `Step`, `Run`: one step, and any number of them.
* `Along`: a parser whose runs are made of steps, and what its results satisfy.

What a whole parse keeps follows from what one step keeps: `Run.suffix`, `Run.diagnostics_prefix`,
`Run.unwinding_eq_false`, `Run.unbounded_token`, `Run.tally`, `Run.mem_of_isModeFault`.
-/

namespace Asm6510

/-! ## Messages -/

/-- The words that a report of the bound of the nesting starts with. -/
def depthWords : String :=
  "Maximum nesting depth"

/-- Whether the diagnostic reports the bound of the nesting. -/
def Diagnostic.isDepthError (d : Diagnostic) : Bool :=
  d.isError && Text.startsWith d.message "Maximum nesting depth"

/-- The words that a report of an addressing mode starts with. -/
def modeWords : String :=
  "Invalid addressing mode '"

/-- A report of an addressing mode. -/
def Diagnostic.IsModeFault (d : Diagnostic) : Prop :=
  Text.startsWith d.message modeWords = true

/-- The report that a mnemonic has no addressing mode for the shape of an operand. -/
def modeFault (t : Token) (operand : Expr) : Diagnostic :=
  .atPlace .error
    (modeWords ++ (OperandShape.ofOperand operand).modeName ++ "' for instruction '" ++
      Statement.mnemonicName t ++ "'")
    t.place .grammar t.literal.length

namespace Grammar

/-- The message and the words differ at some character. -/
def Diverges (words message : String) : Prop :=
  ¬ words.toList <+: message.toList ∧ ¬ message.toList <+: words.toList

instance (words message : String) : Decidable (Diverges words message) :=
  inferInstanceAs (Decidable (_ ∧ _))

theorem Diverges.append {words a : String} (h : Diverges words a) (b : String) :
    Diverges words (a ++ b) := by
  unfold Diverges
  rw [String.toList_append]
  have hfront : a.toList <+: a.toList ++ b.toList := List.prefix_append _ _
  constructor
  · exact fun hwords => (List.prefix_or_prefix_of_prefix hwords hfront).elim h.1 h.2
  · exact fun hmessage => h.2 (hfront.trans hmessage)

theorem Diverges.startsWith {words message : String} (h : Diverges words message) :
    Text.startsWith message words = false :=
  Bool.eq_false_iff.2 fun hstarts => h.1 (List.isPrefixOf_iff_prefix.1 hstarts)

theorem Diverges.isDepthError {d : Diagnostic} (h : Diverges depthWords d.message) :
    d.isDepthError = false := by
  show (d.isError && Text.startsWith d.message depthWords) = false
  rw [h.startsWith, Bool.and_false]

/-- A message about neither the bound of the nesting nor an addressing mode. -/
structure Ordinary (message : String) : Prop where
  depth : Diverges depthWords message
  mode : Diverges modeWords message

instance (message : String) : Decidable (Ordinary message) :=
  decidable_of_iff (Diverges depthWords message ∧ Diverges modeWords message)
    ⟨fun h => ⟨h.1, h.2⟩, fun h => ⟨h.1, h.2⟩⟩

theorem Ordinary.append {a : String} (h : Ordinary a) (b : String) : Ordinary (a ++ b) :=
  ⟨h.depth.append b, h.mode.append b⟩

/-- A word between others. -/
theorem Ordinary.around {a : String} (h : Ordinary a) (word b : String) :
    Ordinary (a ++ word ++ b) :=
  (h.append word).append b

theorem isModeFault_modeFault (t : Token) (operand : Expr) : (modeFault t operand).IsModeFault := by
  refine List.isPrefixOf_iff_prefix.2 ?_
  simp only [modeFault, Diagnostic.atPlace, String.toList_append, List.append_assoc]
  exact List.prefix_append _ _

theorem modeFault_isDepthError (t : Token) (operand : Expr) :
    (modeFault t operand).isDepthError = false :=
  Diverges.isDepthError (.append (.append (.append (.append (by decide) _) _) _) _)

theorem isDepthError_atPlace (limit : Nat) (place : Place) :
    (Diagnostic.atPlace .error ("Maximum nesting depth of " ++ Text.decimal limit ++ " exceeded")
      place .grammar).isDepthError = true := by
  have hwords : depthWords.toList <+: "Maximum nesting depth of ".toList := by decide +kernel
  have hstart : Text.startsWith
      ("Maximum nesting depth of " ++ Text.decimal limit ++ " exceeded") depthWords = true := by
    rw [Text.startsWith, List.isPrefixOf_iff_prefix, String.toList_append, String.toList_append,
      List.append_assoc]
    exact hwords.trans (List.prefix_append _ _)
  exact hstart

end Grammar

end Asm6510

namespace Asm6510.Grammar

/-- What a parse is given: its tokens, and the place of a nesting bound that the lexer met. -/
structure Source where
  tokens : List Token
  overflow : Option Place

/-- A token outside of all constructs, with nothing noted about it. -/
def plainToken (kind : TokenKind) (literal : String) (line column : Nat) : Token :=
  ⟨kind, literal, ⟨line, column⟩, Context.normal, Note.none⟩

/-- The places that a message about the nesting can name. -/
def Source.Marks (src : Source) (place : Place) : Prop :=
  (∃ t ∈ src.tokens, t.place = place) ∨ src.overflow = some place

namespace State

/-- The state at the first token of a parse. -/
def start (first : Token) (rest : List Token) : State :=
  { current := first, ahead := rest, diagnostics := [], depthReported := false, unwinding := false
    unbounded := false }

def tokens (s : State) : List Token :=
  s.current :: s.ahead

/-- The tokens from the current one on are the last ones of a source. -/
def Within (src : Source) (s : State) : Prop :=
  s.tokens <:+ src.tokens

theorem current_mem {src : Source} {s : State} (h : s.Within src) : s.current ∈ src.tokens :=
  h.subset List.mem_cons_self

theorem peek_mem {src : Source} {s : State} (h : s.Within src) : s.peek ∈ src.tokens := by
  cases ha : s.ahead with
  | nil => rw [peek_of_nil ha]; exact current_mem h
  | cons t rest =>
    rw [peek_of_cons ha]
    exact h.subset (by simp [tokens, ha])

end State

/-! ## Steps -/

/-- One step of a parse. Messages are silenced by `unwind`, behind the report of the nesting bound.
What only statements do is told by `again`: they take that back, and they check operands. -/
inductive Step (src : Source) (again : Bool) : State → State → Prop
  | move {s : State} {t : Token} {rest : List Token} (h : s.ahead = t :: rest) :
      Step src again s { s with current := t, ahead := rest }
  | report {s : State} {t : Token} {message : String} (ht : t ∈ src.tokens)
      (hm : Ordinary message) :
      Step src again s (s.add (.atPlace .error message t.place .grammar))
  | fault {s : State} {t : Token} (h : again = true) (ht : t ∈ src.tokens) (operand : Expr) :
      Step src again s (s.add (modeFault t operand))
  | depth {s : State} {place : Place} (hs : s.depthReported = false) (hp : src.Marks place)
      (limit : Nat) :
      Step src again s
        { s.add (.atPlace .error ("Maximum nesting depth of " ++ Text.decimal limit ++ " exceeded")
            place .grammar) with depthReported := true }
  | unwind {s : State} (h : s.depthReported = true) :
      Step src again s { s with unwinding := true }
  | resume {s : State} (h : again = true) : Step src again s { s with unwinding := false }
  | unbounded {s : State} {t : Token} {radix : Radix} (ht : t ∈ src.tokens)
      (hk : t.kind = .number radix) (hv : numberValue radix t.literal = .unbounded) :
      Step src again s { s with unbounded := true }

/-- Any number of steps. -/
abbrev Run (src : Source) (again : Bool) : State → State → Prop :=
  Relation.ReflTransGen (Step src again)

section Runs

variable {src : Source} {again : Bool} {s s' : State}

theorem Step.suffix (h : Step src again s s') : s'.tokens <:+ s.tokens := by
  cases h with
  | move h =>
    rw [State.tokens, State.tokens, h]
    exact List.suffix_cons _ _
  | report | fault | depth | unwind | resume | unbounded => exact List.suffix_rfl

theorem Run.suffix (h : Run src again s s') : s'.tokens <:+ s.tokens := by
  induction h with
  | refl => exact List.suffix_rfl
  | tail _ hs ih => exact hs.suffix.trans ih

theorem Run.within (h : Run src again s s') (hs : s.Within src) : s'.Within src :=
  h.suffix.trans hs

theorem Run.diagnostics_prefix (h : Run src again s s') : s.diagnostics <+: s'.diagnostics := by
  induction h with
  | refl => exact List.prefix_rfl
  | tail _ hs ih =>
    refine ih.trans ?_
    cases hs with
    | move | unwind | resume | unbounded => exact List.prefix_rfl
    | report | fault | depth => exact List.prefix_append _ _

/-- Inside a statement, messages that are not silenced were never silenced. -/
theorem Run.unwinding_eq_false (h : Run src false s s') (hs : s'.unwinding = false) :
    s.unwinding = false := by
  induction h with
  | refl => exact hs
  | tail _ hstep ih =>
    apply ih
    cases hstep with
    | move | report | fault | depth | unbounded => exact hs
    | unwind => cases hs
    | resume h => cases h

/-- Messages are silenced only behind the report of the nesting bound. -/
theorem Run.depthReported (h : Run src again s s')
    (hs : s.unwinding = true → s.depthReported = true) :
    s'.unwinding = true → s'.depthReported = true := by
  induction h with
  | refl => exact hs
  | tail _ hstep ih =>
    cases hstep with
    | move | report | fault | unbounded => exact ih
    | depth => exact fun _ => rfl
    | unwind h => exact fun _ => h
    | resume => exact fun h => nomatch h

theorem Run.unbounded_eq_false (h : Run src again s s') (hs : s'.unbounded = false) :
    s.unbounded = false := by
  induction h with
  | refl => exact hs
  | tail _ hstep ih =>
    apply ih
    cases hstep with
    | move | report | fault | depth | unwind | resume => exact hs
    | unbounded => cases hs

/-- What expressions do, statements may do as well. -/
theorem Run.raise (h : Run src false s s') (again : Bool) : Run src again s s' := by
  induction h with
  | refl => exact .refl
  | tail _ hstep ih =>
    refine ih.tail ?_
    cases hstep with
    | move h => exact .move h
    | report ht hm => exact .report ht hm
    | fault h => cases h
    | depth hs hp limit => exact .depth hs hp limit
    | unwind h => exact .unwind h
    | resume h => cases h
    | unbounded ht hk hv => exact .unbounded ht hk hv

/-- The report of the nesting bound is never taken back. -/
theorem Run.reported (h : Run src again s s') (hs : s.depthReported = true) :
    s'.depthReported = true := by
  induction h with
  | refl => exact hs
  | tail _ hstep ih =>
    cases hstep with
    | move | report | fault | unwind | resume | unbounded => exact ih
    | depth => rfl

/-- The bound of the nesting is reported as often as it is noted, which is at most once. -/
theorem Run.tally (h : Run src again s s')
    (hs : s.diagnostics.countP Diagnostic.isDepthError = s.depthReported.toNat) :
    s'.diagnostics.countP Diagnostic.isDepthError = s'.depthReported.toNat := by
  induction h with
  | refl => exact hs
  | tail _ hstep ih =>
    cases hstep with
    | move | unwind | resume | unbounded => exact ih
    | report ht hm =>
      rw [State.add, List.countP_append, ih, List.countP_singleton, hm.depth.isDepthError]
      rfl
    | fault _ ht operand =>
      rw [State.add, List.countP_append, ih, List.countP_singleton, modeFault_isDepthError]
      rfl
    | depth hnot hp limit =>
      rw [State.add, List.countP_append, ih, List.countP_singleton, isDepthError_atPlace, hnot]
      rfl

/-- Inside expressions no addressing mode is reported. -/
theorem Run.mem_of_isModeFault (h : Run src false s s') {d : Diagnostic}
    (hd : d ∈ s'.diagnostics) (hfault : d.IsModeFault) : d ∈ s.diagnostics := by
  have hother : ∀ {message : String} {place : Place}, Diverges modeWords message →
      d ≠ .atPlace .error message place .grammar := by
    rintro message place hm rfl
    exact Bool.false_ne_true (hm.startsWith.symm.trans hfault)
  induction h with
  | refl => exact hd
  | tail _ hstep ih =>
    apply ih
    cases hstep with
    | move | unwind | resume | unbounded => exact hd
    | report ht hm =>
      exact (List.mem_append.1 hd).elim id fun hnew =>
        absurd (List.mem_singleton.1 hnew) (hother hm.mode)
    | fault h => cases h
    | depth hs hp limit =>
      refine (List.mem_append.1 hd).elim id fun hnew => absurd (List.mem_singleton.1 hnew) ?_
      exact hother (.append (.append (by decide) _) _)

end Runs

/-! ## Parsers made of steps -/

/-- From every state within the source, the parser takes steps, and its result satisfies `Q`. -/
def Along (src : Source) (again : Bool) {α : Type} (p : Parser α) (Q : α → Prop) : Prop :=
  ∀ s : State, s.Within src → Run src again s (p.run s).2 ∧ Q (p.run s).1

/-- Nothing is said about a result. -/
def anything {α : Type} (_ : α) : Prop := True

section Rules

variable {src : Source} {again : Bool} {α β : Type} {p : Parser α} {P : α → Prop} {Q : β → Prop}

theorem along_pure {a : α} (h : P a) : Along src again (pure a) P :=
  fun _ _ => ⟨.refl, h⟩

theorem Along.bind {f : α → Parser β} (hp : Along src again p P)
    (hf : ∀ a, P a → Along src again (f a) Q) : Along src again (p >>= f) Q := by
  intro s hs
  obtain ⟨hrun, ha⟩ := hp s hs
  obtain ⟨hrun', hb⟩ := hf _ ha _ (hrun.within hs)
  exact ⟨hrun.trans hrun', hb⟩

theorem Along.mono {P' : α → Prop} (h : Along src again p P) (hP : ∀ a, P a → P' a) :
    Along src again p P' :=
  fun s hs => ⟨(h s hs).1, hP _ (h s hs).2⟩

theorem Along.steps (h : Along src again p P) : Along src again p anything :=
  h.mono fun _ _ => trivial

theorem along_current : Along src again current (· ∈ src.tokens) :=
  fun _ hs => ⟨.refl, State.current_mem hs⟩

theorem along_peek : Along src again peek (· ∈ src.tokens) :=
  fun _ hs => ⟨.refl, State.peek_mem hs⟩

theorem run_advance (s : State) : Run src again s s.advance := by
  cases h : s.ahead with
  | nil => rw [State.advance_of_nil h]
  | cons t rest =>
    rw [State.advance_of_cons h]
    exact .single (.move h)

theorem State.Within.advance {s : State} (h : s.Within src) : s.advance.Within src :=
  (show Run src false s s.advance from run_advance s).within h

theorem along_advance : Along src again advance (· ∈ src.tokens) :=
  fun s hs => ⟨run_advance s, State.current_mem hs.advance⟩

theorem along_nextIs (kind : TokenKind) : Along src again (nextIs kind) anything :=
  fun _ _ => ⟨.refl, trivial⟩

theorem along_hasValueOnLine : Along src again hasValueOnLine anything :=
  fun _ _ => ⟨.refl, trivial⟩

theorem State.advance_current (s : State) : s.advance.current = s.peek := by
  unfold State.advance State.peek
  cases s.ahead <;> rfl

theorem State.advance_advance_current (s : State) : s.advance.advance.current = s.peekSecond := by
  obtain ⟨current, ahead, diagnostics, depthReported, unwinding, unbounded⟩ := s
  rcases ahead with _ | ⟨t, _ | ⟨u, rest⟩⟩ <;> rfl

theorem along_reportAt {t : Token} (ht : t ∈ src.tokens) {message : String}
    (hm : Ordinary message) : Along src again (reportAt t message) anything := by
  intro s _
  refine ⟨?_, trivial⟩
  show Run src again s (if s.unwinding then s else _)
  split
  · exact .refl
  · exact .single (.report ht hm)

theorem along_reportHere {message : String} (hm : Ordinary message) :
    Along src again (reportHere message) anything :=
  along_current.bind fun _ ht => along_reportAt ht hm

theorem along_reportNext {message : String} (hm : Ordinary message) :
    Along src again (reportNext message) anything :=
  along_peek.bind fun _ ht => along_reportAt ht hm

theorem along_reportDepth (rules : Rules) {place : Place} (hp : src.Marks place) :
    Along src again (reportDepth rules place) anything := by
  intro s _
  refine ⟨?_, trivial⟩
  show Run src again s (if s.depthReported then s else _)
  split
  · exact .refl
  · rename_i hs
    exact .single (.depth (by simpa using hs) hp rules.limit)

theorem along_resume : Along src true (setUnwinding false) anything :=
  fun _ _ => ⟨.single (.resume rfl), trivial⟩

theorem along_noteUnbounded {t : Token} {radix : Radix} (ht : t ∈ src.tokens)
    (hk : t.kind = .number radix) (hv : numberValue radix t.literal = .unbounded) :
    Along src again noteUnbounded anything :=
  fun _ _ => ⟨.single (.unbounded ht hk hv), trivial⟩

/-- Operands are checked by statements. -/
theorem along_checkMode (rules : Rules) {t : Token} (ht : t ∈ src.tokens) (operand : Expr) :
    Along src true (checkMode rules t operand) anything := by
  unfold checkMode
  split
  · exact along_pure trivial
  · dsimp only
    split
    · exact along_pure trivial
    · exact fun _ _ => ⟨.single (.fault rfl ht operand), trivial⟩

end Rules

end Asm6510.Grammar
