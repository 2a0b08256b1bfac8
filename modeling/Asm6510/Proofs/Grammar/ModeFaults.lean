import Asm6510.Proofs.Grammar.Completeness
import Asm6510.Proofs.Grammar.Origins

/-!
# Reports of addressing modes

* `Reference.Refuses`: the operands that a mnemonic has no addressing mode for.
* `Blames`: a parser whose reports of addressing modes are about instructions that it gave.

Main statement: `parse_blamed`, every report of an addressing mode is about an instruction of the
program whose operand the reference refuses.
-/

namespace Asm6510

/-- The mnemonic has addressing modes, but none for the shape of the operand. -/
def Reference.Refuses (ref : Reference) (t : Token) (operand : Expr) : Prop :=
  ref.modesOf (Statement.mnemonicName t) ≠ [] ∧
    ∀ mode ∈ (OperandShape.ofOperand operand).acceptedModes,
      ref.supportsMode (Statement.mnemonicName t) mode = false

namespace Grammar

variable {α β : Type} {src : Source} {rules : Rules} {found : β → List Statement}

/-- The report is about one of the instructions, whose operand the reference refuses. -/
def Blamed (rules : Rules) (sts : List Statement) (d : Diagnostic) : Prop :=
  ∃ t operand, .instruction t operand ∈ Statement.preorders sts ∧
    (∃ ref ∈ rules.ref, ref.Refuses t operand) ∧ d = modeFault t operand

/-- The reports of addressing modes are about instructions among the statements found. -/
def Blames (src : Source) (rules : Rules) (p : Parser α) (found : α → List Statement) : Prop :=
  ∀ s, s.Within src → ∀ d ∈ (p.run s).2.diagnostics, d.IsModeFault →
    d ∈ s.diagnostics ∨ Blamed rules (found (p.run s).1) d

theorem Blamed.mono {sts sts' : List Statement} {d : Diagnostic} (h : Blamed rules sts d)
    (hsub : Statement.preorders sts ⊆ Statement.preorders sts') : Blamed rules sts' d := by
  obtain ⟨t, operand, hst, hrest⟩ := h
  exact ⟨t, operand, hsub hst, hrest⟩

/-- What expressions do is no report of an addressing mode. -/
theorem Along.blames {p : Parser β} {P : β → Prop} (hp : Along src false p P) :
    Blames src rules p found :=
  fun s hs _ hd hfault => .inl ((hp s hs).1.mem_of_isModeFault hd hfault)

theorem Along.thenBlames {p : Parser α} {P : α → Prop} {f : α → Parser β}
    (hp : Along src false p P) (hf : ∀ a, P a → Blames src rules (f a) found) :
    Blames src rules (p >>= f) found := by
  intro s hs d hd hfault
  obtain ⟨hrun, ha⟩ := hp s hs
  exact (hf _ ha _ (hrun.within hs) d hd hfault).imp_left fun h =>
    hrun.mem_of_isModeFault h hfault

/-- What is found goes into a larger result. -/
theorem Blames.map {p : Parser α} {g : α → β} {found' : α → List Statement}
    (hp : Blames src rules p found')
    (hsub : ∀ a, Statement.preorders (found' a) ⊆ Statement.preorders (found (g a))) :
    Blames src rules (do let a ← p; return g a) found :=
  fun s hs d hd hfault => (hp s hs d hd hfault).imp_right fun h => h.mono (hsub _)

theorem preorders_body_subset (st : Statement) :
    Statement.preorders st.body ⊆ Statement.preorders [st] := by
  intro u hu
  exact Statement.mem_preorders.2 ⟨st, List.mem_singleton_self _,
    Statement.mem_preorder.2 (.inr hu)⟩

section Statements

variable {expr : Parser Expr} {block : Token → Parser Braces} {t : Token}

theorem blames_optionalBlock
    (hblock : ∀ opening ∈ src.tokens, Blames src rules (block opening) Braces.body) :
    Blames src rules (optionalBlock block) blockBody := by
  refine (along_nextIs _).thenBlames fun opened _ => ?_
  split
  · exact along_advance.thenBlames fun opening hopening =>
      (hblock opening hopening).map fun _ => List.Subset.refl _
  · exact (along_pure (P := anything) trivial).blames

theorem blames_requiredBlock
    (hblock : ∀ opening ∈ src.tokens, Blames src rules (block opening) Braces.body) :
    Blames src rules (requiredBlock block t) blockBody := by
  refine (along_nextIs _).thenBlames fun opened _ => ?_
  split
  · exact blames_optionalBlock hblock
  · exact ((along_reportNext (.around (by decide) _ _)).bind fun _ _ =>
      along_pure (P := anything) trivial).blames

/-- A directive with the block that may be behind its header. -/
theorem blames_ofDirective {p : Parser (Option Braces)} (hp : Blames src rules p blockBody)
    (d : Directive) :
    Blames src rules (do let body ← p; return Statement.ofDirective d body) fun st => [st] := by
  refine hp.map fun b => ?_
  rw [← body_ofDirective d b]
  exact preorders_body_subset _

theorem Framed.blames {V : Expr → Prop} {block' : Token → Parser Braces} {p q : Parser Statement}
    (h : Framed (.still src false false) V t block block' p q)
    (hblock : ∀ opening ∈ src.tokens, Blames src rules (block opening) Braces.body) :
    Blames src rules p fun st => [st] := by
  induction h with
  | plain => exact (along_pure (P := anything) trivial).blames
  | members => exact (along_pure (P := anything) trivial).blames
  | optional => exact blames_ofDirective (blames_optionalBlock hblock) _
  | required => exact blames_ofDirective (blames_requiredBlock hblock) _
  | behind hp _ ih => exact hp.along.thenBlames ih

theorem run_checkMode_of_refuses {ref : Reference} (href : rules.ref = some ref) {operand : Expr}
    (h : ref.Refuses t operand) (s : State) :
    ((checkMode rules t operand).run s).2 = s.add (modeFault t operand) := by
  have hchecked : ((ref.modesOf (Statement.mnemonicName t)).isEmpty ||
      (OperandShape.ofOperand operand).acceptedModes.any
        (ref.supportsMode (Statement.mnemonicName t))) = false := by
    rw [Bool.or_eq_false_iff, List.any_eq_false]
    exact ⟨List.isEmpty_eq_false_iff.2 h.1, fun mode hmode => Bool.eq_false_iff.1 (h.2 mode hmode)⟩
  unfold checkMode
  rw [href]
  dsimp only
  rw [if_neg (Bool.eq_false_iff.1 hchecked)]
  rfl

theorem run_checkMode_of_not_refuses {operand : Expr}
    (h : ∀ ref ∈ rules.ref, ¬ ref.Refuses t operand) (s : State) :
    ((checkMode rules t operand).run s).2 = s := by
  unfold checkMode
  split
  · rfl
  · rename_i ref href
    dsimp only
    split
    · rfl
    · rename_i hchecked
      rw [Bool.not_eq_true, Bool.or_eq_false_iff, List.any_eq_false] at hchecked
      refine absurd ⟨List.isEmpty_eq_false_iff.1 hchecked.1, fun mode hmode => ?_⟩ (h ref href)
      exact Bool.eq_false_iff.2 (hchecked.2 mode hmode)

theorem blames_checkMode (operand : Expr) :
    Blames src rules (do checkMode rules t operand; return Statement.instruction t operand)
      fun st => [st] := by
  intro s _ d hd hfault
  have hd : d ∈ ((checkMode rules t operand).run s).2.diagnostics := hd
  by_cases hrefuses : ∃ ref ∈ rules.ref, ref.Refuses t operand
  · have hrefused := hrefuses
    obtain ⟨ref, href, hmodes⟩ := hrefuses
    rw [run_checkMode_of_refuses href hmodes] at hd
    refine (List.mem_append.1 hd).imp_right fun hnew => ?_
    exact ⟨t, operand, Statement.mem_preorders.2 ⟨_, List.mem_singleton_self _,
      Statement.mem_preorder_self _⟩, hrefused, List.mem_singleton.1 hnew⟩
  · rw [run_checkMode_of_not_refuses fun ref href hmodes => hrefuses ⟨ref, href, hmodes⟩] at hd
    exact .inl hd

variable {V : Expr → Prop} (hexpr : Abreast (.still src false false) false expr expr id V)
include hexpr

theorem blames_instruction : Blames src rules (instruction rules expr t) fun st => [st] := by
  refine along_hasValueOnLine.thenBlames fun valued _ => ?_
  split
  · intro s hs
    have hread : ∀ operand, Blames src rules (readOperand rules t s operand) fun st => [st] := by
      intro operand r hr
      rw [readOperand_run]
      split
      · exact blames_checkMode operand r hr
      · exact fun d hd _ => .inl hd
    have hall : Blames src rules (_ >>= readOperand rules t s) fun st => [st] :=
      (abreast_nextOperand hexpr).along.thenBlames fun operand _ => hread operand
    exact hall s hs
  · exact blames_checkMode .missing

theorem blames_statement
    (hblock : ∀ opening ∈ src.tokens, Blames src rules (block opening) Braces.body) :
    Blames src rules (statement rules expr block) Option.toList := by
  have hsome : ∀ {p : Parser Statement}, Blames src rules p (fun st => [st]) →
      Blames src rules (do return some (← p)) Option.toList :=
    fun hp => hp.map fun _ => List.Subset.refl _
  have hnone : Blames src rules (pure none) Option.toList :=
    (along_pure (P := anything) trivial).blames
  refine along_current.thenBlames fun t ht => ?_
  split
  · exact (along_pure (P := anything) trivial).blames
  · exact hsome (blames_instruction hexpr)
  · exact hsome (abreast_programCounter (B := anything) hexpr ht).along.blames
  · refine (along_nextIs _).thenBlames fun equal _ => ?_
    split
    · exact along_advance.thenBlames fun _ _ =>
        hsome (abreast_programCounter (B := anything) hexpr ht).along.blames
    · exact hnone
  · have hframed : Framed (.still src false false) V t block block _ _ := framed_directive ht hexpr
    exact hsome (hframed.blames hblock)
  · rename_i hk
    have hname : t.NameIn src.tokens := ⟨ht, by rw [hk]; rfl⟩
    refine (along_nextIs _).thenBlames fun called _ => ?_
    split
    · exact hsome (abreast_macroCall (B := anything) hexpr hname).along.blames
    · refine along_hasValueOnLine.thenBlames fun valued _ => ?_
      split
      · exact hsome (abreast_pseudocommandCall (B := anything) hexpr hname).along.blames
      · exact hnone
  · exact ((abreast_builtinCall hexpr t).along.bind fun _ _ =>
      along_pure (P := anything) trivial).blames
  · exact (hblock t ht).map fun b => preorders_body_subset (.block b.opening b.body b.closing)
  · exact (hexpr.along.bind fun _ _ => along_pure (P := anything) trivial).blames
  · exact hnone

end Statements

/-- Every turn of a loop over statements blames statements that it found. -/
theorem blames_statements {stop : TokenKind → Bool} {room : Nat}
    (hitem : Blames src rules (statementAt rules room) Option.toList) :
    Blames src rules (statements stop (statementAt rules room)) id := by
  intro s hs
  let I : List Statement → State → Prop := fun acc s' => s'.Within src ∧
    ∀ d ∈ s'.diagnostics, d.IsModeFault → d ∈ s.diagnostics ∨ Blamed rules acc d
  have hturn : ∀ acc, Ensures (fun s' => stop s'.current.kind = false ∧ I acc s')
      (statementTurn (statementAt rules room)) fun r s' =>
        if r.2 = true ∨ s'.ahead = [] then I (acc ++ r.1) s' else I (acc ++ r.1) s'.advance := by
    rintro acc s' ⟨-, hs', hacc⟩
    have hwithin := (along_statementTurn rules room s' hs').1.within hs'
    have hafter : ∀ d ∈ ((statementTurn (statementAt rules room)).run s').2.diagnostics,
        d.IsModeFault → d ∈ s.diagnostics ∨
          Blamed rules (acc ++ ((statementTurn (statementAt rules room)).run s').1.1) d := by
      intro d hd hfault
      have hstart : ({ s' with unwinding := false } : State).Within src := hs'
      rcases hitem _ hstart d hd hfault with hbefore | hnew
      · refine (hacc d hbefore hfault).imp_right fun h => h.mono ?_
        rw [Statement.preorders_append]
        exact List.subset_append_left _ _
      · refine .inr (hnew.mono ?_)
        rw [Statement.preorders_append]
        exact List.subset_append_right _ _
    split
    · exact ⟨hwithin, hafter⟩
    · refine ⟨hwithin.advance, ?_⟩
      rw [State.diagnostics_advance]
      exact hafter
  rw [statements_eq]
  exact (ensures_untilKind (fun _ _ _ h => h) hturn [] s ⟨hs, fun _ hd _ => .inl hd⟩).2

theorem blames_block (rules : Rules) (room : Nat) {opening : Token} (ht : opening ∈ src.tokens) :
    Blames src rules (block rules room opening) Braces.body := by
  induction room generalizing opening with
  | zero =>
    have hskip : Along src false (skipBlock opening) anything :=
      (abreast_skipBlock (w := .still src false false) layers_from ht).along.steps
    exact ((along_reportDepth rules (.inl ⟨opening, ht, rfl⟩)).bind fun _ _ => hskip).blames
  | succ room ih =>
    have hitem : Blames src rules (statementAt rules room) Option.toList :=
      blames_statement (abreast_expression_self rules room (Nat.le_refl _)) fun _ => ih
    exact along_advance.thenBlames fun _ _ => blames_statements hitem

theorem blames_program (rules : Rules) (src : Source) :
    Blames src rules (program rules src.overflow) id := by
  have hitem : Blames src rules (statementAt rules rules.limit) Option.toList :=
    blames_statement (abreast_expression_self rules rules.limit (Nat.le_refl _))
      fun _ => blames_block rules rules.limit
  unfold program
  split
  · rename_i place hp
    exact (along_reportDepth rules (.inr hp)).thenBlames fun _ _ => blames_statements hitem
  · exact blames_statements hitem

end Grammar

open Grammar

variable {ref : Option Reference} {lexLimit limit : Int} {text : String} {parsed : Parsed}

/-- **Every report of an addressing mode is about an instruction of the program** whose operand the
reference refuses. -/
theorem parse_blamed (h : parse ref lexLimit limit text = .ok parsed) {d : Diagnostic}
    (hd : d ∈ parsed.diagnostics) (hfault : d.IsModeFault) :
    Blamed ⟨depthBound limit, ref⟩ parsed.program.statements d := by
  obtain ⟨first, rest, -, -, rfl⟩ := parse_ok h
  have hall := blames_program ⟨depthBound limit, ref⟩
    ⟨first :: rest, (tokenize ref lexLimit text).2.nesting.overflow⟩ (State.start first rest)
    List.suffix_rfl
  exact (hall d hd hfault).resolve_left List.not_mem_nil

end Asm6510
