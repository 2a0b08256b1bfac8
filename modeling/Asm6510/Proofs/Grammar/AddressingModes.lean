import Asm6510.Proofs.Grammar.Ending
import Asm6510.Proofs.Grammar.ModeFaults
import Mathlib

/-!
# Addressing modes

An instruction whose operand was read without messages is checked against the modes of its mnemonic.

* `canonicalModes`: the canonical names of addressing modes.
* `OperandShape.matchedModes`: the canonical names that the check takes for those of a shape.
* `ReadFrom`: an instruction was read from a state of the parse.
* `ReadsClear`: an operand is absent, or it is read without messages.

Main statement: `parse_modeFault_iff`, an addressing mode is reported for such an instruction if and
only if the mnemonic has modes and none of their names is a matched one.
-/

namespace Asm6510

/-! ## Names of modes -/

/-- The canonical names of addressing modes. -/
def canonicalModes : List String :=
  ["Implied", "Accumulator", "Immediate", "Absolute", "Zeropage", "Relative", "Absolute,X",
    "Absolute,Y", "Zeropage,X", "Zeropage,Y", "Indirect", "(Indirect,X)", "(Indirect),Y"]

namespace OperandShape

/-- The shapes that operands have: index registers are `X` and `Y`. -/
def written : List OperandShape :=
  [implied, accumulator, immediate, plain, indexed "X", indexed "Y", indirect, indexedIndirect "X",
    indexedIndirect "Y", indirectIndexed "X", indirectIndexed "Y"]

/-- The modes that the check takes for those of the shape: the accepted ones, and where an index
register stands in parentheses or behind them, the mode with the register at the other place. -/
def matchedModes : OperandShape → List String
  | indexedIndirect r => ["(Indirect," ++ r ++ ")", "(Indirect)," ++ r]
  | indirectIndexed r => ["(Indirect)," ++ r, "(Indirect," ++ r ++ ")"]
  | shape => shape.acceptedModes

/-- The keys of canonical names differ, but for the place of the closing parenthesis. -/
theorem any_modeKey_eq {shape : OperandShape} (hshape : shape ∈ written) {name : String}
    (hname : name ∈ canonicalModes) :
    shape.acceptedModes.any (fun mode => Reference.modeKey name == Reference.modeKey mode) =
      shape.matchedModes.contains name := by
  have hall : ∀ shape ∈ written, ∀ name ∈ canonicalModes,
      shape.acceptedModes.any (fun mode => Reference.modeKey name == Reference.modeKey mode) =
        shape.matchedModes.contains name := by
    decide +kernel
  exact hall shape hshape name hname

end OperandShape

/-- With canonical names, an operand is refused if no mode has a matched name. -/
theorem Reference.refuses_iff {ref : Reference} {t : Token} {operand : Expr}
    (hmodes : ∀ mode ∈ ref.modesOf (Statement.mnemonicName t), mode.name ∈ canonicalModes)
    (hshape : OperandShape.ofOperand operand ∈ OperandShape.written) :
    ref.Refuses t operand ↔
      ref.modesOf (Statement.mnemonicName t) ≠ [] ∧
        ∀ mode ∈ ref.modesOf (Statement.mnemonicName t),
          mode.name ∉ (OperandShape.ofOperand operand).matchedModes := by
  refine and_congr_right fun _ => ?_
  have hname : ∀ mode ∈ ref.modesOf (Statement.mnemonicName t),
      (mode.name ∈ (OperandShape.ofOperand operand).matchedModes ↔
        ∃ accepted ∈ (OperandShape.ofOperand operand).acceptedModes,
          Reference.modeKey mode.name == Reference.modeKey accepted) := by
    intro mode hmode
    rw [← List.contains_iff_mem, ← OperandShape.any_modeKey_eq hshape (hmodes mode hmode),
      List.any_eq_true]
  simp only [Reference.supportsMode, List.any_eq_false]
  constructor
  · intro h mode hmode hmatched
    obtain ⟨accepted, haccepted, hkey⟩ := (hname mode hmode).1 hmatched
    exact h accepted haccepted mode hmode hkey
  · intro h accepted haccepted mode hmode hkey
    exact h mode hmode ((hname mode hmode).2 ⟨accepted, haccepted, hkey⟩)

namespace Grammar

variable {src : Source}

/-! ## Operands -/

theorem registerName_of_isIndexRegister {register : Token} (h : isIndexRegister register = true) :
    Expr.registerName register = "X" ∨ Expr.registerName register = "Y" := by
  simp only [isIndexRegister, Bool.and_eq_true, Bool.or_eq_true, beq_iff_eq] at h
  exact h.2

/-- What is written with tokens has one of the shapes. -/
theorem Yields.shape_mem {e : Expr} {ys : List Token} (h : Yields e ys) :
    OperandShape.ofOperand e ∈ OperandShape.written := by
  have hplain : OperandShape.plain ∈ OperandShape.written := by decide
  cases h with
  | name _ =>
    show (if _ then _ else _) ∈ _
    split
    · decide
    · decide
  | integer _ _ => exact hplain
  | string _ => exact hplain
  | programCounter _ => exact hplain
  | unary _ _ =>
    show (if _ then _ else _) ∈ _
    split
    · decide
    · decide
  | binary _ _ => exact hplain
  | @indexed comma register e _ _ _ hregister =>
    have hbase : OperandShape.ofOperand (.indexed comma e register) =
          .indirectIndexed (Expr.registerName register) ∨
        OperandShape.ofOperand (.indexed comma e register) =
          .indexed (Expr.registerName register) := by
      cases e with
      | group opening inner =>
        show (if _ then _ else _) = _ ∨ (if _ then _ else _) = _
        split
        · exact .inl rfl
        · exact .inr rfl
      | _ => exact .inr rfl
    rcases registerName_of_isIndexRegister hregister with hr | hr <;> rw [hr] at hbase <;>
      rcases hbase with hbase | hbase <;> rw [hbase] <;> decide
  | @group opening closing e _ he _ =>
    show (if _ then _ else _) ∈ _
    split
    · cases he with
      | indexed _ _ hregister =>
        show OperandShape.indexedIndirect _ ∈ _
        rcases registerName_of_isIndexRegister hregister with hr | hr <;> rw [hr] <;> decide
      | _ => show OperandShape.indirect ∈ _; decide
    · decide
  | builtin _ _ _ _ => exact hplain
  | call _ _ _ _ => exact hplain

def operandAhead (expr : Parser Expr) : Parser Expr := do
  let _ ← advance
  let operand ← expr
  indexedOperand operand

/-- The operand behind the current token is absent, or it is read without messages and within the
bound of the nesting. -/
def ReadsClear (expr : Parser Expr) (s : State) : Prop :=
  (hasValueOnLine.run s).1 = true →
    ((operandAhead expr).run s).2.diagnostics = s.diagnostics ∧
      ((operandAhead expr).run s).2.unwinding = false

theorem reads_indexedOperand (e : Expr) :
    Reads src (fun _ => ∃ ys, Yields e ys) (indexedOperand e) fun x _ => ∃ ys, Yields x ys := by
  intro s hs
  let indexed : Parser Expr := advance >>= fun comma => advance >>= fun register =>
    pure (.indexed comma e register)
  have hcases : (indexedOperand e).run s =
      (if s.peek.kind = .comma && isIndexRegister s.peekSecond then indexed
      else pure e).run s := rfl
  rw [hcases]
  split
  · rename_i hindex
    obtain ⟨hcomma, hregister⟩ := Bool.and_eq_true_iff.1 hindex
    have hcomma : s.peek.kind = .comma := of_decide_eq_true hcomma
    rw [← s.current_advance_eq] at hcomma
    rw [← s.advance_advance_current] at hregister
    refine ⟨(run_advance s).trans (run_advance _), ?_⟩
    rintro ⟨ys, he⟩ -
    exact ⟨_, .indexed he hcomma hregister⟩
  · exact ⟨.refl, fun he _ => he⟩

/-- An operand that is read without messages is written with tokens. -/
theorem reads_operandAhead (he : Ends src.tokens) (rules : Rules) (room : Nat) :
    Reads src (fun _ => True) (operandAhead (expression rules room lowest))
      fun e _ => ∃ ys, Yields e ys := by
  refine Reads.advance (M := fun _ _ => True) (fun _ _ _ => trivial) fun _ => ?_
  have hexpr := Reads.call (exact_expression he rules room).readsExpr
    (P := fun _ => True) State.tokens fun _ _ _ => rfl
  refine (hexpr.post fun e s _ hread => ?_).bind reads_indexedOperand
  obtain ⟨s₀, -, -, hspans, -⟩ := hread
  obtain ⟨ys, -, hwrites⟩ := hspans.source
  exact ⟨ys, hwrites.yields⟩

section Instructions

variable {rules : Rules} {expr : Parser Expr} {t : Token} {s : State}

theorem instruction_bare (h : (hasValueOnLine.run s).1 = false) :
    (instruction rules expr t).run s =
      (.instruction t .missing, ((checkMode rules t .missing).run s).2) := by
  rw [instruction, Parser.run_bind, h]
  rfl

/-- An instruction with an operand; only some operands are checked. -/
theorem instruction_valued (h : (hasValueOnLine.run s).1 = true) :
    (instruction rules expr t).run s =
      (.instruction t ((operandAhead expr).run s).1,
        if !((operandAhead expr).run s).1.isMissing &&
            ((operandAhead expr).run s).2.diagnostics.length == s.diagnostics.length &&
            !((operandAhead expr).run s).2.unwinding then
          ((checkMode rules t ((operandAhead expr).run s).1).run ((operandAhead expr).run s).2).2
        else ((operandAhead expr).run s).2) := by
  rw [instruction, Parser.run_bind, h, if_pos rfl]
  refine (apply_ite (fun p : Parser _ => p.run ((operandAhead expr).run s).2) _ _ _).trans ?_
  split
  · rename_i hchecked
    exact Prod.ext rfl (if_pos hchecked).symm
  · rename_i hchecked
    exact Prod.ext rfl (if_neg hchecked).symm

theorem unbounded_checkMode (operand : Expr) :
    ((checkMode rules t operand).run s).2.unbounded = s.unbounded := by
  unfold checkMode
  split
  · rfl
  · dsimp only
    split <;> rfl

section Clear

variable {room : Nat} {operand : Expr} (hclear : ReadsClear (expression rules room lowest) s)
  (he : Ends src.tokens) (hs : s.Within src)
  (hbounded : ((instruction rules (expression rules room lowest) t).run s).2.unbounded = false)
  (hmade : ((instruction rules (expression rules room lowest) t).run s).1 =
    .instruction t operand)
include hclear he hs hbounded hmade

/-- The operand of an instruction is absent, or it is written with tokens and checked. -/
theorem ReadsClear.run_cases :
    ((instruction rules (expression rules room lowest) t).run s).2.diagnostics =
        ((checkMode rules t operand).run s).2.diagnostics ∧
      (operand = .missing ∨ ∃ ys, Yields operand ys) := by
  cases hvalue : (hasValueOnLine.run s).1 with
  | false =>
    rw [instruction_bare hvalue] at hmade ⊢
    cases hmade
    exact ⟨rfl, .inl rfl⟩
  | true =>
    obtain ⟨hsilent, hheard⟩ := hclear hvalue
    rw [instruction_valued hvalue] at hmade hbounded ⊢
    cases hmade
    have hread : ((operandAhead (expression rules room lowest)).run s).2.unbounded = false := by
      dsimp only at hbounded
      split at hbounded
      · rwa [unbounded_checkMode] at hbounded
      · exact hbounded
    obtain ⟨ys, hyields⟩ :=
      (reads_operandAhead he rules room s hs).2 trivial ⟨hheard, hread, hsilent⟩
    refine ⟨?_, .inr ⟨ys, hyields⟩⟩
    dsimp only
    rw [hyields.isMissing_eq_false, hsilent, hheard, if_pos (by simp)]
    by_cases hrefuses : ∃ ref ∈ rules.ref, ref.Refuses t
        ((operandAhead (expression rules room lowest)).run s).1
    · obtain ⟨ref, href, hrefuses⟩ := hrefuses
      rw [run_checkMode_of_refuses href hrefuses, run_checkMode_of_refuses href hrefuses,
        State.add, State.add, hsilent]
    · have haccepts := fun ref href hrefuses' => hrefuses ⟨ref, href, hrefuses'⟩
      rw [run_checkMode_of_not_refuses haccepts, run_checkMode_of_not_refuses haccepts, hsilent]

end Clear

/-- Only an instruction is read as one. -/
theorem statement_instruction {block : Token → Parser Braces} {operand : Expr}
    (h : ((statement rules expr block).run s).1 = some (.instruction t operand)) :
    s.current = t ∧ (statement rules expr block).run s =
      (some ((instruction rules expr t).run s).1, ((instruction rules expr t).run s).2) := by
  have hread : Ensures (fun s' => s' = s) (statement rules expr block) fun r s' =>
      r = some (.instruction t operand) → s.current = t ∧
        (r, s') = (some ((instruction rules expr t).run s).1,
          ((instruction rules expr t).run s).2) := by
    refine Ensures.current fun u => ?_
    rintro _ ⟨rfl, rfl⟩ h
    split at h
    · cases h
    · obtain ⟨e, hmade⟩ : ∃ e, ((instruction rules expr _).run _).1 = .instruction _ e :=
        exists_instruction rules _ trivial
      have hsame := hmade.symm.trans (Option.some.inj h)
      cases hsame
      exact ⟨rfl, rfl⟩
    · obtain ⟨value, hmade⟩ : ∃ value, ((programCounter expr _).run _).1 =
          .directive ⟨_, none, [], value⟩ := exists_programCounter _ trivial
      cases hmade.symm.trans (Option.some.inj h)
    · rw [Parser.run_bind] at h
      split at h
      · obtain ⟨value, hmade⟩ : ∃ value, ((programCounter expr _).run _).1 =
            .directive ⟨_, none, [], value⟩ := exists_programCounter _ trivial
        cases hmade.symm.trans (Option.some.inj h)
      · cases h
    · obtain ⟨d, b, hmade, -⟩ : OfToken _ ((directive expr block _).run _).1 :=
        ofToken_directive _ trivial
      have hsame := hmade.symm.trans (Option.some.inj h)
      cases b <;> cases hsame
    · rw [Parser.run_bind] at h
      split at h
      · cases h
      · rw [Parser.run_bind] at h
        split at h <;> cases h
    · have hcall : (if ((builtinCall expr _).run _).1.isMissing then none
          else some (Statement.expression _ ((builtinCall expr _).run _).1)) =
            some (Statement.instruction t operand) := h
      split at hcall <;> cases hcall
    · cases h
    · cases h
    · cases h
  obtain ⟨hcurrent, hrun⟩ := hread s rfl h
  exact ⟨hcurrent, hrun⟩

end Instructions

/-! ## One statement for each token -/

section Heads

variable {ds : List Diagnostic} {tokens last : List Token}

theorem Header.heads_sublist {dir : Option Directive} {opening : Token} {inner : List Token}
    (h : Header src ds dir opening tokens inner) :
    ((dir.map Directive.token).toList ++ inner).Sublist tokens := by
  cases h with
  | bare => exact List.sublist_cons_self _ _
  | directive _ _ hrest =>
    have hinner := (List.suffix_cons _ _).trans hrest.suffix
    exact hinner.sublist.cons_cons _

/-- Labels, instructions and directives start at different tokens, in the order of the text. -/
theorem Items.heads_sublist {stop : TokenKind → Bool} {sts : List Statement}
    (h : Items src ds stop sts tokens last) : (Statement.heads sts ++ last).Sublist tokens := by
  induction h with
  | done => exact List.Sublist.refl _
  | @plain stop t st sts names rest behind last _ _ hplain hrest _ ih =>
    have hfirst : (Statement.heads st.toList).Sublist [t] := by
      rcases hplain.heads_eq with hone | ⟨hnone, -⟩
      · rw [hone]
      · rw [hnone]
        exact List.nil_sublist _
    rw [Statement.heads_append, List.append_assoc]
    exact hfirst.append (ih.trans hrest.suffix.sublist)
  | braced hheader _ _ hclose _ ihbody ih =>
    have hbehind := ih.trans hclose.suffix.sublist
    have hinner := ((List.Sublist.refl _).append hbehind).trans ihbody
    rw [Statement.heads_braced, List.append_assoc, List.append_assoc]
    exact ((List.Sublist.refl _).append hinner).trans hheader.heads_sublist
  | sealed hheader hsealed hclose _ ih =>
    have hinner := ih.trans (hclose.suffix.trans hsealed.suffix).sublist
    rw [Statement.heads_braced, List.append_assoc]
    exact ((List.Sublist.refl _).append hinner).trans hheader.heads_sublist

end Heads

end Grammar

open Grammar

variable {ref : Option Reference} {lexLimit limit : Int} {text : String} {parsed : Parsed}

theorem parse_heads_sublist (h : parse ref lexLimit limit text = .ok parsed) :
    (Statement.heads parsed.program.statements).Sublist parsed.stream := by
  obtain ⟨overflow, last, -, hitems⟩ := parse_items h
  exact (List.sublist_append_left _ _).trans hitems.heads_sublist

theorem parse_head_inj (h : parse ref lexLimit limit text = .ok parsed) {st st' : Statement}
    (hst : st ∈ Statement.preorders parsed.program.statements)
    (hst' : st' ∈ Statement.preorders parsed.program.statements) {t : Token}
    (ht : st.head? = some t) (ht' : st'.head? = some t) : st = st' := by
  have hnodup : (Statement.heads parsed.program.statements).Nodup :=
    (parse_heads_sublist h).nodup (parse_nodup h)
  have hapart := List.pairwise_filterMap.1 hnodup
  by_contra hne
  have hsymm : Std.Symm fun a b : Statement =>
      ∀ u, a.head? = some u → ∀ v, b.head? = some v → u ≠ v :=
    ⟨fun a b hab u hu v hv => (hab v hv u hu).symm⟩
  exact hapart.forall hst hst' hne t ht t ht' rfl

theorem parse_place_inj (h : parse ref lexLimit limit text = .ok parsed) {t u : Token}
    (ht : t ∈ parsed.stream) (hu : u ∈ parsed.stream) (hplace : t.place = u.place) : t = u := by
  refine List.inj_on_of_nodup_map ?_ ht hu hplace
  refine List.pairwise_map.2 ((parse_increasing h).imp fun hbefore heq => ?_)
  rw [heq, Place.before_iff] at hbefore
  omega

/-- The parse read the instruction `t` with its operand from the state `start`, and went on. -/
structure ReadFrom (parsed : Parsed) (rules : Rules) (room : Nat) (start : State) (t : Token)
    (operand : Expr) : Prop where
  room_le : room ≤ rules.limit
  within : start.tokens <:+ parsed.stream
  current : start.current = t
  heard : start.unwinding = false
  made : ((instruction rules (expression rules room lowest) t).run start).1 =
    .instruction t operand
  kept : ((instruction rules (expression rules room lowest) t).run start).2.diagnostics <+:
    parsed.diagnostics

theorem parse_readFrom (h : parse ref lexLimit limit text = .ok parsed) {t : Token}
    {operand : Expr}
    (hst : .instruction t operand ∈ Statement.preorders parsed.program.statements) :
    ∃ room start, ReadFrom parsed ⟨depthBound limit, ref⟩ room start t operand ∧
      ((instruction ⟨depthBound limit, ref⟩ (expression ⟨depthBound limit, ref⟩ room lowest)
        t).run start).2.unbounded = false := by
  obtain ⟨overflow, last, hlast, hbounded, horigins⟩ := parse_origin h
  obtain ⟨room, start, hroom, ⟨hwithin, -⟩, hheard, hmade, hto⟩ := horigins _ hst
  obtain ⟨hcurrent, hrun⟩ := statement_instruction hmade
  rw [statementAt, hrun] at hmade hto
  refine ⟨room, start, ⟨hroom, hwithin, hcurrent, hheard, Option.some.inj hmade, ?_⟩,
    hto.unbounded_eq_false hbounded⟩
  rw [← hlast]
  exact hto.diagnostics_prefix

/-- **Addressing modes are checked exactly, but for the place of a closing parenthesis.** Let the
modes of a mnemonic have canonical names, and let its operand be absent or read without messages.
Then a mode is reported at the mnemonic if and only if the mnemonic has modes and none of their
names is one that the shape of the operand matches; and this report names the shape. -/
theorem parse_modeFault_iff {ref : Reference} {lexLimit limit : Int} {text : String}
    {parsed : Parsed} (h : parse (some ref) lexLimit limit text = .ok parsed) {t : Token}
    {operand : Expr}
    (hst : .instruction t operand ∈ Statement.preorders parsed.program.statements)
    (hmodes : ∀ mode ∈ ref.modesOf (Statement.mnemonicName t), mode.name ∈ canonicalModes) :
    ∃ room start, ReadFrom parsed ⟨depthBound limit, some ref⟩ room start t operand ∧
      (ReadsClear (expression ⟨depthBound limit, some ref⟩ room lowest) start →
        ((∃ d ∈ parsed.diagnostics, d.IsModeFault ∧ d.range.start = t.place.toPosition) ↔
          ref.modesOf (Statement.mnemonicName t) ≠ [] ∧
            ∀ mode ∈ ref.modesOf (Statement.mnemonicName t),
              mode.name ∉ (OperandShape.ofOperand operand).matchedModes) ∧
        ∀ d ∈ parsed.diagnostics, d.IsModeFault → d.range.start = t.place.toPosition →
          d = modeFault t operand) := by
  obtain ⟨room, start, hread, hbounded⟩ := parse_readFrom h hst
  refine ⟨room, start, hread, fun hclear => ?_⟩
  -- a report at the mnemonic is about this instruction
  have hblamed : ∀ d ∈ parsed.diagnostics, d.IsModeFault → d.range.start = t.place.toPosition →
      ref.Refuses t operand ∧ d = modeFault t operand := by
    intro d hd hfault hplace
    obtain ⟨u, e, hu, ⟨ref', href, hrefuses⟩, rfl⟩ := parse_blamed h hd hfault
    have hheads : ∀ {v x}, .instruction v x ∈ Statement.preorders parsed.program.statements →
        v ∈ parsed.stream := fun hv =>
      (parse_heads_sublist h).subset (List.mem_filterMap.2 ⟨_, hv, rfl⟩)
    have hsame : u = t := parse_place_inj h (hheads hu) (hheads hst) (Ending.toPosition_inj hplace)
    subst hsame
    cases parse_head_inj h hu hst rfl rfl
    cases href
    exact ⟨hrefuses, rfl⟩
  obtain ⟨hchecked, hoperand⟩ := hclear.run_cases (parse_endsOnce h).ends
    (show start.Within ⟨parsed.stream, none⟩ from hread.within) hbounded hread.made
  have hshape : OperandShape.ofOperand operand ∈ OperandShape.written := by
    rcases hoperand with rfl | ⟨ys, hyields⟩
    · decide
    · exact hyields.shape_mem
  rw [← Reference.refuses_iff hmodes hshape]
  refine ⟨⟨?_, fun hrefuses => ?_⟩, fun d hd hfault hplace => (hblamed d hd hfault hplace).2⟩
  · rintro ⟨d, hd, hfault, hplace⟩
    exact (hblamed d hd hfault hplace).1
  · refine ⟨modeFault t operand, hread.kept.subset ?_, isModeFault_modeFault t operand, rfl⟩
    rw [hchecked, run_checkMode_of_refuses rfl hrefuses]
    exact List.mem_append_right _ (List.mem_singleton_self _)

/-! ## A load with one mode -/

def loadMnemonic (mode : String) : Mnemonic :=
  ⟨"LDA", "", "", [⟨"", mode, "", .number 2, ""⟩]⟩

/-- A reference that knows only the load. -/
def loadReference (mode : String) : Reference where
  mnemonics := ⟨[("LDA", loadMnemonic mode)]⟩
  directives := .empty
  preprocessor := .empty
  functions := .empty
  constants := .empty
  regions := []
  memory := ∅

def loadToken (mode : String) : Token :=
  { plainToken (.mnemonic .standard) "lda" 1 1 with
    note := { Note.none with mnemonic := some (loadMnemonic mode) } }

def behindLoad (text : String) : Lexer :=
  ⟨text.toList, ⟨1, 4⟩, 0, (Nesting.ofLimit 128).apply ⟨1, 4⟩ [.push .instruction ""]⟩

/-- A text that starts with the load is read in two steps. -/
theorem parse_load {mode text rest : String} {tokens : List Token} (n : Nat)
    (hfirst : (Lexer.ofText 128 text).next? (some (loadReference mode)) =
      some (loadToken mode, behindLoad rest))
    (hmore : ((behindLoad rest).session? (some (loadReference mode))
      (List.replicate n .next)).map (fun r => (r.1, r.2.nesting.overflow)) = some (tokens, none))
    (he : EndsOnce (loadToken mode :: tokens)) :
    parse (some (loadReference mode)) 128 128 text =
      parseTokens (some (loadReference mode)) 128 none (loadToken mode :: tokens) := by
  refine parse_of_session (n + 1) ?_ he
  obtain ⟨⟨ts, l⟩, hsession, hsame⟩ := Option.map_eq_some_iff.1 hmore
  obtain ⟨rfl, hoverflow⟩ := Prod.mk.inj hsame
  rw [List.replicate_succ, Lexer.session?, Lexer.call?, hfirst]
  show ((((behindLoad rest).session? _ _).map _).map _) = _
  rw [hsession, ← hoverflow]
  rfl

/-- An instruction of the token whose operand has the shape. -/
def Statement.isLoad (t : Token) (shape : OperandShape) : Statement → Bool
  | instruction u e => u == t && OperandShape.ofOperand e == shape
  | _ => false

theorem Statement.exists_load {t : Token} {shape : OperandShape} {sts : List Statement}
    (h : sts.any (isLoad t shape) = true) :
    ∃ operand, .instruction t operand ∈ sts ∧ OperandShape.ofOperand operand = shape := by
  obtain ⟨st, hst, hload⟩ := List.any_eq_true.1 h
  cases st with
  | instruction u e =>
    obtain ⟨hu, he⟩ := Bool.and_eq_true_iff.1 hload
    exact ⟨e, eq_of_beq hu ▸ hst, eq_of_beq he⟩
  | _ => cases hload

/-- The token with a role in an operand. -/
def Token.withRole (t : Token) (role : OperandRole) : Token :=
  { t with note := { t.note with role := some role } }

def plainLoadTokens : List Token :=
  [(tokenIn .operand "" 1 (.number .hex) "$80" 1 5).withRole .address, plainToken .endOfText "" 2 1]

theorem parse_plainLoad :
    parse (some (loadReference "Immediate")) 128 128 "lda $80\n" =
      parseTokens (some (loadReference "Immediate")) 128 none
        (loadToken "Immediate" :: plainLoadTokens) := by
  have hfirst : (Lexer.ofText 128 "lda $80\n").next? (some (loadReference "Immediate")) =
      some (loadToken "Immediate", behindLoad " $80\n") := by
    rw [Lexer.next?]
    rfl
  exact parse_load 2 hfirst (by cbv) (by decide)

theorem readsClear_plainLoad {rules : Rules} {room : Nat} {start : State} {operand : Expr}
    (hcurrent : start.current = loadToken "Immediate") (hahead : start.ahead = plainLoadTokens)
    (hheard : start.unwinding = false)
    (hmade : ((instruction rules (expression rules room lowest) (loadToken "Immediate")).run
      start).1 = .instruction (loadToken "Immediate") operand)
    (hshape : OperandShape.ofOperand operand = .plain) :
    ReadsClear (expression rules room lowest) start := by
  intro hvalue
  rw [instruction_valued hvalue] at hmade
  obtain ⟨current, ahead, ds, reported, unwinding, unbounded⟩ := start
  cases hcurrent
  cases hahead
  cases hheard
  cases hmade
  cases room with
  | zero =>
    -- without room nothing is read, which has another shape
    have hnone : ∀ s, OperandShape.ofOperand ((indexedOperand .missing).run s).1 ≠ .plain := by
      intro s
      rw [indexedOperand, Parser.run_bind]
      split
      · exact OperandShape.noConfusion
      · exact OperandShape.noConfusion
    exact absurd hshape (hnone _)
  | succ room =>
    let number := (tokenIn .operand "" 1 (.number .hex) "$80" 1 5).withRole .address
    let s : State := ⟨number, [plainToken .endOfText "" 2 1], ds, reported, false, unbounded⟩
    have hoperand : (operand (expression rules room)).run s = (.integer number 128, s) := by
      show (integerLiteral .hex number).run s = _
      rw [integerLiteral, show numberValue .hex number.literal = .value 128 by cbv]
      rfl
    have hexpr : (expression rules (room + 1) lowest).run s = (.integer number 128, s) := by
      show (operators _ _ ((operand (expression rules room)).run s).1).run _ = _
      rw [hoperand, operators_cons rfl, if_neg fun h => h.2.1 rfl]
    show ((indexedOperand ((expression rules (room + 1) lowest).run s).1).run
        ((expression rules (room + 1) lowest).run s).2).2.diagnostics = ds ∧
      ((indexedOperand ((expression rules (room + 1) lowest).run s).1).run
        ((expression rules (room + 1) lowest).run s).2).2.unwinding = false
    rw [hexpr]
    exact ⟨rfl, rfl⟩

/-- A load from an address that only immediate values can be loaded from. -/
theorem parse_modeFault_iff_load :
    ∃ parsed, parse (some (loadReference "Immediate")) 128 128 "lda $80\n" = .ok parsed ∧
      ∃ operand, .instruction (loadToken "Immediate") operand ∈
          Statement.preorders parsed.program.statements ∧
        ∃ d ∈ parsed.diagnostics, d.IsModeFault ∧ d.range.start = ⟨0, 0⟩ := by
  obtain ⟨parsed, hparsed, hstream, hload⟩ :
      ∃ parsed, parse (some (loadReference "Immediate")) 128 128 "lda $80\n" = .ok parsed ∧
        parsed.stream = loadToken "Immediate" :: plainLoadTokens ∧
        (Statement.preorders parsed.program.statements).any
          (Statement.isLoad (loadToken "Immediate") .plain) = true := by
    rw [parse_plainLoad]
    refine exists_parsed ?_
    decide +kernel
  obtain ⟨operand, hst, hshape⟩ := Statement.exists_load hload
  have hmodes : (loadReference "Immediate").modesOf
      (Statement.mnemonicName (loadToken "Immediate")) = (loadMnemonic "Immediate").modes := by
    rfl
  obtain ⟨room, start, hread, hall⟩ := parse_modeFault_iff hparsed hst (by rw [hmodes]; decide)
  have hahead : start.ahead = plainLoadTokens := by
    have hwithin := hread.within
    rw [State.tokens, hread.current, hstream] at hwithin
    rcases List.suffix_cons_iff.1 hwithin with hsame | hlater
    · exact (List.cons_eq_cons.1 hsame).2
    · exact absurd (hlater.subset List.mem_cons_self) (by decide)
  have hclear := readsClear_plainLoad hread.current hahead hread.heard hread.made hshape
  refine ⟨parsed, hparsed, operand, hst, (hall hclear).1.2 ?_⟩
  rw [hmodes, hshape]
  decide

/-- A load has only the mode with the index register in the parentheses, the register stands behind
them, and nothing is reported. -/
theorem parse_indirect_unreported :
    ∃ parsed, parse (some (loadReference "(Indirect,X)")) 128 128 "lda ($80),x\n" = .ok parsed ∧
      parsed.diagnostics = [] ∧
      (Statement.preorders parsed.program.statements).any
          (Statement.isLoad (loadToken "(Indirect,X)") (.indirectIndexed "X")) = true ∧
      ∀ mode ∈ (loadReference "(Indirect,X)").modesOf "LDA",
        mode.name ∈ canonicalModes ∧
          mode.name ∉ (OperandShape.indirectIndexed "X").acceptedModes := by
  have hfirst : (Lexer.ofText 128 "lda ($80),x\n").next? (some (loadReference "(Indirect,X)")) =
      some (loadToken "(Indirect,X)", behindLoad " ($80),x\n") := by
    rw [Lexer.next?]
    rfl
  rw [parse_load 6 hfirst (by cbv) (by decide)]
  refine exists_parsed ?_
  decide +kernel

end Asm6510
