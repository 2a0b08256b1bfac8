import Asm6510.Proofs.Analysis.Returns
import Asm6510.Proofs.Token.Composition
import Mathlib

/-!
# The bound of the nesting

The bound shows only in its own message. A stage that did not meet it goes the same way under every
larger bound, and what a stage reports about it is reported once.

* `tokenize_of_le`: the tokens under a larger bound.
* `parseRun_of_le`, `parse_of_le`: the parse under a larger bound.

Main statement: `analyze_of_maxDepth_le`.
-/

namespace Asm6510

open Grammar

variable {text : String} {limit deeper lexLimit : Int} {ref : Option Reference} {d : Diagnostic}

/-! ## Tokens -/

theorem depthBound_mono (h : limit ≤ deeper) : depthBound limit ≤ depthBound deeper := by
  unfold depthBound
  omega

/-- **Where no push was refused, a larger bound gives the same tokens.** -/
theorem tokenize_of_le (hle : limit ≤ deeper)
    (h : (tokenize ref limit text).2.nesting.overflow = none) :
    (tokenize ref deeper text).1 = (tokenize ref limit text).1 ∧
      (tokenize ref deeper text).2.nesting.overflow = none := by
  have horderly : (Lexer.ofText limit text).nesting.Orderly := Nesting.orderly_ofLimit limit
  obtain ⟨-, -, hlimit⟩ := Lexer.run_end ref horderly
  have hfits : ((Lexer.ofText limit text).run ref).2.nesting.Fits ⟨0, depthBound deeper, none⟩ := by
    refine .inr ⟨?_, h⟩
    rw [hlimit]
    exact depthBound_mono hle
  have hrun := Lexer.run_within horderly hfits
  have hdeeper : tokenize ref deeper text =
      ((tokenize ref limit text).1.map (·.below 0),
        (tokenize ref limit text).2.within ⟨0, depthBound deeper, none⟩) := hrun
  rw [hdeeper]
  refine ⟨List.map_id _, ?_⟩
  show Option.or none (Option.map _ (tokenize ref limit text).2.nesting.overflow) = none
  rw [h]
  rfl

/-! ## Parses -/

theorem program_reported (rules : Rules) (place : Place) (first : Token) (rest : List Token) :
    (parseRun rules (some place) first rest).2.depthReported = true := by
  have hall := abreast_statements (w := .still ⟨first :: rest, some place⟩ false false)
    (· == .endOfText) (abreast_statementAt_self rules rules.limit)
  let s : State := ((reportDepth rules place).run (State.start first rest)).2
  have hs : s.Within ⟨first :: rest, some place⟩ := by
    show s.tokens <:+ first :: rest
    rw [show s.tokens = _ from tokens_reportDepth rules place _]
    exact List.suffix_rfl
  exact (hall.along s hs).1.reported (reportDepth_reported rules place _)

/-- A parse reports the bound as often as it notes it, and one that does not goes the same way under
a larger bound. -/
theorem parseRun_of_le {rules rules' : Rules} (href : rules'.ref = rules.ref)
    (hle : rules.limit ≤ rules'.limit) (overflow : Option Place) (first : Token)
    (rest : List Token) :
    (parseRun rules overflow first rest).2.diagnostics.countP Diagnostic.isDepthError =
        (parseRun rules overflow first rest).2.depthReported.toNat ∧
      ((parseRun rules overflow first rest).2.depthReported = false →
        overflow = none ∧
          parseRun rules' overflow first rest = parseRun rules overflow first rest) := by
  let w : Pairing := .still ⟨first :: rest, overflow⟩ true true
  have hplaces : overflow.map w.ending.place = overflow := by
    rw [show w.ending.place = id from funext (Ending.still.place_of_eq rfl), Option.map_id, id]
  have hrules : Suits true rules rules' := ⟨href, hle, fun h => by cases h⟩
  have habreast := abreast_program (w := w) layers_from hrules (State.start first rest) _
    List.suffix_rfl (linked_still _)
  rw [show w.source.overflow = overflow from rfl, hplaces] at habreast
  refine ⟨habreast.run.tally rfl, fun hnot => ⟨?_, ?_⟩⟩
  · cases overflow with
    | none => rfl
    | some place =>
      have hreported := program_reported rules place first rest
      rw [hreported] at hnot
      cases hnot
  · rcases habreast.agree with ⟨-, hreported⟩ | ⟨hresult, hlinked⟩
    · have hreported' : (parseRun rules overflow first rest).2.depthReported = true := hreported
      rw [hreported'] at hnot
      cases hnot
    · exact Prod.ext (hresult.trans (Ending.statements_of_eq _ rfl _))
        ((hlinked.whole rfl).trans (Ending.still_state _))

/-- **A parse that did not meet the bounds is the same under larger ones**, and it meets them in at
most one message. -/
theorem parse_of_le {lexDeeper : Int} {parsed : Parsed} (hlex : lexLimit ≤ lexDeeper)
    (hle : limit ≤ deeper) (h : parse ref lexLimit limit text = .ok parsed) :
    parsed.diagnostics.countP Diagnostic.isDepthError ≤ 1 ∧
      (parsed.diagnostics.countP Diagnostic.isDepthError = 0 →
        parse ref lexDeeper deeper text = .ok parsed) := by
  obtain ⟨first, rest, hstream, hbounded, rfl⟩ := parse_ok h
  obtain ⟨htally, hsame⟩ := @parseRun_of_le ⟨depthBound limit, ref⟩ ⟨depthBound deeper, ref⟩ rfl
    (depthBound_mono hle) (tokenize ref lexLimit text).2.nesting.overflow first rest
  refine ⟨htally.trans_le (Bool.toNat_le _), fun hnone => ?_⟩
  rw [htally, Bool.toNat_eq_zero] at hnone
  obtain ⟨hoverflow, hrun⟩ := hsame hnone
  obtain ⟨htokens, hoverflow'⟩ := tokenize_of_le hlex hoverflow
  have hstream' : ((tokenize ref lexDeeper text).1.filter fun t => !t.kind.isComment) =
      first :: rest := by
    rw [htokens]
    exact hstream
  rw [parse_of_stream hstream', htokens, hoverflow', ← hoverflow, hrun,
    if_neg (Bool.eq_false_iff.1 hbounded)]

/-- A parse without messages comes from tokens for which no push was refused. -/
theorem overflow_of_quiet {parsed : Parsed} (h : parse ref lexLimit limit text = .ok parsed)
    (hquiet : parsed.diagnostics = []) :
    (tokenize ref lexLimit text).2.nesting.overflow = none := by
  obtain ⟨first, rest, -, -, rfl⟩ := parse_ok h
  obtain ⟨htally, hsame⟩ := @parseRun_of_le ⟨depthBound limit, ref⟩ ⟨depthBound limit, ref⟩ rfl
    (Nat.le_refl _) (tokenize ref lexLimit text).2.nesting.overflow first rest
  dsimp only at hquiet
  rw [hquiet, List.countP_nil, eq_comm, Bool.toNat_eq_zero] at htally
  exact (hsame htally).1

/-- Where no push was refused, a larger bound of the lexer gives the same parse. -/
theorem parse_of_lexLimit_le {lexDeeper : Int} (hle : lexLimit ≤ lexDeeper)
    (h : (tokenize ref lexLimit text).2.nesting.overflow = none) (limit : Int) :
    parse ref lexDeeper limit text = parse ref lexLimit limit text := by
  obtain ⟨htokens, hoverflow⟩ := tokenize_of_le hle h
  show parseTokens ref limit (tokenize ref lexDeeper text).2.nesting.overflow
      (tokenize ref lexDeeper text).1 =
    parseTokens ref limit (tokenize ref lexLimit text).2.nesting.overflow
      (tokenize ref lexLimit text).1
  rw [htokens, hoverflow, h]

/-! ## Reports of the later stages -/

theorem Symbol.secondDefinition_isDepthError (s : Symbol) :
    s.secondDefinition.isDepthError = false :=
  Diverges.isDepthError (.append (.append (by decide) _) _)

/-- A warning about the use of a program. -/
def Diagnostic.IsUsageWarning (d : Diagnostic) : Prop :=
  d.severity = .warning ∧ d.source = Stage.usage.label

mutual

/-- A warning about an undocumented instruction is at its mnemonic. -/
theorem exists_of_mem_statementIllegal : (s : Statement) →
    d ∈ statementIllegal s → ∃ t e, .instruction t e ∈ s.preorder ∧
      d = .atPlace .warning ("Illegal opcode '" ++ Statement.mnemonicName t ++ "'") t.place .usage
        t.literal.length
  | .label _ => by
    rw [statementIllegal]
    exact fun hd => absurd hd List.not_mem_nil
  | .instruction t e => by
    rw [statementIllegal]
    intro hd
    split at hd
    · exact ⟨t, e, Statement.mem_preorder_self _, List.mem_singleton.1 hd⟩
    · exact absurd hd List.not_mem_nil
  | .expression _ _ => by
    rw [statementIllegal]
    exact fun hd => absurd hd List.not_mem_nil
  | .directive _ => by
    rw [statementIllegal]
    exact fun hd => absurd hd List.not_mem_nil
  | .directiveBlock _ _ body _ => by
    rw [statementIllegal, Statement.preorder]
    intro hd
    obtain ⟨t, e, hmem, hd⟩ := exists_of_mem_statementsIllegal body hd
    exact ⟨t, e, List.mem_cons_of_mem _ hmem, hd⟩
  | .block _ body _ => by
    rw [statementIllegal, Statement.preorder]
    intro hd
    obtain ⟨t, e, hmem, hd⟩ := exists_of_mem_statementsIllegal body hd
    exact ⟨t, e, List.mem_cons_of_mem _ hmem, hd⟩

theorem exists_of_mem_statementsIllegal : (sts : List Statement) →
    d ∈ statementsIllegal sts → ∃ t e, .instruction t e ∈ Statement.preorders sts ∧
      d = .atPlace .warning ("Illegal opcode '" ++ Statement.mnemonicName t ++ "'") t.place .usage
        t.literal.length
  | [] => by
    rw [statementsIllegal]
    exact fun hd => absurd hd List.not_mem_nil
  | s :: rest => by
    rw [statementsIllegal, Statement.preorders]
    intro hd
    rcases List.mem_append.1 hd with hd | hd
    · obtain ⟨t, e, hmem, hd⟩ := exists_of_mem_statementIllegal s hd
      exact ⟨t, e, List.mem_append_left _ hmem, hd⟩
    · obtain ⟨t, e, hmem, hd⟩ := exists_of_mem_statementsIllegal rest hd
      exact ⟨t, e, List.mem_append_right _ hmem, hd⟩

end

theorem statementsIllegal_warns (sts : List Statement) :
    ∀ d ∈ statementsIllegal sts, d.IsUsageWarning := by
  intro d hd
  obtain ⟨t, e, -, rfl⟩ := exists_of_mem_statementsIllegal sts hd
  exact ⟨rfl, rfl⟩

theorem unusedWarnings_warns (scope : Scope) : ∀ d ∈ unusedWarnings scope, d.IsUsageWarning := by
  intro d hd
  obtain ⟨s, -, hs⟩ := List.mem_filterMap.1 hd
  unfold unusedWarning? at hs
  split at hs
  · cases hs
  · split at hs
    · cases hs
      exact ⟨rfl, rfl⟩
    · cases hs

theorem checkUsage_warns {settings : Settings} {p : Program} {scope : Scope} :
    ∀ d ∈ (checkUsage settings p scope text).2, d.IsUsageWarning := by
  intro d hd
  rcases List.mem_append.1 hd with hd | hd
  · split at hd
    · exact statementsIllegal_warns _ d hd
    · exact absurd hd List.not_mem_nil
  · split at hd
    · exact unusedWarnings_warns _ d hd
    · exact absurd hd List.not_mem_nil

theorem Diagnostic.IsUsageWarning.isDepthError (h : d.IsUsageWarning) : d.isDepthError = false := by
  rw [Diagnostic.isDepthError, Diagnostic.isError, h.1]
  rfl

/-! ## The analysis of a document -/

/-- The later stages report nothing about the bound. -/
theorem countP_analysis (parsed : Parsed) (settings : Settings) (uri text : String) :
    (parsed.analysis settings uri text).diagnostics.countP Diagnostic.isDepthError =
      parsed.diagnostics.countP Diagnostic.isDepthError := by
  have hduplicates : (Scope.ofProgram uri (lineCount text) parsed.program).2.countP
      Diagnostic.isDepthError = 0 := by
    rw [List.countP_eq_zero]
    intro d hd
    obtain ⟨s, -, rfl⟩ := Scope.reports_ofProgram hd
    rw [s.secondDefinition_isDepthError]
    exact Bool.false_ne_true
  have hwarnings : (checkUsage settings parsed.program
      (Scope.ofProgram uri (lineCount text) parsed.program).1 text).2.countP
      Diagnostic.isDepthError = 0 := by
    rw [List.countP_eq_zero]
    intro d hd
    rw [(checkUsage_warns d hd).isDepthError]
    exact Bool.false_ne_true
  unfold Parsed.analysis
  dsimp only
  rw [List.countP_append, List.countP_append]
  omega

theorem countP_isDepthError_eq_zero {ds : List Diagnostic} :
    ds.countP Diagnostic.isDepthError = 0 ↔ ∀ d ∈ ds, d.isDepthError = false := by
  simp only [List.countP_eq_zero, Bool.not_eq_true]

/-- **The bound of the nesting shows only in its message.** An analysis reports the bound at most
once; if it does not, every larger bound gives the same tokens, program, scopes, counts and
diagnostics. -/
theorem analyze_of_maxDepth_le (ref : Option Reference) (settings : Settings) (uri text : String)
    {a : Analysis} (ha : analyze ref settings uri text = .ok a) :
    a.diagnostics.countP Diagnostic.isDepthError ≤ 1 ∧
      ((∀ d ∈ a.diagnostics, d.isDepthError = false) → ∀ deeper : Int, settings.maxDepth ≤ deeper →
        analyze ref { settings with maxDepth := deeper } uri text = .ok a) := by
  cases ref with
  | none =>
    cases ha
    refine ⟨?_, fun _ deeper _ => rfl⟩
    exact List.countP_le_length
  | some ref =>
    cases hparsed : parse (some ref) settings.maxDepth settings.maxDepth text with
    | error fault =>
      rw [analyze_of_parse_error hparsed] at ha
      cases ha
    | ok parsed =>
      rw [analyze_of_parse hparsed] at ha
      cases ha
      rw [← countP_isDepthError_eq_zero, countP_analysis]
      refine ⟨(parse_of_le (Int.le_refl _) (Int.le_refl _) hparsed).1, fun hnone deeper hle => ?_⟩
      exact analyze_of_parse ((parse_of_le hle hle hparsed).2 hnone)

def twoBlocks : String := "\x7b\x7ba:\x7d\x7d"

theorem parse_twoBlocks :
    ∃ parsed, parse (some bareReference) 3 3 twoBlocks = .ok parsed ∧
      parsed.diagnostics.countP Diagnostic.isDepthError = 0 :=
  exists_parsed_of_session 6 (by cbv) (by decide) (by decide +kernel)

/-- Two blocks need three contexts; with room for as many, more room changes nothing. -/
theorem analyze_of_maxDepth_le_twoBlocks :
    ∃ a : Analysis,
      analyze (some bareReference) { Settings.standard with maxDepth := 3 } "" twoBlocks =
        .ok a ∧
      (∀ d ∈ a.diagnostics, d.isDepthError = false) ∧
      a.diagnostics.countP Diagnostic.isDepthError ≤ 1 ∧
      analyze (some bareReference) { Settings.standard with maxDepth := 200 } "" twoBlocks =
        .ok a := by
  let shallow : Settings := { Settings.standard with maxDepth := 3 }
  obtain ⟨parsed, hparsed, hzero⟩ := parse_twoBlocks
  have ha : analyze (some bareReference) shallow "" twoBlocks =
      .ok (parsed.analysis shallow "" twoBlocks) := analyze_of_parse hparsed
  have hnone : ∀ d ∈ (parsed.analysis shallow "" twoBlocks).diagnostics,
      d.isDepthError = false := by
    rw [← countP_isDepthError_eq_zero, countP_analysis]
    exact hzero
  obtain ⟨honce, hdeeper⟩ := analyze_of_maxDepth_le (some bareReference) shallow "" twoBlocks ha
  exact ⟨_, ha, hnone, honce, hdeeper hnone 200 (by decide)⟩

end Asm6510
