import Asm6510.Proofs.Usage.Counts
import Mathlib

/-!
# Passes over one tree of scopes

References are counted again and again in the same scopes, each time from the counts that the pass
before has left.

* `Symbol.Recounted`, `Scope.Recounted`: the same symbols and scopes, with any counts. Two trees are
  so related exactly if they are the same once the counts are reset (`recounted_iff`).
* `Pass`, `passes`: a pass with its program, settings and text, and passes one after the other.

Main statement: `passes_alone`, each pass gives what it gives alone on a fresh copy of the tree.
Names are looked up without regard to the counts (`references_of_recounted`), and counting starts
from the reset tree and changes nothing but the counts (`recounted_count`).
-/

namespace Asm6510

def Symbol.Recounted (s s' : Symbol) : Prop :=
  s' = { s with uses := s'.uses }

namespace Scope

mutual

/-- The same scope with the same scopes in it, with any counts. -/
def Recounted : Scope → Scope → Prop
  | ⟨name, range, uri, symbols, children⟩, ⟨name', range', uri', symbols', children'⟩ =>
    name = name' ∧ range = range' ∧ uri = uri' ∧
      List.Forall₂ (fun e e' => e.1 = e'.1 ∧ e.2.Recounted e'.2) symbols.entries symbols'.entries ∧
      RecountedAll children children'

def RecountedAll : List Scope → List Scope → Prop
  | [], [] => True
  | s :: rest, s' :: rest' => Recounted s s' ∧ RecountedAll rest rest'
  | _, _ => False

end

/-- The entries of a scope with no references counted. -/
def resetEntries (es : List (String × Symbol)) : List (String × Symbol) :=
  es.map fun e => (e.1, { e.2 with uses := 0 })

theorem recounted_entries {es es' : List (String × Symbol)} :
    List.Forall₂ (fun e e' => e.1 = e'.1 ∧ e.2.Recounted e'.2) es es' ↔
      resetEntries es = resetEntries es' := by
  induction es generalizing es' with
  | nil => cases es' <;> simp [resetEntries]
  | cons e es ih =>
    cases es' with
    | nil => simp [resetEntries]
    | cons e' es' =>
      have hsymbol : e.2.Recounted e'.2 ↔
          ({ e.2 with uses := 0 } : Symbol) = { e'.2 with uses := 0 } := by
        obtain ⟨k, name, kind, position, value, uses, params, signature⟩ := e
        obtain ⟨k', name', kind', position', value', uses', params', signature'⟩ := e'
        simp only [Symbol.Recounted, Symbol.mk.injEq, true_and]
        grind
      rw [List.forall₂_cons, ih, hsymbol]
      simp [resetEntries]

mutual

/-- Trees are the same but for the counts exactly if they are the same without them. -/
theorem recounted_iff : (s s' : Scope) → s.Recounted s' ↔ s.reset = s'.reset
  | ⟨name, range, uri, symbols, children⟩, ⟨name', range', uri', symbols', children'⟩ => by
    rw [Recounted, reset, reset, recounted_entries, recountedAll_iff children children']
    simp [resetEntries]

theorem recountedAll_iff : (cs cs' : List Scope) → RecountedAll cs cs' ↔ resets cs = resets cs'
  | [], [] => by simp [RecountedAll]
  | [], c :: cs => by simp [RecountedAll, resets]
  | c :: cs, [] => by simp [RecountedAll, resets]
  | c :: cs, c' :: cs' => by
    rw [RecountedAll, recounted_iff c c', recountedAll_iff cs cs']
    simp [resets]

end

theorem Recounted.symm {s s' : Scope} (h : s.Recounted s') : s'.Recounted s :=
  (recounted_iff s' s).2 ((recounted_iff s s').1 h).symm

theorem Recounted.trans {s s' s'' : Scope} (h : s.Recounted s') (h' : s'.Recounted s'') :
    s.Recounted s'' :=
  (recounted_iff s s'').2 (((recounted_iff s s').1 h).trans ((recounted_iff s' s'').1 h'))

/-! ## Resetting -/

theorem reset_symbols (s : Scope) : s.reset.symbols.entries = resetEntries s.symbols.entries := by
  cases s
  rfl

theorem resets_eq_map (cs : List Scope) : resets cs = cs.map reset := by
  induction cs with
  | nil => rfl
  | cons c cs ih => simp [resets, ih]

theorem reset_children (s : Scope) : s.reset.children = s.children.map reset := by
  cases s
  exact resets_eq_map _

@[simp] theorem reset_name (s : Scope) : s.reset.name = s.name := by
  cases s
  rfl

@[simp] theorem reset_range (s : Scope) : s.reset.range = s.range := by
  cases s
  rfl

theorem get?_reset (s : Scope) (key : String) :
    s.reset.symbols.get? key = (s.symbols.get? key).map fun x => { x with uses := 0 } := by
  unfold Table.get?
  rw [reset_symbols]
  induction s.symbols.entries with
  | nil => rfl
  | cons e es ih =>
    obtain ⟨k, x⟩ := e
    simp only [resetEntries, List.map_cons, List.lookup_cons] at ih ⊢
    cases key == k with
    | true => rfl
    | false => exact ih

mutual

theorem reset_reset : (s : Scope) → s.reset.reset = s.reset
  | ⟨name, range, uri, symbols, children⟩ => by
    rw [reset, reset, resets_resets children, List.map_map]
    rfl

theorem resets_resets : (cs : List Scope) → resets (resets cs) = resets cs
  | [] => rfl
  | c :: cs => by rw [resets, resets, reset_reset c, resets_resets cs]

end

end Scope

/-! ## Looking up names -/

namespace Cursor

/-- The cursor in the tree with no references counted. -/
def reset (c : Cursor) : Cursor :=
  ⟨c.scope.reset, c.outer.map Scope.reset, c.steps⟩

theorem getElem?_reset_children (c : Cursor) (i : Nat) :
    c.reset.scope.children[i]? = c.scope.children[i]?.map Scope.reset := by
  rw [reset, Scope.reset_children, List.getElem?_map]

/-- A child that is found without regard to the symbols is found in the reset tree. -/
theorem findIdx?_reset_children {p : Scope → Bool} (hp : ∀ s, p s.reset = p s) (c : Cursor) :
    c.reset.scope.children.findIdx? p = c.scope.children.findIdx? p := by
  rw [reset, Scope.reset_children, List.findIdx?_map, Function.comp_def]
  simp only [hp]

theorem enter_reset (c : Cursor) (i : Nat) : (c.enter i).reset = c.reset.enter i := by
  unfold enter
  rw [getElem?_reset_children]
  cases c.scope.children[i]? <;> rfl

theorem body_reset (c : Cursor) (d : Directive) : (c.body d).reset = c.reset.body d := by
  unfold body
  cases d.name with
  | none => rfl
  | some name =>
    have hchild : c.reset.scope.childAt? name.literal name.place.toPosition =
        c.scope.childAt? name.literal name.place.toPosition :=
      findIdx?_reset_children (fun s => by simp) c
    dsimp only
    rw [hchild]
    split
    · cases c.scope.childAt? name.literal name.place.toPosition with
      | none => rfl
      | some i => exact c.enter_reset i
    · rfl

theorem findKey?_reset (key : String) (chain : List Scope) (steps : List Nat) :
    (findKey? key (chain.map Scope.reset) steps).map (fun r => (r.steps, r.symbol.key)) =
      (findKey? key chain steps).map fun r => (r.steps, r.symbol.key) := by
  induction chain generalizing steps with
  | nil => rfl
  | cons s chain ih =>
    rw [List.map_cons, findKey?, findKey?, Scope.get?_reset]
    cases s.symbols.get? key with
    | none => exact ih steps.tail
    | some symbol => rfl

theorem findMember?_reset (c : Cursor) (qualifier member : String) :
    (c.reset.findMember? qualifier member).map (fun r => (r.steps, r.symbol.key)) =
      (c.findMember? qualifier member).map fun r => (r.steps, r.symbol.key) := by
  have hnamed : c.reset.scope.childNamed? qualifier = c.scope.childNamed? qualifier :=
    findIdx?_reset_children (fun s => by simp) c
  unfold findMember?
  rw [hnamed]
  cases c.scope.childNamed? qualifier with
  | none => rfl
  | some i =>
    simp only [Option.bind_eq_bind, Option.bind_some, getElem?_reset_children]
    cases c.scope.children[i]? with
    | none => rfl
    | some child =>
      simp only [Option.map_some, Option.bind_some, Scope.own?, Scope.get?_reset]
      cases child.symbols.get? (nameKey member) <;> rfl

theorem refer?_reset (c : Cursor) (name : String) : c.reset.refer? name = c.refer? name := by
  have hfound : (c.reset.find? name).map (fun r => (r.steps, r.symbol.key)) =
      (c.find? name).map fun r => (r.steps, r.symbol.key) := by
    unfold find?
    dsimp only
    split
    · exact findMember?_reset c _ _
    · exact findKey?_reset _ c.chain c.steps
  have hrefer := congrArg (Option.map fun r => SymbolRef.mk r.1 r.2) hfound
  rwa [Option.map_map, Option.map_map] at hrefer

theorem references_reset (lines : Array String) (c : Cursor) (e : Expr) :
    c.reset.references lines e = c.references lines e := by
  simp only [references, refer?_reset]

end Cursor

mutual

theorem statementReferences_reset (lines : Array String) (c : Cursor) : (st : Statement) →
    statementReferences lines c.reset st = statementReferences lines c st
  | .label _ => rfl
  | .instruction _ e => c.references_reset lines e
  | .expression _ e => c.references_reset lines e
  | .directive d => c.references_reset lines d.value
  | .directiveBlock d _ body _ => by
    rw [statementReferences, statementReferences, c.references_reset, ← c.body_reset,
      statementsReferences_reset lines (c.body d) body]
  | .block _ body _ => statementsReferences_reset lines c body

theorem statementsReferences_reset (lines : Array String) (c : Cursor) : (sts : List Statement) →
    statementsReferences lines c.reset sts = statementsReferences lines c sts
  | [] => rfl
  | st :: sts => by
    rw [statementsReferences, statementsReferences, statementReferences_reset lines c st,
      statementsReferences_reset lines c sts]

end

/-- **Names are looked up without regard to the counts.** -/
theorem references_of_recounted {s s' : Scope} (h : s.Recounted s') (p : Program) (text : String) :
    references p s text = references p s' text := by
  have hreset : ∀ u : Scope, references p u text = references p u.reset text := fun u =>
    (statementsReferences_reset _ (Cursor.ofRoot u) p.statements).symm
  rw [hreset s, (Scope.recounted_iff s s').1 h, ← hreset s']

/-! ## Counting -/

namespace Scope

theorem resetEntries_putEntry {es : List (String × Symbol)} {key : String} {x : Symbol}
    (hx : es.lookup key = some x) :
    resetEntries (Table.putEntry key { x with uses := x.uses + 1 } es) = resetEntries es := by
  induction es with
  | nil => cases hx
  | cons e es ih =>
    obtain ⟨k, y⟩ := e
    rw [Table.putEntry]
    by_cases hk : k = key
    · subst hk
      rw [List.lookup_cons_self] at hx
      cases hx
      simp [resetEntries]
    · rw [List.lookup_cons, beq_eq_false_iff_ne.2 (Ne.symm hk)] at hx
      rw [if_neg hk]
      exact congrArg (_ :: ·) (ih hx)

theorem reset_countAt (address : List Nat) (key : String) (s : Scope) :
    (countAt address key s).reset = s.reset := by
  induction address generalizing s with
  | nil =>
    obtain ⟨name, range, uri, symbols, children⟩ := s
    have hsymbols : resetEntries
        (symbols.adjust key fun e => { e with uses := e.uses + 1 }).entries =
        resetEntries symbols.entries := by
      unfold Table.adjust Table.get?
      cases hx : symbols.entries.lookup key with
      | none => rfl
      | some x => exact resetEntries_putEntry hx
    rw [countAt, reset, reset]
    simpa [resetEntries] using hsymbols
  | cons i address ih =>
    obtain ⟨name, range, uri, symbols, children⟩ := s
    have hchildren : (children.modify i (countAt address key)).map reset = children.map reset := by
      refine List.ext_getElem? fun j => ?_
      rw [List.getElem?_map, List.getElem?_map, List.getElem?_modify]
      cases children[j]? with
      | none => rfl
      | some c =>
        by_cases hij : i = j
        · simp [hij, ih]
        · simp [hij]
    rw [countAt, reset, reset, resets_eq_map, resets_eq_map]
    simpa using hchildren

/-- **Counting changes nothing but the counts.** -/
theorem recounted_count (s : Scope) (refs : List SymbolRef) : s.Recounted (s.count refs) := by
  have hfold : ∀ u : Scope,
      (refs.foldl (fun s r => countAt r.steps.reverse r.key s) u).reset = u.reset := by
    induction refs with
    | nil => exact fun u => rfl
    | cons r refs ih => exact fun u => (ih _).trans (reset_countAt _ _ u)
  rw [recounted_iff, count, hfold, reset_reset]

/-- Counting starts from the tree without counts. -/
theorem count_of_recounted {s s' : Scope} (h : s.Recounted s') (refs : List SymbolRef) :
    s.count refs = s'.count refs := by
  rw [count, count, (recounted_iff s s').1 h]

end Scope

/-! ## Passes -/

/-- One count of the references of a program, with the settings and the text that it is given. -/
structure Pass where
  program : Program
  settings : Settings
  text : String

/-- The scopes with their counts, and the warnings. -/
def Pass.run (pass : Pass) (scope : Scope) : Scope × List Diagnostic :=
  checkUsage pass.settings pass.program scope pass.text

/-- Passes one after the other over the same scopes, and what each of them gives. -/
def passes (scope : Scope) : List Pass → List (Scope × List Diagnostic)
  | [] => []
  | pass :: rest => pass.run scope :: passes (pass.run scope).1 rest

theorem Pass.run_of_recounted {s s' : Scope} (h : s.Recounted s') (pass : Pass) :
    pass.run s = pass.run s' := by
  rw [run, run, checkUsage, checkUsage, references_of_recounted h, Scope.count_of_recounted h]

theorem Pass.recounted_run (pass : Pass) (scope : Scope) :
    scope.Recounted (pass.run scope).1 :=
  Scope.recounted_count scope _

/-- **Passes do not depend on those before them.** Over scopes with any counts, each of several
passes gives the counts and the warnings that it gives alone on any fresh copy of the scopes: its
own references are counted, whatever its settings. It changes nothing in the scopes but the
counts. -/
theorem passes_alone {scope fresh : Scope} (h : scope.Recounted fresh) (ps : List Pass) :
    passes scope ps = ps.map (·.run fresh) ∧
      (∀ pass ∈ ps, ∀ settings : Settings,
        ({ pass with settings := settings }.run fresh).1 = (pass.run fresh).1) ∧
      (fresh.Keyed → ∀ pass ∈ ps, (pass.run fresh).1 =
        fresh.withUses (fun r => (references pass.program scope pass.text).count r) []) ∧
      ∀ r ∈ passes scope ps, scope.Recounted r.1 := by
  have hruns : passes scope ps = ps.map (·.run fresh) := by
    -- The scopes that a pass leaves are a copy of those that it was given.
    induction ps generalizing scope with
    | nil => rfl
    | cons pass ps ih =>
      rw [passes, List.map_cons, pass.run_of_recounted h, ih (pass.recounted_run fresh).symm]
  refine ⟨hruns, fun pass _ settings => rfl, fun hkeyed pass _ => ?_, fun r hr => ?_⟩
  · rw [references_of_recounted h]
    exact Scope.count_eq_withUses hkeyed _
  · rw [hruns] at hr
    obtain ⟨pass, -, rfl⟩ := List.mem_map.1 hr
    exact h.trans (pass.recounted_run fresh)

/-- The scopes of `indexedText` with references that are no longer there. -/
def staleScope : Scope :=
  (Scope.ofProgram "" 1 indexedProgram).1.count [⟨[], "B"⟩, ⟨[], "B"⟩]

/-- `indexedText` behind a comment mark, and then without it and without warnings. -/
def indexedPasses : List Pass :=
  [⟨indexedProgram, .standard, "//"⟩,
    ⟨indexedProgram, { Settings.standard with warnUnused := false }, indexedText⟩,
    ⟨indexedProgram, .standard, indexedText⟩]

/-- In a comment nothing is counted, and both labels are reported. The passes behind count as if
they were the first, and the stale references of the second label are forgotten. -/
theorem passes_alone_indexed :
    staleScope.Recounted (Scope.ofProgram "" 1 indexedProgram).1 ∧
    staleScope.symbols.entries.map (·.2.uses) = [0, 2] ∧
    (passes staleScope indexedPasses).map (·.1.symbols.entries.map (·.2.uses)) =
      [[0, 0], [2, 0], [2, 0]] ∧
    (passes staleScope indexedPasses).map (·.2.map Diagnostic.message) =
      [["Unused label 'a'", "Unused label 'b'"], [], ["Unused label 'b'"]] := by
  have h : staleScope.Recounted (Scope.ofProgram "" 1 indexedProgram).1 :=
    (Scope.recounted_count _ _).symm
  rw [(passes_alone h indexedPasses).1]
  refine ⟨h, ?_, ?_, ?_⟩
  all_goals decide +kernel

end Asm6510
