import Asm6510.Proofs.Scope.Bodies
import Mathlib

/-!
# References in the values of an enumeration

The members of an enumeration are symbols of the scope that it opens, but they are written in the
value of the directive and not in its block. Their values are therefore looked up from the scope
around the enumeration.

* `Opening.ListsMembers`: the scope of an enumeration has its members, the first of each name, and
  no scopes in it.
* `Cursor.refer?_within`: what a name means within a scope without children, compared with what it
  means around it.

Main statement: `parse_enumeration_values`, where the names in the values are looked up, and what
they would mean in the scope of the enumeration. A plain name never refers to a member of the same
enumeration, so a member may count as unused although a value names it (`parse_member_unused`).
-/

namespace Asm6510

open Grammar

/-! ## The scope of an enumeration -/

namespace Draft

theorem get?_define (d : Draft) (symbol : Symbol) (key : String) :
    (d.define symbol).scope.symbols.get? key =
      (d.scope.symbols.get? key).or (if symbol.key == key then some symbol else none) := by
  unfold define Scope.declare
  cases hfirst : d.scope.symbols.get? symbol.key with
  | some first =>
    dsimp only
    by_cases hkey : symbol.key = key
    · subst hkey
      rw [hfirst, Option.some_or]
    · simp [hkey]
  | none =>
    dsimp only
    rw [Table.get?_put]
    by_cases hkey : symbol.key = key
    · subst hkey
      simp [hfirst]
    · simp [hkey, Ne.symm hkey]

/-- Of several definitions of a key the first one counts. -/
theorem get?_foldl_define (symbols : List Symbol) (d : Draft) (key : String) :
    (symbols.foldl define d).scope.symbols.get? key =
      (d.scope.symbols.get? key).or (symbols.find? (·.key == key)) := by
  induction symbols generalizing d with
  | nil => simp
  | cons symbol symbols ih =>
    rw [List.foldl_cons, ih, get?_define, List.find?_cons]
    cases d.scope.symbols.get? key with
    | some first => simp
    | none => cases symbol.key == key <;> simp

end Draft

/-- The scope of an enumeration has its members, of each name the first, and no children. -/
def Opening.ListsMembers (o : Opening) : Prop :=
  o.directive.word = ".enum" → o.scope.children = [] ∧
    ∀ key, o.scope.symbols.get? key = (Enumeration.symbols o.directive).find? (·.key == key)

namespace Draft

theorem listsMembers_of_open? {d d' child : Draft} {dir : Directive} {closing : Token}
    {body : List Statement} (address : List Nat) (h : d.open? dir closing = some (d', child))
    (hbody : DefinitionForm.ofWord dir.word = .enumeration → body = []) :
    Opening.ListsMembers ⟨dir, address, (child.statements body).scope⟩ := by
  intro hword
  have hform : DefinitionForm.ofWord dir.word = .enumeration := by
    rw [hword]
    rfl
  rw [hbody hform, statements]
  unfold open? at h
  rw [hform] at h
  cases hname : dir.name with
  | none =>
    rw [hname] at h
    cases h
  | some name =>
    rw [hname] at h
    cases h
    refine ⟨(grown_foldl _ _).2, fun key => ?_⟩
    exact (get?_foldl_define _ _ key).trans (Option.none_or)

mutual

theorem listsMembers_openings (d : Draft) : (st : Statement) →
    (∀ s ∈ st.preorder, s.FormsAgree) → ∀ o ∈ d.openings st, o.ListsMembers
  | .label _, _ => by simp [openings]
  | .instruction _ _, _ => by simp [openings]
  | .expression _ _, _ => by simp [openings]
  | .directive _, _ => by simp [openings]
  | .block _ body _, hforms => by
    rw [Statement.preorder, List.forall_mem_cons] at hforms
    rw [openings]
    exact listsMembers_openingsAll d body hforms.2
  | .directiveBlock dir _ body closing, hforms => by
    rw [Statement.preorder, List.forall_mem_cons] at hforms
    obtain ⟨⟨-, hmembers⟩, hbody⟩ := hforms
    rw [openings]
    cases hopen : d.open? dir closing with
    | none => exact listsMembers_openingsAll d body hbody
    | some opened =>
      obtain ⟨d', child⟩ := opened
      rw [List.forall_mem_cons]
      refine ⟨listsMembers_of_open? _ hopen hmembers, fun o ho => ?_⟩
      obtain ⟨inner, hinner, rfl⟩ := List.mem_map.1 ho
      exact listsMembers_openingsAll child body hbody inner hinner

theorem listsMembers_openingsAll (d : Draft) : (sts : List Statement) →
    (∀ s ∈ Statement.preorders sts, s.FormsAgree) → ∀ o ∈ d.openingsAll sts, o.ListsMembers
  | [], _ => by simp [openingsAll]
  | st :: sts, hforms => by
    rw [Statement.preorders, List.forall_mem_append] at hforms
    rw [openingsAll, List.forall_mem_append]
    exact ⟨listsMembers_openings d st hforms.1, listsMembers_openingsAll _ sts hforms.2⟩

end

end Draft

/-! ## Looking up names -/

namespace Cursor

mutual

theorem map_visit (c : Cursor) : (st : Statement) → (c.visit st).map (·.2) = st.preorder
  | .label _ => by simp [visit, Statement.preorder]
  | .instruction _ _ => by simp [visit, Statement.preorder]
  | .expression _ _ => by simp [visit, Statement.preorder]
  | .directive _ => by simp [visit, Statement.preorder]
  | .directiveBlock d _ body _ => by
    rw [visit, Statement.preorder, List.map_cons, map_visits (c.body d) body]
  | .block _ body _ => by
    rw [visit, Statement.preorder, List.map_cons, map_visits c body]

theorem map_visits (c : Cursor) : (sts : List Statement) →
    (c.visits sts).map (·.2) = Statement.preorders sts
  | [] => by simp [visits, Statement.preorders]
  | st :: sts => by
    rw [visits, Statement.preorders, List.map_append, map_visit c st, map_visits c sts]

end

/-- What a chain of scopes has is found in one of them. -/
theorem steps_suffix_of_findKey? {key : String} {chain : List Scope} {steps : List Nat}
    {r : Resolved} (h : findKey? key chain steps = some r) : r.steps <:+ steps := by
  induction chain generalizing steps with
  | nil => cases h
  | cons s chain ih =>
    rw [findKey?] at h
    cases hs : s.symbols.get? key with
    | some symbol =>
      rw [hs] at h
      cases h
      exact List.suffix_rfl
    | none =>
      rw [hs] at h
      exact (ih h).trans (List.tail_suffix steps)

/-- A plain name refers to a symbol of the scope or of one around it. -/
theorem steps_suffix_of_refer? {c : Cursor} {name : String} {r : SymbolRef}
    (hplain : isQualified (Text.trim name) = false) (h : c.refer? name = some r) :
    r.steps <:+ c.steps := by
  obtain ⟨found, hfound, rfl⟩ := Option.map_eq_some_iff.1 h
  unfold find? at hfound
  simp only [hplain, Bool.false_eq_true, if_false] at hfound
  exact steps_suffix_of_findKey? hfound

/-- Within a scope without children a plain name refers to a symbol of the scope, or else to what it
means around the scope. A qualified name refers to nothing. -/
theorem refer?_within (c : Cursor) {child : Scope} (i : Nat) (hchild : child.children = [])
    (name : String) :
    (Cursor.mk child c.chain (i :: c.steps)).refer? name =
      if isQualified (Text.trim name) then none
      else ((child.symbols.get? (nameKey (Text.trim name))).map
        fun m => ⟨i :: c.steps, m.key⟩).or (c.refer? name) := by
  unfold refer? find?
  dsimp only
  split
  · simp [findMember?, Scope.childNamed?, hchild]
  · rw [chain, findKey?]
    cases child.symbols.get? (nameKey (Text.trim name)) <;> rfl

end Cursor

/-! ## The values of a parse -/

section Parse

variable {ref : Option Reference} {lexLimit limit : Int} {text : String} {parsed : Parsed}

/-- The scope of an enumeration with a block is found as a child of the scope around it. -/
theorem parse_enumeration_scope (h : parse ref lexLimit limit text = .ok parsed) (uri : String)
    (lines : Int) {c : Cursor} {d : Directive} {opening closing : Token} {body : List Statement}
    (hvisit : (c, .directiveBlock d opening body closing) ∈
      (Cursor.ofRoot (Scope.ofProgram uri lines parsed.program).1).visits
        parsed.program.statements)
    (hword : d.word = ".enum") :
    body = [] ∧ ∃ i child, c.scope.children[i]? = some child ∧
      c.body d = ⟨child, c.chain, i :: c.steps⟩ ∧ child.children = [] ∧
      ∀ key, child.symbols.get? key = (Enumeration.symbols d).find? (·.key == key) := by
  have hforms := parse_formsAgree h
  have hmem : Statement.directiveBlock d opening body closing ∈
      Statement.preorders parsed.program.statements := by
    rw [← Cursor.map_visits]
    exact List.mem_map_of_mem hvisit
  obtain ⟨hname, hbody⟩ := hforms _ hmem
  rw [hword] at hname hbody
  obtain ⟨name, hname⟩ := Option.isSome_iff_exists.1 hname
  have hscope : Cursor.scopeWords.contains d.word = true := by
    rw [hword]
    rfl
  -- What the search finds for the directive is one of the scopes that were opened.
  have hsought := Draft.sought_statements ⟨Scope.root uri lines, []⟩
    (Cursor.ofRoot (Scope.ofProgram uri lines parsed.program).1) parsed.program.statements
    List.prefix_rfl (parse_scope_increasing h uri lines) hforms
  have hfound : (d, (c.scope.childAt? name.literal name.place.toPosition).map
        fun i => (i :: c.steps).reverse, (c.body d).scope) ∈
      (Cursor.ofRoot (Scope.ofProgram uri lines parsed.program).1).sought
        parsed.program.statements := by
    refine List.mem_filterMap.2 ⟨_, hvisit, ?_⟩
    simp only [Cursor.sought?, Statement.scopeDirective?, hscope, if_true]
    simp [hname]
  rw [hsought] at hfound
  obtain ⟨o, ho, heq⟩ := List.mem_map.1 hfound
  obtain ⟨hd, hrest⟩ := Prod.mk.inj heq
  obtain ⟨haddress, hopened⟩ := Prod.mk.inj hrest
  obtain ⟨i, hi, -⟩ := Option.map_eq_some_iff.1 haddress.symm
  obtain ⟨hlt, -⟩ := List.findIdx?_eq_some_iff_getElem.1 hi
  have hread : c.body d = ⟨c.scope.children[i], c.chain, i :: c.steps⟩ := by
    rw [Cursor.body, hname]
    dsimp only
    rw [if_pos hscope, hi]
    dsimp only
    rw [Cursor.enter, List.getElem?_eq_getElem hlt]
  obtain ⟨hchildren, hmembers⟩ :=
    Draft.listsMembers_openingsAll _ _ hforms o ho (by rw [hd, hword])
  rw [hopened, hread] at hchildren hmembers
  rw [hd] at hmembers
  exact ⟨hbody rfl, i, _, List.getElem?_eq_getElem hlt, hread, hchildren, hmembers⟩

/-- **The values of an enumeration are looked up around it.** In the program of any text, the
references of an enumeration with a block are those of its values, seen from the scope around the
enumeration and not from the scope that it opened. There a plain name would refer to the first
member of that name, and to the same symbol as it does only if there is none; a qualified name would
refer to nothing. -/
theorem parse_enumeration_values (h : parse ref lexLimit limit text = .ok parsed) (uri : String)
    (lines : Int) {c : Cursor} {d : Directive} {opening closing : Token} {body : List Statement}
    (hvisit : (c, .directiveBlock d opening body closing) ∈
      (Cursor.ofRoot (Scope.ofProgram uri lines parsed.program).1).visits
        parsed.program.statements)
    (hword : d.word = ".enum") (texts : Array String) :
    statementReferences texts c (.directiveBlock d opening body closing) =
        c.references texts d.value ∧
      ∃ i child, c.scope.children[i]? = some child ∧ c.body d = ⟨child, c.chain, i :: c.steps⟩ ∧
        ∀ name : String,
          ((c.body d).refer? name =
            if isQualified (Text.trim name) then none
            else (((Enumeration.symbols d).find? (·.key == nameKey (Text.trim name))).map
              fun m => ⟨i :: c.steps, m.key⟩).or (c.refer? name)) ∧
          (isQualified (Text.trim name) = false →
            ∀ r, c.refer? name = some r → r.steps ≠ i :: c.steps) := by
  obtain ⟨rfl, i, child, hchild, hread, hchildren, hmembers⟩ :=
    parse_enumeration_scope h uri lines hvisit hword
  refine ⟨by simp [statementReferences, statementsReferences], i, child, hchild, hread, ?_⟩
  intro name
  refine ⟨?_, fun hplain r hr hsteps => ?_⟩
  · rw [hread, c.refer?_within i hchildren, hmembers]
  · have hsuffix := Cursor.steps_suffix_of_refer? hplain hr
    rw [hsteps] at hsuffix
    simpa using hsuffix.length_le

end Parse

/-- A label, and an enumeration with a member of its name that another member names. -/
def shadowedText : String :=
  "A:.enum E\x7bA,B=A\x7d"

theorem Statement.exists_of_scopeDirective? {st : Statement} {d : Directive}
    (h : st.scopeDirective? = some d) :
    ∃ opening body closing, st = .directiveBlock d opening body closing := by
  cases st with
  | directiveBlock d' opening body closing =>
    obtain ⟨-, ⟨⟩⟩ := Option.ite_none_right_eq_some.1 h
    exact ⟨opening, body, closing, rfl⟩
  | label | instruction | expression | directive | block => cases h

/-- In `shadowedText` the value of the second member refers to the label. In the scope of the
enumeration it would refer to the first member. -/
theorem parse_enumeration_values_shadowed :
    ∃ parsed c d opening body closing, parse none 128 128 shadowedText = .ok parsed ∧
      (c, .directiveBlock d opening body closing) ∈
        (Cursor.ofRoot (Scope.ofProgram "" 1 parsed.program).1).visits parsed.program.statements ∧
      d.word = ".enum" ∧
      c.references #[shadowedText] d.value = [⟨[], "A"⟩] ∧
      (c.body d).references #[shadowedText] d.value = [⟨[0], "A"⟩] ∧
      statementReferences #[shadowedText] c (.directiveBlock d opening body closing) =
        [⟨[], "A"⟩] := by
  obtain ⟨parsed, hparsed, hsome⟩ : ∃ parsed, parse none 128 128 shadowedText = .ok parsed ∧
      ((Cursor.ofRoot (Scope.ofProgram "" 1 parsed.program).1).visits
        parsed.program.statements).any (fun v => v.2.scopeDirective?.any fun d =>
          decide (d.word = ".enum" ∧ v.1.references #[shadowedText] d.value = [⟨[], "A"⟩] ∧
            (v.1.body d).references #[shadowedText] d.value = [⟨[0], "A"⟩])) = true :=
    exists_parsed_of_session 11 (by cbv) (by decide) (by decide +kernel)
  obtain ⟨⟨c, st⟩, hvisit, hst⟩ := List.any_eq_true.1 hsome
  obtain ⟨d, hd, hfacts⟩ := (Option.any_eq_true _ _).1 hst
  obtain ⟨opening, body, closing, rfl⟩ := Statement.exists_of_scopeDirective? hd
  obtain ⟨hword, haround, hwithin⟩ := of_decide_eq_true hfacts
  have hvalues := (parse_enumeration_values hparsed "" 1 hvisit hword #[shadowedText]).1
  exact ⟨parsed, c, d, opening, body, closing, hparsed, hvisit, hword, haround, hwithin,
    hvalues.trans haround⟩

/-- A member that is named in the value of another one is not counted as used and is reported. The
reference is counted for a symbol of the same name around the enumeration. -/
theorem parse_member_unused :
    ∃ parsed, parse none 128 128 shadowedText = .ok parsed ∧
      (parsed.program.statements.flatMap fun st => st.value.names.map (·.2)) = ["A"] ∧
      references parsed.program (Scope.ofProgram "" 1 parsed.program).1 shadowedText =
        [⟨[], "A"⟩] ∧
      (checkUsage .standard parsed.program (Scope.ofProgram "" 1 parsed.program).1
        shadowedText).2.map Diagnostic.message =
          ["Unused constant 'A'", "Unused constant 'B'"] :=
  exists_parsed_of_session 11 (by cbv) (by decide) (by decide +kernel)

end Asm6510
