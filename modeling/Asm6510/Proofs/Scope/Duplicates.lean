import Asm6510.Scope.Definitions
import Mathlib.Data.List.Basic

/-!
# Definitions are stored or reported

* `Statement.definitions`: the symbols that a statement defines, in the order of the text.
* `Scope.Stores`: a symbol is one of a scope or of a scope in it.
* `Draft.Records`: a symbol is stored, or reported as a second definition.

* `Draft.Carries`: a relation that a definition keeps to, and a block in a scope of its own; the
  walk over statements then keeps to it (`Draft.Carries.statements`).

Main statements: `Draft.carries_records`, every definition is recorded, and what was recorded stays
so (`Draft.Extends`); `Draft.carries_reports`, nothing but second definitions is reported.
-/

namespace Asm6510

/-! ## What is defined -/

/-- The symbol that a directive defines in the scope where it stands, if it opens none. -/
def Directive.plainDefinitions (dir : Directive) : List Symbol :=
  match dir.name with
  | none => []
  | some name =>
    match DefinitionForm.ofWord dir.word with
    | .value kind =>
      if dir.value.isMissing then [] else [Symbol.ofToken kind name dir.value.text?]
    | .label => [Symbol.ofToken .label name dir.value.text?]
    | .define => [Symbol.ofToken .constant name none]
    | _ => []

namespace Statement

mutual

/-- The symbols that a statement defines, those in its block included. -/
def definitions : Statement → List Symbol
  | label t =>
    if Text.startsWith (labelName t) "!" then []
    else [Symbol.plain .label (labelName t) t.place none]
  | instruction _ _ => []
  | expression _ _ => []
  | block _ body _ => allDefinitions body
  | directive dir => dir.plainDefinitions
  | directiveBlock dir _ body _ =>
    match dir.name, DefinitionForm.ofWord dir.word with
    | none, _ => allDefinitions body
    | some name, .callable kind =>
      Symbol.ofCallable kind name dir.parameters ::
        (dir.parameters.map (fun t => Symbol.ofToken .parameter t none) ++ allDefinitions body)
    | some name, .scope => Symbol.ofToken .scope name none :: allDefinitions body
    | some name, .enumeration => Symbol.ofToken .scope name none :: Enumeration.symbols dir
    | some _, .nothing => allDefinitions body
    | some _, _ => dir.plainDefinitions

def allDefinitions : List Statement → List Symbol
  | [] => []
  | s :: rest => definitions s ++ allDefinitions rest

end

end Statement

def Symbol.secondDefinition (s : Symbol) : Diagnostic where
  severity := .error
  range := s.nameRange
  message := "symbol '" ++ s.name ++ "' already defined in this scope"
  source := Stage.definitions.label

/-! ## What is stored -/

/-- The symbol is one of the scope or of a scope in it. -/
def Scope.Stores (scope : Scope) (s : Symbol) : Prop :=
  ∃ path c key, scope.at? path = some c ∧ (key, s) ∈ c.symbols.entries

/-- A new key comes behind the others. -/
theorem Table.putEntry_of_lookup_eq_none {α : Type} {key : String} {entry : α}
    {es : List (String × α)} (h : es.lookup key = none) :
    putEntry key entry es = es ++ [(key, entry)] := by
  induction es with
  | nil => rfl
  | cons e es ih =>
    obtain ⟨k, x⟩ := e
    by_cases hk : k = key
    · rw [hk, List.lookup_cons_self] at h
      cases h
    · rw [List.lookup_cons, beq_eq_false_iff_ne.2 (Ne.symm hk)] at h
      rw [putEntry, if_neg hk, ih h, List.cons_append]

namespace Scope

variable {scope child : Scope} {s : Symbol}

/-- A scope that gets further symbols and children stores what it stored. -/
theorem Stores.mono {scope' : Scope} (h : scope.Stores s)
    (hsymbols : scope.symbols.entries ⊆ scope'.symbols.entries)
    (hchildren : scope.children <+: scope'.children) : scope'.Stores s := by
  obtain ⟨path, c, key, hc, hs⟩ := h
  cases path with
  | nil =>
    cases hc
    exact ⟨[], _, key, rfl, hsymbols hs⟩
  | cons i path =>
    refine ⟨i :: path, c, key, ?_, hs⟩
    rw [at?, Option.bind_eq_some_iff] at hc ⊢
    obtain ⟨inner, hinner, hc⟩ := hc
    have hlt : i < scope.children.length := (List.getElem?_eq_some_iff.1 hinner).1
    obtain ⟨added, hadded⟩ := hchildren
    refine ⟨inner, ?_, hc⟩
    rw [← hadded, List.getElem?_append_left hlt]
    exact hinner

theorem Stores.withUri (h : child.Stores s) (uri : String) : { child with uri }.Stores s :=
  h.mono (List.Subset.refl _) List.prefix_rfl

theorem stores_attach_child (h : child.Stores s) : (scope.attach child).Stores s := by
  have hlast : ∀ c : Scope, c.Stores s →
      { scope with children := scope.children ++ [c] }.Stores s := by
    rintro c ⟨path, inner, key, hinner, hs⟩
    refine ⟨scope.children.length :: path, inner, key, ?_, hs⟩
    rw [at?, List.getElem?_concat_length]
    exact hinner
  unfold attach
  dsimp only
  split
  · exact hlast _ (h.withUri scope.uri)
  · exact hlast _ h

end Scope

namespace Draft

/-! ## The walk over statements -/

/-- A relation between drafts and the symbols that are defined on the way from one to the other. It
holds of one definition, and of a scope that is added with what its block defines. -/
structure Carries (R : Draft → Draft → List Symbol → Prop) : Prop where
  refl : ∀ d, R d d []
  trans : ∀ {d d' d'' : Draft} {xs ys : List Symbol}, R d d' xs → R d' d'' ys → R d d'' (xs ++ ys)
  define : ∀ d symbol, R d (d.define symbol) [symbol]
  attach : ∀ {d child : Draft} {name closing : Token} {xs : List Symbol},
    R ⟨childScope d.scope.uri name closing, d.diagnostics⟩ child xs → R d (d.attach child) xs

section Carries

variable {R : Draft → Draft → List Symbol → Prop}

theorem Carries.foldl (h : Carries R) (symbols : List Symbol) (d : Draft) :
    R d (symbols.foldl Draft.define d) symbols := by
  induction symbols generalizing d with
  | nil => exact h.refl d
  | cons symbol symbols ih => exact h.trans (h.define d symbol) (ih _)

theorem plainDirective_eq_foldl (d : Draft) (dir : Directive) :
    d.plainDirective dir = dir.plainDefinitions.foldl define d := by
  unfold plainDirective Directive.plainDefinitions
  cases dir.name with
  | none => rfl
  | some name =>
    dsimp only
    cases DefinitionForm.ofWord dir.word with
    | value kind =>
      dsimp only
      split <;> rfl
    | label | define | callable | scope | enumeration | nothing => rfl

theorem Carries.plainDirective (h : Carries R) (d : Draft) (dir : Directive) :
    R d (d.plainDirective dir) dir.plainDefinitions := by
  rw [plainDirective_eq_foldl]
  exact h.foldl _ d

/-- With a scope that a definition opens, the name is defined, then what is defined for the scope
and in it. -/
theorem Carries.openChild (h : Carries R) (d : Draft) {child : Draft} {name closing : Token}
    {symbol : Symbol} {symbols inside : List Symbol}
    (hchild : R ((d.define symbol).openChild name closing symbols) child inside) :
    R d ((d.define symbol).attach child) (symbol :: (symbols ++ inside)) :=
  h.trans (h.define d symbol) (h.attach (h.trans (h.foldl symbols _) hchild))

mutual

theorem Carries.statement (h : Carries R) (d : Draft) : (st : Statement) →
    R d (d.statement st) st.definitions
  | .label t => by
    rw [Draft.statement, Statement.definitions]
    split
    · exact h.refl d
    · exact h.define d _
  | .instruction _ _ => by
    rw [Draft.statement, Statement.definitions]
    exact h.refl d
  | .expression _ _ => by
    rw [Draft.statement, Statement.definitions]
    exact h.refl d
  | .block _ body _ => by
    rw [Draft.statement, Statement.definitions]
    exact h.statements d body
  | .directive dir => by
    rw [Draft.statement, Statement.definitions]
    exact h.plainDirective d dir
  | .directiveBlock dir opening body closing => by
    have hbody := fun d => h.statements d body
    rw [Draft.statement, Statement.definitions]
    cases dir.name with
    | none => exact hbody d
    | some name =>
      dsimp only
      cases DefinitionForm.ofWord dir.word with
      | callable | scope => exact h.openChild d (hbody _)
      | enumeration =>
        dsimp only
        rw [← List.append_nil (_ :: Enumeration.symbols dir)]
        exact h.openChild d (h.refl _)
      | nothing => exact hbody d
      | value | label | define => exact h.plainDirective d dir

/-- **A relation that is carried holds along the walk over statements.** -/
theorem Carries.statements (h : Carries R) (d : Draft) : (sts : List Statement) →
    R d (d.statements sts) (Statement.allDefinitions sts)
  | [] => by
    rw [Draft.statements, Statement.allDefinitions]
    exact h.refl d
  | st :: sts => by
    rw [Draft.statements, Statement.allDefinitions]
    exact h.trans (h.statement d st) (h.statements (d.statement st) sts)

end

end Carries

/-! ## What is recorded -/

/-- The symbol is stored, or reported as a second definition. -/
def Records (d : Draft) (s : Symbol) : Prop :=
  d.scope.Stores s ∨ s.secondDefinition ∈ d.diagnostics

/-- What is stored and reported in a draft is so in another one. -/
structure Extends (d d' : Draft) : Prop where
  stores : ∀ s, d.scope.Stores s → d'.scope.Stores s
  diagnostics : d.diagnostics ⊆ d'.diagnostics

variable {d d' d'' child : Draft} {s : Symbol}

theorem Extends.refl (d : Draft) : d.Extends d :=
  ⟨fun _ h => h, List.Subset.refl _⟩

theorem Extends.trans (h : d.Extends d') (h' : d'.Extends d'') : d.Extends d'' :=
  ⟨fun s hs => h'.stores s (h.stores s hs), List.Subset.trans h.diagnostics h'.diagnostics⟩

theorem Extends.records (h : d.Extends d') (hs : d.Records s) : d'.Records s :=
  hs.imp (h.stores s) (fun hm => h.diagnostics hm)

theorem Records.attach (h : child.Records s) : (d.attach child).Records s :=
  h.imp Scope.stores_attach_child id

/-- **Nothing but second definitions is reported.** -/
theorem carries_reports :
    Carries fun d d' xs => ∀ x ∈ d'.diagnostics,
      x ∈ d.diagnostics ∨ ∃ s ∈ xs, x = s.secondDefinition where
  refl d x hx := .inl hx
  trans h h' x hx := by
    rcases h' x hx with hx | ⟨s, hs, heq⟩
    · rcases h x hx with hx | ⟨s, hs, heq⟩
      · exact .inl hx
      · exact .inr ⟨s, List.mem_append_left _ hs, heq⟩
    · exact .inr ⟨s, List.mem_append_right _ hs, heq⟩
  define d symbol := by
    unfold define Scope.declare
    cases d.scope.symbols.get? symbol.key with
    | some first =>
      intro x hx
      rcases List.mem_append.1 hx with hx | hx
      · exact .inl hx
      · exact .inr ⟨symbol, List.mem_singleton.2 rfl, List.mem_singleton.1 hx⟩
    | none => exact fun _ hx => .inl hx
  attach h := h

end Draft

/-- A report about the definitions of a program is that of a second definition. -/
theorem Scope.reports_ofProgram {uri : String} {lines : Int} {p : Program} {d : Diagnostic}
    (hd : d ∈ (Scope.ofProgram uri lines p).2) :
    ∃ s ∈ Statement.allDefinitions p.statements, d = s.secondDefinition :=
  (Draft.carries_reports.statements ⟨Scope.root uri lines, []⟩ p.statements d hd).resolve_left
    List.not_mem_nil

end Asm6510
