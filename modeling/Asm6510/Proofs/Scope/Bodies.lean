import Asm6510.Proofs.Scope.Duplicates
import Asm6510.Proofs.Scope.Ranges
import Asm6510.Usage
import Mathlib

/-!
# Blocks and their scopes

The scopes of a program are made in one walk over its statements and looked up in another one.

* `Draft.openings`: the scopes that the first walk opens, each with its directive and its address.
* `Cursor.visits`: the statements of the second walk, each with the scope in which it is read.
* `Cursor.sought`: what the second walk finds for the directives whose block is a scope.

Main statement: `parse_bodies_agree`, the second walk finds what the first one opened. The scopes
opened in one scope start at increasing positions, so the one at the position of a name is found at
the index at which it was added (`childAt?_of_increasing`).
-/

namespace Asm6510

open Grammar

variable {dir : Directive} {c : Scope} {closing opening : Token} {body : List Statement}
  {d' child d : Draft}

/-! ## Directives that open scopes -/

/-- The definitions that open a scope. -/
def DefinitionForm.opensScope : DefinitionForm → Bool
  | callable _ => true
  | scope => true
  | enumeration => true
  | _ => false

theorem scopeWords_cases {word : String} (h : word ∈ Cursor.scopeWords) :
    word = ".namespace" ∨ word = ".enum" ∨ word = ".function" ∨ word = ".macro" ∨
      word = ".pseudocommand" := by
  simpa [Cursor.scopeWords] using h

/-- A property of words that these five have, and no other, is to be one of them. -/
theorem scopeWords_contains_eq {f : String → Bool} (hwords : Cursor.scopeWords.all f = true)
    (hothers : ∀ word, word ∉ Cursor.scopeWords → f word = false) (word : String) :
    Cursor.scopeWords.contains word = f word := by
  by_cases h : word ∈ Cursor.scopeWords
  · rw [List.contains_iff_mem.2 h, List.all_eq_true.1 hwords word h]
  · rw [hothers word h]
    simpa using h

/-- The words whose blocks are looked up are those whose definitions open scopes. -/
theorem scopeWords_contains (word : String) :
    Cursor.scopeWords.contains word = (DefinitionForm.ofWord word).opensScope := by
  refine scopeWords_contains_eq (f := fun word => (DefinitionForm.ofWord word).opensScope) rfl
    (fun word h => ?_) word
  simp only [Cursor.scopeWords, List.mem_cons, List.not_mem_nil, or_false, not_or] at h
  unfold DefinitionForm.ofWord
  split <;> simp_all [DefinitionForm.opensScope]

/-- The directives whose blocks have names are those whose definitions open scopes. -/
theorem namesBlock_ofWord (word : String) :
    (DirectiveForm.ofWord word).namesBlock = (DefinitionForm.ofWord word).opensScope := by
  rw [← scopeWords_contains, eq_comm]
  refine scopeWords_contains_eq (f := fun word => (DirectiveForm.ofWord word).namesBlock) rfl
    (fun word h => ?_) word
  simp only [Cursor.scopeWords, List.mem_cons, List.not_mem_nil, or_false, not_or] at h
  simp only [DirectiveForm.ofWord, h.1, h.2.1, h.2.2.1, h.2.2.2.1, h.2.2.2.2, if_false]
  split_ifs <;> rfl

theorem form_of_enumeration {word : String} (h : DefinitionForm.ofWord word = .enumeration) :
    DirectiveForm.ofWord word = .enumeration := by
  have hmem : word ∈ Cursor.scopeWords := by
    rw [← List.contains_iff_mem, scopeWords_contains, h]
    rfl
  rcases scopeWords_cases hmem with rfl | rfl | rfl | rfl | rfl
  · cases h
  · rfl
  · cases h
  · cases h
  · cases h

/-! ## What is opened -/

/-- A scope keeps its name, its range and its document, and only gets further children. -/
structure Scope.Grown (s s' : Scope) : Prop where
  name : s'.name = s.name
  range : s'.range = s.range
  uri : s'.uri = s.uri
  children : s.children <+: s'.children

namespace Scope

variable {s s' s'' child : Scope}

theorem Grown.refl (s : Scope) : Grown s s :=
  ⟨rfl, rfl, rfl, List.prefix_rfl⟩

theorem Grown.trans (h : Grown s s') (h' : Grown s' s'') : Grown s s'' :=
  ⟨h'.name.trans h.name, h'.range.trans h.range, h'.uri.trans h.uri,
    h.children.trans h'.children⟩

theorem Grown.at? (h : Grown s s') {i : Nat} {path : List Nat} (hc : s.at? (i :: path) = some c) :
    s'.at? (i :: path) = some c := by
  rw [Scope.at?, Option.bind_eq_some_iff] at hc ⊢
  obtain ⟨inner, hinner, hc⟩ := hc
  obtain ⟨new, hnew⟩ := h.children
  have hlt : i < s.children.length := (List.getElem?_eq_some_iff.1 hinner).1
  exact ⟨inner, by rw [← hnew, List.getElem?_append_left hlt, hinner], hc⟩

theorem attach_of_uri (h : child.uri = s.uri) :
    s.attach child = { s with children := s.children ++ [child] } := by
  obtain ⟨name, range, uri, symbols, children⟩ := child
  cases h
  unfold attach
  dsimp only
  split <;> rfl

end Scope

/-- A scope that a directive opened: its address from the scope in which the directive stands, and
the scope as it is behind the block. -/
structure Opening where
  directive : Directive
  address : List Nat
  scope : Scope

/-- An opening seen from the scope around that of its directive. -/
def Opening.under (i : Nat) (o : Opening) : Opening :=
  { o with address := i :: o.address }

namespace Draft

/-- What a directive with a block opens: the draft behind the definition of its name, and the draft
of the scope with its parameters or members. -/
def open? (d : Draft) (dir : Directive) (closing : Token) : Option (Draft × Draft) :=
  match dir.name, DefinitionForm.ofWord dir.word with
  | some name, .callable kind =>
    let d := d.define (Symbol.ofCallable kind name dir.parameters)
    some (d, d.openChild name closing
      (dir.parameters.map fun t => Symbol.ofToken .parameter t none))
  | some name, .scope =>
    let d := d.define (Symbol.ofToken .scope name none)
    some (d, d.openChild name closing [])
  | some name, .enumeration =>
    let d := d.define (Symbol.ofToken .scope name none)
    some (d, d.openChild name closing (Enumeration.symbols dir))
  | _, _ => none

mutual

/-- The scopes that a statement opens, in the order of the text. -/
def openings (d : Draft) : Statement → List Opening
  | .label _ => []
  | .instruction _ _ => []
  | .expression _ _ => []
  | .directive _ => []
  | .block _ body _ => d.openingsAll body
  | .directiveBlock dir _ body closing =>
    match d.open? dir closing with
    | none => d.openingsAll body
    | some (d, child) =>
      ⟨dir, [d.scope.children.length], (child.statements body).scope⟩ ::
        (child.openingsAll body).map (Opening.under d.scope.children.length)

def openingsAll (d : Draft) : List Statement → List Opening
  | [] => []
  | s :: rest => d.openings s ++ (d.statement s).openingsAll rest

end

theorem grown_define (d : Draft) (symbol : Symbol) :
    d.scope.Grown (d.define symbol).scope ∧
      (d.define symbol).scope.children = d.scope.children := by
  unfold define Scope.declare
  cases d.scope.symbols.get? symbol.key with
  | some first => exact ⟨.refl _, rfl⟩
  | none => exact ⟨⟨rfl, rfl, rfl, List.prefix_rfl⟩, rfl⟩

theorem grown_foldl (symbols : List Symbol) (d : Draft) :
    d.scope.Grown (symbols.foldl define d).scope ∧
      (symbols.foldl define d).scope.children = d.scope.children := by
  induction symbols generalizing d with
  | nil => exact ⟨.refl _, rfl⟩
  | cons symbol symbols ih =>
    obtain ⟨hfirst, hchildren⟩ := d.grown_define symbol
    obtain ⟨hmore, hrest⟩ := ih (d.define symbol)
    exact ⟨hfirst.trans hmore, hrest.trans hchildren⟩

theorem grown_attach (d child : Draft) : d.scope.Grown (d.attach child).scope :=
  ⟨rfl, rfl, rfl, List.prefix_append _ _⟩

theorem carries_grown : Carries fun d d' _ => d.scope.Grown d'.scope where
  refl d := .refl d.scope
  trans h h' := h.trans h'
  define d symbol := (d.grown_define symbol).1
  attach _ := grown_attach _ _

theorem grown_statement (d : Draft) (st : Statement) : d.scope.Grown (d.statement st).scope :=
  carries_grown.statement d st

theorem grown_statements (d : Draft) (sts : List Statement) :
    d.scope.Grown (d.statements sts).scope :=
  carries_grown.statements d sts

/-- The scope that a directive with a name opens, before the statements of its block are read: it
starts at the name, belongs to the document of the scope around it, and has no children. -/
structure Opens (d : Draft) (name : Token) (d' child : Draft) : Prop where
  children_eq : d'.scope.children = d.scope.children
  name_eq : child.scope.name = name.literal
  start_eq : child.scope.range.start = name.place.toPosition
  uri_eq : child.scope.uri = d'.scope.uri
  empty : child.scope.children = []

theorem opens_openChild (d : Draft) (name closing : Token) (symbol : Symbol)
    (symbols : List Symbol) :
    d.Opens name (d.define symbol) ((d.define symbol).openChild name closing symbols) := by
  obtain ⟨hgrown, hchildren⟩ :=
    grown_foldl symbols ⟨childScope (d.define symbol).scope.uri name closing, _⟩
  exact ⟨(d.grown_define symbol).2, hgrown.name, congrArg Range.start hgrown.range, hgrown.uri,
    hchildren⟩

/-- A directive with a block whose name stands with its form opens a scope, if it has a name. -/
theorem open?_cases (d : Draft) (closing : Token)
    (hname : dir.name.isSome = (DefinitionForm.ofWord dir.word).opensScope) :
    dir.name = none ∧ d.open? dir closing = none ∨
    ∃ name d' child, dir.name = some name ∧ d.open? dir closing = some (d', child) ∧
      d.Opens name d' child := by
  unfold open?
  cases hd : dir.name with
  | none => exact .inl ⟨rfl, rfl⟩
  | some name =>
    rw [hd] at hname
    cases hform : DefinitionForm.ofWord dir.word with
    | callable | scope | enumeration =>
      exact .inr ⟨name, _, _, rfl, rfl, d.opens_openChild name closing _ _⟩
    | value | label | define | nothing =>
      rw [hform] at hname
      cases hname

/-- A directive that opens no scope leaves its block to the scope around it. -/
theorem statement_of_name_none (d : Draft) (h : dir.name = none) :
    d.statement (.directiveBlock dir opening body closing) = d.statements body := by
  rw [statement, h]

/-- A directive that opens a scope adds it with what its block defines. -/
theorem statement_of_open? (d : Draft) {d' child : Draft}
    (h : d.open? dir closing = some (d', child))
    (hbody : DefinitionForm.ofWord dir.word = .enumeration → body = []) :
    d.statement (.directiveBlock dir opening body closing) =
      d'.attach (child.statements body) := by
  rw [statement]
  unfold open? at h
  cases hd : dir.name with
  | none =>
    rw [hd] at h
    cases h
  | some name =>
    rw [hd] at h
    cases hform : DefinitionForm.ofWord dir.word with
    | callable | scope =>
      rw [hform] at h
      cases h
      rfl
    | enumeration =>
      rw [hform] at h
      cases h
      rw [hbody hform]
      simp only [statements]
    | value | label | define | nothing =>
      rw [hform] at h
      cases h

end Draft

/-! ## What is looked up -/

/-- The expression of a statement: an operand, the value of a directive, or a call. -/
def Statement.value : Statement → Expr
  | label _ => .missing
  | instruction _ operand => operand
  | expression _ e => e
  | directive d => d.value
  | directiveBlock d _ _ _ => d.value
  | block _ _ _ => .missing

/-- The directive of a block that is a scope of its own. -/
def Statement.scopeDirective? : Statement → Option Directive
  | directiveBlock d _ _ _ => if Cursor.scopeWords.contains d.word then some d else none
  | _ => none

namespace Cursor

mutual

/-- A statement and those in it, each with the scope in which it is read. -/
def visit (c : Cursor) : Statement → List (Cursor × Statement)
  | .label t => [(c, .label t)]
  | .instruction t e => [(c, .instruction t e)]
  | .expression t e => [(c, .expression t e)]
  | .directive d => [(c, .directive d)]
  | .directiveBlock d opening body closing =>
    (c, .directiveBlock d opening body closing) :: (c.body d).visits body
  | .block opening body closing => (c, .block opening body closing) :: c.visits body

/-- Several statements and those in them, each with the scope in which it is read. -/
def visits (c : Cursor) : List Statement → List (Cursor × Statement)
  | [] => []
  | s :: rest => c.visit s ++ c.visits rest

end

/-- What is found for the block of a directive that is a scope of its own: the address of the scope,
if there is one, and the scope in which the block is read. -/
def sought? (c : Cursor) (s : Statement) : Option (Directive × Option (List Nat) × Scope) := do
  let d ← s.scopeDirective?
  let name ← d.name
  let found := c.scope.childAt? name.literal name.place.toPosition
  return (d, found.map fun i => (i :: c.steps).reverse, (c.body d).scope)

/-- What is found for the blocks of statements that are scopes of their own. -/
def sought (c : Cursor) (sts : List Statement) : List (Directive × Option (List Nat) × Scope) :=
  (c.visits sts).filterMap fun v => v.1.sought? v.2

mutual

theorem references_visit (lines : Array String) (c : Cursor) : (st : Statement) →
    statementReferences lines c st =
      (c.visit st).flatMap fun v => v.1.references lines v.2.value
  | .label _ => by
    rw [statementReferences, visit, List.flatMap_singleton]
    rfl
  | .instruction _ _ => by
    rw [statementReferences, visit, List.flatMap_singleton]
    rfl
  | .expression _ _ => by
    rw [statementReferences, visit, List.flatMap_singleton]
    rfl
  | .directive _ => by
    rw [statementReferences, visit, List.flatMap_singleton]
    rfl
  | .directiveBlock d _ body _ => by
    rw [statementReferences, visit, List.flatMap_cons, references_visits lines (c.body d) body]
    rfl
  | .block _ body _ => by
    rw [statementReferences, visit, List.flatMap_cons, references_visits lines c body]
    simp [Statement.value, references, Expr.names]

/-- The references of statements are those of their expressions, each looked up from the scope in
which its statement is read. -/
theorem references_visits (lines : Array String) (c : Cursor) : (sts : List Statement) →
    statementsReferences lines c sts =
      (c.visits sts).flatMap fun v => v.1.references lines v.2.value
  | [] => by simp [statementsReferences, visits]
  | st :: sts => by
    rw [statementsReferences, visits, List.flatMap_append, references_visit lines c st,
      references_visits lines c sts]

end

end Cursor

/-! ## Agreement -/

/-- In a scope and in all scopes in it, the children start at increasing positions. -/
def Scope.Increasing (s : Scope) : Prop :=
  ∀ path c, s.at? path = some c → c.children.Pairwise fun x y => x.range.start < y.range.start

namespace Scope

variable {s child : Scope} {i : Nat}

/-- Where children start at increasing positions, a child is found by its name and its start. -/
theorem childAt?_of_increasing
    (h : s.children.Pairwise fun x y => x.range.start < y.range.start)
    (hchild : s.children[i]? = some child) :
    s.childAt? child.name child.range.start = some i := by
  obtain ⟨hi, rfl⟩ := List.getElem?_eq_some_iff.1 hchild
  unfold childAt?
  rw [List.findIdx?_eq_some_iff_getElem]
  refine ⟨hi, by simp, fun j hj => ?_⟩
  have hlt := List.pairwise_iff_getElem.1 h j i (hj.trans hi) hi hj
  simp [hlt.ne]

theorem Increasing.below (h : s.Increasing) (hchild : s.children[i]? = some child) :
    child.Increasing := by
  intro path c hc
  refine h (i :: path) c ?_
  rw [at?, hchild]
  exact hc

end Scope

/-- A directive with a block has a name if its definition opens a scope, and none otherwise. Where
only members are defined the block holds no statements. -/
def Statement.FormsAgree : Statement → Prop
  | directiveBlock d _ body _ =>
    d.name.isSome = (DefinitionForm.ofWord d.word).opensScope ∧
      (DefinitionForm.ofWord d.word = .enumeration → body = [])
  | _ => True

/-- An opening as it is found from a scope. -/
def Opening.found (c : Cursor) (o : Opening) : Directive × Option (List Nat) × Scope :=
  (o.directive, some (c.steps.reverse ++ o.address), o.scope)

namespace Draft

/-- A directive that opens a scope, over a tree with that scope: the scope is found at the index at
which it was added, and the block is read in it. -/
theorem Opens.found {name : Token} (h : d.Opens name d' child) (opening closing : Token)
    {c : Cursor} (hname : dir.name = some name)
    (hscope : (DefinitionForm.ofWord dir.word).opensScope = true)
    (htree : (d'.attach (child.statements body)).scope.children <+: c.scope.children)
    (hinc : c.scope.Increasing) :
    c.scope.children[d'.scope.children.length]? = some (child.statements body).scope ∧
      c.body dir = c.enter d'.scope.children.length ∧
      c.sought? (.directiveBlock dir opening body closing) = some (Opening.found c
        ⟨dir, [d'.scope.children.length], (child.statements body).scope⟩) := by
  have hgrown := child.grown_statements body
  have hchild : c.scope.children[d'.scope.children.length]? =
      some (child.statements body).scope := by
    obtain ⟨new, hnew⟩ := htree
    rw [attach, Scope.attach_of_uri (hgrown.uri.trans h.uri_eq)] at hnew
    rw [← hnew]
    simp
  have hfound : c.scope.childAt? name.literal name.place.toPosition =
      some d'.scope.children.length := by
    have hat := Scope.childAt?_of_increasing (hinc [] c.scope rfl) hchild
    rwa [hgrown.name, h.name_eq, hgrown.range, h.start_eq] at hat
  have hword : Cursor.scopeWords.contains dir.word = true := by
    rw [scopeWords_contains, hscope]
  have hbody : c.body dir = c.enter d'.scope.children.length := by
    unfold Cursor.body
    rw [hname]
    dsimp only
    rw [if_pos hword, hfound]
  have hscoped : (Statement.directiveBlock dir opening body closing).scopeDirective? = some dir :=
    if_pos hword
  refine ⟨hchild, hbody, ?_⟩
  rw [Cursor.sought?, hscoped]
  simp [hname, hfound, hbody, Cursor.enter, hchild, Opening.found]

mutual

theorem sought_statement (d : Draft) (c : Cursor) : (st : Statement) →
    (d.statement st).scope.children <+: c.scope.children → c.scope.Increasing →
    (∀ s ∈ st.preorder, s.FormsAgree) →
    (c.visit st).filterMap (fun v => v.1.sought? v.2) = (d.openings st).map (Opening.found c)
  | .label _ => by
    intro _ _ _
    rw [Cursor.visit, openings]
    rfl
  | .instruction _ _ => by
    intro _ _ _
    rw [Cursor.visit, openings]
    rfl
  | .expression _ _ => by
    intro _ _ _
    rw [Cursor.visit, openings]
    rfl
  | .directive _ => by
    intro _ _ _
    rw [Cursor.visit, openings]
    rfl
  | .block opening body closing => by
    intro htree hinc hforms
    rw [Statement.preorder, List.forall_mem_cons] at hforms
    rw [statement] at htree
    rw [Cursor.visit, openings, ← sought_statements d c body htree hinc hforms.2]
    rfl
  | .directiveBlock dir opening body closing => by
    intro htree hinc hforms
    rw [Statement.preorder, List.forall_mem_cons] at hforms
    obtain ⟨⟨hname, hmembers⟩, hbody⟩ := hforms
    rw [Cursor.visit, openings]
    rcases d.open?_cases closing hname with ⟨hnone, hopen⟩ | ⟨name, d', child, hsome, hopen, hopens⟩
    · -- the block belongs to the scope around it in both walks
      have hread : c.body dir = c := by rw [Cursor.body, hnone]
      have hnothing : c.sought? (.directiveBlock dir opening body closing) = none := by
        simp [Cursor.sought?, Statement.scopeDirective?, hnone]
      rw [d.statement_of_name_none hnone] at htree
      rw [hopen, hread, List.filterMap_cons, hnothing]
      exact sought_statements d c body htree hinc hbody
    · rw [hsome] at hname
      rw [d.statement_of_open? hopen hmembers] at htree
      obtain ⟨hchild, hread, hfound⟩ :=
        hopens.found opening closing hsome hname.symm htree hinc
      have hentered : c.enter d'.scope.children.length =
          ⟨(child.statements body).scope, c.chain, d'.scope.children.length :: c.steps⟩ := by
        rw [Cursor.enter, hchild]
      have hinner := sought_statements child (c.enter d'.scope.children.length) body
        (by rw [hentered]) (by rw [hentered]; exact hinc.below hchild) hbody
      rw [Cursor.sought] at hinner
      rw [hopen, hread, List.filterMap_cons, hfound]
      dsimp only
      rw [List.map_cons, hinner, List.map_map, hentered]
      simp [Opening.found, Opening.under, Function.comp_def]

/-- The second walk finds what the first one opened, over a tree that has what the first one made
first, and in which children start at increasing positions. -/
theorem sought_statements (d : Draft) (c : Cursor) : (sts : List Statement) →
    (d.statements sts).scope.children <+: c.scope.children → c.scope.Increasing →
    (∀ s ∈ Statement.preorders sts, s.FormsAgree) →
    c.sought sts = (d.openingsAll sts).map (Opening.found c)
  | [] => by simp [Cursor.sought, Cursor.visits, openingsAll]
  | st :: sts => by
    intro htree hinc hforms
    rw [Statement.preorders, List.forall_mem_append] at hforms
    rw [statements] at htree
    have hfirst := ((d.statement st).grown_statements sts).children.trans htree
    rw [Cursor.sought, Cursor.visits, List.filterMap_append, openingsAll, List.map_append,
      sought_statement d c st hfirst hinc hforms.1]
    exact congrArg _ (sought_statements (d.statement st) c sts htree hinc hforms.2)

end

end Draft

/-! ## Addresses of what is opened -/

/-- An opening is one of the scopes that a scope gained: it is below a new child, and it is found at
its address. -/
structure Opening.Placed (s s' : Scope) (o : Opening) : Prop where
  new : ∃ i path, o.address = i :: path ∧ s.children.length ≤ i ∧ i < s'.children.length
  at_eq : s'.at? o.address = some o.scope

namespace Opening

variable {s s' s₀ s₁ : Scope} {o : Opening}

theorem Placed.mono (h : o.Placed s s') (hbefore : s₀.Grown s) (hbehind : s'.Grown s₁) :
    o.Placed s₀ s₁ := by
  obtain ⟨i, path, haddress, hlo, hhi⟩ := h.new
  have hat := h.at_eq
  rw [haddress] at hat
  refine ⟨⟨i, path, haddress, ?_, ?_⟩, ?_⟩
  · exact hbefore.children.length_le.trans hlo
  · exact hhi.trans_le hbehind.children.length_le
  · rw [haddress]
    exact hbehind.at? hat

theorem Placed.under {child : Scope} (h : o.Placed s child) (huri : child.uri = s₀.uri) :
    (o.under s₀.children.length).Placed s₀ (s₀.attach child) := by
  rw [Scope.attach_of_uri huri]
  refine ⟨⟨_, _, rfl, le_rfl, by simp⟩, ?_⟩
  rw [Opening.under, Scope.at?]
  simpa using h.at_eq

/-- Openings below different children have different addresses. -/
theorem Placed.address_ne {o' : Opening} (h : o.Placed s s') (h' : o'.Placed s' s₁) :
    o.address ≠ o'.address := by
  obtain ⟨i, path, haddress, -, hhi⟩ := h.new
  obtain ⟨j, path', haddress', hlo, -⟩ := h'.new
  rw [haddress, haddress']
  intro heq
  have hij : i = j := (List.cons.inj heq).1
  omega

end Opening

namespace Draft

/-- Openings are scopes that a draft gained, and no two have one address. -/
def Gained (d d' : Draft) (os : List Opening) : Prop :=
  (∀ o ∈ os, o.Placed d.scope d'.scope) ∧ (os.map Opening.address).Nodup

theorem Gained.nil (d d' : Draft) : Gained d d' [] :=
  ⟨fun _ ho => absurd ho List.not_mem_nil, List.nodup_nil⟩

theorem Gained.append {d'' : Draft} {os os' : List Opening} (h : Gained d d' os)
    (h' : Gained d' d'' os') (hgrown : d.scope.Grown d'.scope)
    (hgrown' : d'.scope.Grown d''.scope) :
    Gained d d'' (os ++ os') := by
  refine ⟨fun o ho => ?_, ?_⟩
  · rcases List.mem_append.1 ho with ho | ho
    · exact (h.1 o ho).mono (.refl _) hgrown'
    · exact (h'.1 o ho).mono hgrown (.refl _)
  · rw [List.map_append, List.nodup_append]
    refine ⟨h.2, h'.2, ?_⟩
    intro a ha b hb
    obtain ⟨o, ho, rfl⟩ := List.mem_map.1 ha
    obtain ⟨o', ho', rfl⟩ := List.mem_map.1 hb
    exact (h.1 o ho).address_ne (h'.1 o' ho')

/-- A scope is opened, then those in its block. -/
theorem Gained.cons {child' : Draft} {os : List Opening} (h : Gained child child' os)
    (huri : child'.scope.uri = d'.scope.uri) (hchildren : d'.scope.children = d.scope.children) :
    Gained d (d'.attach child') (⟨dir, [d'.scope.children.length], child'.scope⟩ ::
      os.map (Opening.under d'.scope.children.length)) := by
  have hplaced : ∀ o : Opening, o.Placed d'.scope (d'.attach child').scope →
      o.Placed d.scope (d'.attach child').scope := by
    intro o ho
    obtain ⟨i, path, haddress, hlo, hhi⟩ := ho.new
    exact ⟨⟨i, path, haddress, hchildren ▸ hlo, hhi⟩, ho.at_eq⟩
  refine ⟨fun o ho => hplaced o ?_, ?_⟩
  · rcases List.mem_cons.1 ho with rfl | ho
    · refine ⟨⟨_, [], rfl, le_rfl, ?_⟩, ?_⟩
      · simp [attach, Scope.attach]
      · rw [attach, Scope.attach_of_uri huri]
        simp [Scope.at?]
    · obtain ⟨inner, hinner, rfl⟩ := List.mem_map.1 ho
      exact (h.1 inner hinner).under huri
  · rw [List.map_cons, List.map_map, List.nodup_cons]
    constructor
    · intro hmem
      obtain ⟨o, ho, heq⟩ := List.mem_map.1 hmem
      obtain ⟨i, path, haddress, -⟩ := (h.1 o ho).new
      simp [Opening.under, haddress] at heq
    · have hunder : (Opening.address ∘ Opening.under d'.scope.children.length) =
          (List.cons d'.scope.children.length) ∘ Opening.address := rfl
      rw [hunder, ← List.map_map]
      exact h.2.map List.cons_injective

mutual

theorem gained_openings (d : Draft) : (st : Statement) → (∀ s ∈ st.preorder, s.FormsAgree) →
    Gained d (d.statement st) (d.openings st)
  | .label _, _ => by
    rw [openings]
    exact .nil _ _
  | .instruction _ _, _ => by
    rw [openings]
    exact .nil _ _
  | .expression _ _, _ => by
    rw [openings]
    exact .nil _ _
  | .directive _, _ => by
    rw [openings]
    exact .nil _ _
  | .block _ body _, hforms => by
    rw [Statement.preorder, List.forall_mem_cons] at hforms
    rw [openings, statement]
    exact gained_openingsAll d body hforms.2
  | .directiveBlock dir _ body closing, hforms => by
    rw [Statement.preorder, List.forall_mem_cons] at hforms
    obtain ⟨⟨hname, hmembers⟩, hbody⟩ := hforms
    rw [openings]
    rcases d.open?_cases closing hname with ⟨hnone, hopen⟩ | ⟨name, d', child, -, hopen, hopens⟩
    · rw [hopen, d.statement_of_name_none hnone]
      exact gained_openingsAll d body hbody
    · rw [hopen, d.statement_of_open? hopen hmembers]
      exact (gained_openingsAll child body hbody).cons
        ((child.grown_statements body).uri.trans hopens.uri_eq) hopens.children_eq

/-- What statements open is found at its address in what they make. -/
theorem gained_openingsAll (d : Draft) : (sts : List Statement) →
    (∀ s ∈ Statement.preorders sts, s.FormsAgree) →
    Gained d (d.statements sts) (d.openingsAll sts)
  | [], _ => by
    rw [openingsAll]
    exact .nil _ _
  | st :: sts, hforms => by
    rw [Statement.preorders, List.forall_mem_append] at hforms
    rw [openingsAll, statements]
    exact (gained_openings d st hforms.1).append (gained_openingsAll _ sts hforms.2)
      (d.grown_statement st) ((d.statement st).grown_statements sts)

end

mutual

theorem directives_openings (d : Draft) : (st : Statement) → (∀ s ∈ st.preorder, s.FormsAgree) →
    (d.openings st).map Opening.directive = st.preorder.filterMap Statement.scopeDirective?
  | .label _, _ => by
    rw [openings, Statement.preorder]
    rfl
  | .instruction _ _, _ => by
    rw [openings, Statement.preorder]
    rfl
  | .expression _ _, _ => by
    rw [openings, Statement.preorder]
    rfl
  | .directive _, _ => by
    rw [openings, Statement.preorder]
    rfl
  | .block _ body _, hforms => by
    rw [Statement.preorder, List.forall_mem_cons] at hforms
    rw [openings, Statement.preorder, List.filterMap_cons]
    exact directives_openingsAll d body hforms.2
  | .directiveBlock dir opening body closing, hforms => by
    rw [Statement.preorder, List.forall_mem_cons] at hforms
    obtain ⟨⟨hname, -⟩, hbody⟩ := hforms
    have hscoped : (Statement.directiveBlock dir opening body closing).scopeDirective? =
        if dir.name.isSome then some dir else none := by
      rw [Statement.scopeDirective?, scopeWords_contains, hname]
    rw [openings, Statement.preorder, List.filterMap_cons, hscoped]
    rcases d.open?_cases closing hname with ⟨hnone, hopen⟩ | ⟨name, d', child, hsome, hopen, -⟩
    · rw [hopen, hnone]
      exact directives_openingsAll d body hbody
    · rw [hopen, hsome]
      dsimp only
      rw [List.map_cons, List.map_map]
      exact congrArg _ (directives_openingsAll child body hbody)

/-- A scope is opened for every directive whose block is a scope of its own. -/
theorem directives_openingsAll (d : Draft) : (sts : List Statement) →
    (∀ s ∈ Statement.preorders sts, s.FormsAgree) →
    (d.openingsAll sts).map Opening.directive =
      (Statement.preorders sts).filterMap Statement.scopeDirective?
  | [], _ => by simp [openingsAll, Statement.preorders]
  | st :: sts, hforms => by
    rw [Statement.preorders, List.forall_mem_append] at hforms
    rw [openingsAll, List.map_append, Statement.preorders, List.filterMap_append,
      directives_openings d st hforms.1, directives_openingsAll _ sts hforms.2]

end

end Draft

/-! ## The scopes of a parse -/

/-- The names of closed blocks stand before their closing braces. -/
def NamesBefore (blocks : List (Token × Token)) : Prop :=
  ∀ b ∈ blocks, b.2.kind ≠ .endOfText → b.1.place.toPosition < b.2.place.toPosition

namespace Grammar

open Scope Draft

variable {src : Source} {ds : List Diagnostic}

/-- A block whose names stand up to `mid`, which is no further than its closing token. -/
theorem Closes.namesBefore {dir : Option Directive} {sts : List Statement}
    {close behind : List Token} {lo mid : Position} (h : Closes closing close behind)
    (hinc : Grammar.Increasing close) (hne : behind ≠ [])
    (hnames : ∀ dd ∈ dir, NamesBetween dd lo mid) (hmid : mid ≤ startOf close)
    (hbody : NamesBefore (Statement.namedBlocks body))
    (hsts : NamesBefore (Statement.namedBlocks sts)) :
    NamesBefore (Statement.namedBlocks (.braced dir opening body closing :: sts)) := by
  intro b hb hk
  rw [Statement.namedBlocks_braced, List.mem_append, List.mem_append] at hb
  rcases hb with hb | hb | hb
  · obtain ⟨name, hname, rfl⟩ := List.mem_map.1 hb
    obtain ⟨dd, hdd, hname⟩ := Option.bind_eq_some_iff.1 (Option.mem_toList.1 hname)
    obtain ⟨hat, -⟩ := h.closing_at hinc hne hk
    rw [hat] at hmid
    exact ((hnames dd hdd) name hname).2.1.trans_le hmid
  · exact hbody b hb hk
  · exact hsts b hb hk

/-- The name of a closed block stands before its closing brace. -/
theorem Items.namesBefore {stop : TokenKind → Bool} {sts : List Statement}
    {tokens last : List Token} (h : Items src ds stop sts tokens last)
    (hinc : Grammar.Increasing tokens) (hlast : last ≠ []) :
    NamesBefore (Statement.namedBlocks sts) := by
  induction h with
  | done => exact fun b hb => absurd hb List.not_mem_nil
  | @plain stop t st sts names rest behind last _ _ hplain hrest hmore ih =>
    have hbehind : behind <:+ t :: rest := hrest.suffix.trans (List.suffix_cons t rest)
    intro b hb
    rw [Statement.namedBlocks_append, List.mem_append] at hb
    rcases hb with hb | hb
    · cases hplain <;> exact absurd hb List.not_mem_nil
    · exact ih (hinc.suffix hbehind) hlast b hb
  | @braced stop dir opening closing body sts tokens inner close behind last hheader hdir hbody
      hclose hmore ihbody ih =>
    have hinner : inner <:+ tokens := (List.suffix_cons _ _).trans hheader.suffix
    have hinnerNe : inner ≠ [] := hbody.suffix.ne_nil hclose.ne_nil
    have hincInner := hinc.suffix hinner
    have hincClose := hincInner.suffix hbody.suffix
    exact hclose.namesBefore hincClose (hmore.suffix.ne_nil hlast)
      (fun dd hdd => by subst hdd; exact hheader.namesBetween (hdir dd rfl) hinc hinnerNe)
      (startOf_le hincInner hbody.suffix hclose.ne_nil) (ihbody hincInner hclose.ne_nil)
      (ih (hincClose.suffix hclose.suffix) hlast)
  | @sealed stop dir opening closing sts tokens inner close behind last hheader hsealed hclose hmore
      ih =>
    have hincClose := hinc.suffix
      (hsealed.suffix.trans ((List.suffix_cons _ _).trans hheader.suffix))
    exact hclose.namesBefore hincClose (hmore.suffix.ne_nil hlast)
      (fun dd hdd => by subst hdd; exact hheader.namesBetween_sealed hsealed hinc hclose.ne_nil)
      le_rfl (fun b hb => absurd hb List.not_mem_nil) (ih (hincClose.suffix hclose.suffix) hlast)

end Grammar

namespace Scope

variable {blocks : List (Token × Token)}

theorem FitsBlock.start_le_stop {name : Token} (h : c.FitsBlock name closing)
    (hbefore : closing.kind ≠ .endOfText → name.place.toPosition < closing.place.toPosition) :
    c.range.start ≤ c.range.stop := by
  rw [h.stop_eq]
  split
  · exact le_rfl
  · rename_i hk
    rw [h.start_eq]
    exact (hbefore hk).le.trans closing.place.toPosition_le_behind

/-- Scopes of blocks that follow one another start one behind the other. -/
theorem pairwise_start {cs : List Scope}
    (hapart : cs.Pairwise fun x y => x.range.stop < y.range.start)
    (hfits : ∀ c ∈ cs, ∃ b ∈ blocks, c.FitsBlock b.1 b.2) (hbefore : NamesBefore blocks) :
    cs.Pairwise fun x y => x.range.start < y.range.start := by
  refine hapart.imp_of_mem fun hx _ hlt => ?_
  obtain ⟨b, hb, hfit⟩ := hfits _ hx
  exact (hfit.start_le_stop (hbefore b hb)).trans_lt hlt

theorem at?_concat {s child : Scope} {path : List Nat} {i : Nat} (h : s.at? path = some c)
    (hchild : c.children[i]? = some child) : s.at? (path ++ [i]) = some child := by
  induction path generalizing s with
  | nil =>
    cases h
    simp [at?, hchild]
  | cons j path ih =>
    rw [at?, Option.bind_eq_some_iff] at h
    obtain ⟨inner, hinner, hc⟩ := h
    rw [List.cons_append, at?, hinner]
    exact ih hc

theorem Nested.increasing (h : c.Nested blocks) (hbefore : NamesBefore blocks) : c.Increasing := by
  intro path d hd
  refine pairwise_start (h path d hd).2 (fun child hchild => ?_) hbefore
  obtain ⟨i, hi⟩ := List.mem_iff_getElem?.1 hchild
  exact (h _ child (at?_concat hd hi)).1

end Scope

section Parse

variable {ref : Option Reference} {lexLimit limit : Int} {text : String} {parsed : Parsed}

theorem parse_scope_increasing (h : parse ref lexLimit limit text = .ok parsed) (uri : String)
    (lines : Int) : (Scope.ofProgram uri lines parsed.program).1.Increasing := by
  obtain ⟨overflow, last, -, hitems⟩ := parse_items h
  have hbefore := hitems.namesBefore (parse_increasing h) (List.cons_ne_nil _ _)
  obtain ⟨hapart, hall⟩ := parse_nested h uri lines
  intro path c hc
  cases path with
  | nil =>
    cases hc
    exact Scope.pairwise_start hapart (fun c hc => (hall c hc [] c rfl).1) hbefore
  | cons i path =>
    rw [Scope.at?, Option.bind_eq_some_iff] at hc
    obtain ⟨child, hchild, hc⟩ := hc
    exact (hall child (List.mem_of_getElem? hchild)).increasing hbefore path c hc

/-- The directives of a parse have names and blocks as their forms ask for. -/
theorem parse_formsAgree (h : parse ref lexLimit limit text = .ok parsed) :
    ∀ s ∈ Statement.preorders parsed.program.statements, s.FormsAgree := by
  intro s hs
  have hfrom := Statement.AllFrom.preorders (parse_from h) s hs
  cases s with
  | directiveBlock d opening body closing =>
    obtain ⟨-, -, -, hname, hmembers⟩ := hfrom
    refine ⟨?_, fun hform => hmembers (form_of_enumeration hform)⟩
    rw [hname]
    exact namesBlock_ofWord d.word
  | label | instruction | expression | directive | block => trivial

/-- **Scopes are found where they were opened.** In the scopes that are made from the program of any
text, a scope is opened for every directive whose block is a scope of its own, and it is there at
the address at which it was opened, no two at one address. When the statements are walked over these
scopes, the search by name and position finds for each such directive the address of the scope that
was opened for it, and its block is read in that scope. -/
theorem parse_bodies_agree (h : parse ref lexLimit limit text = .ok parsed) (uri : String)
    (lines : Int) :
    let built := (Scope.ofProgram uri lines parsed.program).1
    let opened := Draft.openingsAll ⟨Scope.root uri lines, []⟩ parsed.program.statements
    opened.map Opening.directive =
      (Statement.preorders parsed.program.statements).filterMap Statement.scopeDirective? ∧
    (∀ o ∈ opened, built.at? o.address = some o.scope) ∧
    (opened.map Opening.address).Nodup ∧
    (Cursor.ofRoot built).sought parsed.program.statements =
      opened.map fun o => (o.directive, some o.address, o.scope) := by
  have hforms := parse_formsAgree h
  obtain ⟨hplaced, hnodup⟩ :=
    Draft.gained_openingsAll ⟨Scope.root uri lines, []⟩ parsed.program.statements hforms
  refine ⟨Draft.directives_openingsAll _ _ hforms, fun o ho => (hplaced o ho).at_eq, hnodup, ?_⟩
  exact Draft.sought_statements ⟨Scope.root uri lines, []⟩ _ parsed.program.statements
    List.prefix_rfl (parse_scope_increasing h uri lines) hforms

end Parse

/-- A namespace that is opened again in another case, with an enumeration of its name in it. -/
def reopenedText : String :=
  ".namespace n\x7b\x7d.namespace N\x7b.enum N\x7b\x7d\x7d"

/-- The three scopes of `reopenedText` are found where they were opened. -/
theorem parse_bodies_agree_reopened :
    ∃ parsed, parse none 128 128 reopenedText = .ok parsed ∧
      ((Cursor.ofRoot (Scope.ofProgram "" 1 parsed.program).1).sought
        parsed.program.statements).map (fun r => r.2.1) = [some [0], some [1], some [1, 0]] ∧
      (Cursor.ofRoot (Scope.ofProgram "" 1 parsed.program).1).sought parsed.program.statements =
        (Draft.openingsAll ⟨Scope.root "" 1, []⟩ parsed.program.statements).map
          fun o => (o.directive, some o.address, o.scope) := by
  obtain ⟨parsed, hparsed, hfound⟩ : ∃ parsed, parse none 128 128 reopenedText = .ok parsed ∧
      ((Cursor.ofRoot (Scope.ofProgram "" 1 parsed.program).1).sought
        parsed.program.statements).map (fun r => r.2.1) = [some [0], some [1], some [1, 0]] :=
    exists_parsed_of_session 13 (by cbv) (by decide) (by decide +kernel)
  exact ⟨parsed, hparsed, hfound, (parse_bodies_agree hparsed "" 1).2.2.2⟩

end Asm6510
