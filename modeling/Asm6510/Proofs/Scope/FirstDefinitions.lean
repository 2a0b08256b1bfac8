import Asm6510.Proofs.Scope.Bodies
import Asm6510.Proofs.Scope.Duplicates
import Mathlib

/-!
# First and later definitions

The scope of a name is fixed by the blocks around its definition. The first definition of a name in
a scope is the one that is stored there; a later one is reported and changes nothing.

* `Definition`: a symbol with the address of the scope to which it is directed.
* `Statement.directed`: the definitions of a statement in the order of the text.
* `Definition.firsts`, `Definition.laters`: the definitions of names that are new in their scopes,
  and the other ones.

Main statement: `parse_firstDefinitions`, the tables of the scopes of a program hold the first
definitions and the later ones are reported. It comes from `Draft.Holds`, which says the same of a
scope that is being built, with one lemma for a definition (`Draft.Holds.define`) and one for a
finished block (`Draft.Holds.attach`).
-/

namespace Asm6510

open Grammar

/-! ## The definitions of a program -/

/-- A symbol, and the address of the scope in which it is to be stored. -/
structure Definition where
  address : List Nat
  symbol : Symbol
deriving DecidableEq, Repr

def Definition.here (symbol : Symbol) : Definition :=
  ⟨[], symbol⟩

/-- A definition seen from the scope around: the one it is seen from so far is child `n` there. -/
def Definition.under (n : Nat) (x : Definition) : Definition :=
  { x with address := n :: x.address }

/-- What a directive with a block defines if the block is a scope: its name, in the scope where the
directive stands, and its parameters or members, in the new one. -/
def Directive.scopeDefinitions? (dir : Directive) : Option (Symbol × List Symbol) :=
  match dir.name, DefinitionForm.ofWord dir.word with
  | some name, .callable kind =>
    some (Symbol.ofCallable kind name dir.parameters,
      dir.parameters.map fun t => Symbol.ofToken .parameter t none)
  | some name, .scope => some (Symbol.ofToken .scope name none, [])
  | some name, .enumeration => some (Symbol.ofToken .scope name none, Enumeration.symbols dir)
  | _, _ => none

namespace Statement

mutual

/-- The number of scopes that a statement opens in the scope where it stands. -/
def opened : Statement → Nat
  | label _ => 0
  | instruction _ _ => 0
  | expression _ _ => 0
  | directive _ => 0
  | block _ body _ => allOpened body
  | directiveBlock dir _ body _ => if dir.scopeDefinitions?.isSome then 1 else allOpened body

/-- The number of scopes that several statements open where they stand. -/
def allOpened : List Statement → Nat
  | [] => 0
  | s :: rest => opened s + allOpened rest

end

mutual

/-- The definitions of a statement in the order of the text, if `n` scopes were opened before in the
scope where it stands. A block that is no scope belongs to the scope around it. -/
def directed (n : Nat) : Statement → List Definition
  | label t =>
    if Text.startsWith (labelName t) "!" then []
    else [.here (Symbol.plain .label (labelName t) t.place none)]
  | instruction _ _ => []
  | expression _ _ => []
  | directive dir => dir.plainDefinitions.map .here
  | block _ body _ => allDirected n body
  | directiveBlock dir _ body _ =>
    match dir.scopeDefinitions? with
    | some (symbol, symbols) =>
      .here symbol :: (symbols.map Definition.here ++ allDirected 0 body).map (.under n)
    | none => allDirected n body

def allDirected (n : Nat) : List Statement → List Definition
  | [] => []
  | s :: rest => directed n s ++ allDirected (n + opened s) rest

end

end Statement

namespace Definition

/-- Two definitions of one name in one scope. -/
def sameName (x y : Definition) : Bool :=
  x.address == y.address && x.symbol.key == y.symbol.key

/-- The definitions that have an earlier one of their name, or those that have none. -/
def sift (repeated : Bool) (earlier : List Definition) : List Definition → List Definition
  | [] => []
  | x :: xs =>
    if earlier.any x.sameName = repeated then x :: sift repeated (earlier ++ [x]) xs
    else sift repeated (earlier ++ [x]) xs

/-- The first definition of each name in each scope. -/
def firsts (xs : List Definition) : List Definition :=
  sift false [] xs

/-- The definitions of names that were defined before in their scopes. -/
def laters (xs : List Definition) : List Definition :=
  sift true [] xs

/-- The table of the scope at an address: the first definitions there under their keys. -/
def table (xs : List Definition) (address : List Nat) : List (String × Symbol) :=
  ((firsts xs).filter fun x => x.address == address).map fun x => (x.symbol.key, x.symbol)

/-! ## First and later definitions of a list -/

variable {x y : Definition} {xs ys earlier : List Definition} {n : Nat}

theorem sameName_iff :
    x.sameName y = true ↔ x.address = y.address ∧ x.symbol.key = y.symbol.key := by
  simp [sameName]

theorem sameName_under (x y : Definition) (n : Nat) :
    (x.under n).sameName (y.under n) = x.sameName y := by
  simp [sameName, under]

theorem sift_append (repeated : Bool) (xs ys earlier : List Definition) :
    sift repeated earlier (xs ++ ys) =
      sift repeated earlier xs ++ sift repeated (earlier ++ xs) ys := by
  induction xs generalizing earlier with
  | nil => simp [sift]
  | cons x xs ih =>
    rw [List.cons_append, sift, sift, ih, List.append_assoc, List.singleton_append]
    split <;> rfl

theorem mem_of_mem_sift {repeated : Bool} (h : x ∈ sift repeated earlier xs) : x ∈ xs := by
  induction xs generalizing earlier with
  | nil => exact absurd h List.not_mem_nil
  | cons y ys ih =>
    rw [sift] at h
    split at h
    · rcases List.mem_cons.1 h with rfl | h
      · exact List.mem_cons_self
      · exact List.mem_cons_of_mem y (ih h)
    · exact List.mem_cons_of_mem y (ih h)

theorem exists_mem_sift (hy : y ∈ xs) (hx : x.sameName y = true) :
    (∃ z ∈ earlier, x.sameName z = true) ∨
      ∃ z ∈ sift false earlier xs, x.sameName z = true := by
  induction xs generalizing earlier with
  | nil => exact absurd hy List.not_mem_nil
  | cons w ws ih =>
    have hmore : (∃ z ∈ earlier ++ [w], x.sameName z = true) →
        (∃ z ∈ earlier, x.sameName z = true) ∨
          ∃ z ∈ sift false earlier (w :: ws), x.sameName z = true := by
      rintro ⟨z, hz, hxz⟩
      rcases List.mem_append.1 hz with hz | hz
      · exact .inl ⟨z, hz, hxz⟩
      · cases List.mem_singleton.1 hz
        rw [sift]
        split
        · exact .inr ⟨w, List.mem_cons_self, hxz⟩
        · next hany =>
          -- an earlier definition has the name of `w`, and so that of `x`
          obtain ⟨v, hv, hwv⟩ := List.any_eq_true.1 (Bool.not_eq_false _ ▸ hany)
          rw [sameName_iff] at hwv hxz
          exact .inl ⟨v, hv, sameName_iff.2 ⟨hxz.1.trans hwv.1, hxz.2.trans hwv.2⟩⟩
    rcases List.mem_cons.1 hy with rfl | hy
    · exact hmore ⟨y, List.mem_append_right _ List.mem_cons_self, hx⟩
    · rcases ih hy with hz | ⟨z, hz, hxz⟩
      · exact hmore hz
      · refine .inr ⟨z, ?_, hxz⟩
        rw [sift]
        split
        · exact List.mem_cons_of_mem w hz
        · exact hz

/-- Definitions in a new scope are compared among themselves. -/
theorem sift_under (repeated : Bool) (hnew : ∀ x ∈ xs, ∀ a, x.address ≠ n :: a)
    (seen : List Definition) :
    sift repeated (xs ++ seen.map (under n)) (ys.map (under n)) =
      (sift repeated seen ys).map (under n) := by
  have hany : ∀ (y : Definition) (seen : List Definition),
      (xs ++ seen.map (under n)).any (y.under n).sameName = seen.any y.sameName := by
    intro y seen
    have hxs : xs.any (y.under n).sameName = false := by
      rw [List.any_eq_false]
      intro x hx hsame
      exact hnew x hx y.address (sameName_iff.1 hsame).1.symm
    rw [List.any_append, hxs, Bool.false_or, List.any_map]
    exact congrArg seen.any (funext fun z => sameName_under y z n)
  induction ys generalizing seen with
  | nil => rfl
  | cons y ys ih =>
    have hseen : xs ++ seen.map (under n) ++ [y.under n] = xs ++ (seen ++ [y]).map (under n) := by
      rw [List.map_append, List.append_assoc, List.map_singleton]
    rw [List.map_cons, sift, sift, hany, hseen, ih]
    split <;> rfl

theorem sift_append_under (repeated : Bool) (hnew : ∀ x ∈ xs, ∀ a, x.address ≠ n :: a) :
    sift repeated [] (xs ++ ys.map (under n)) =
      sift repeated [] xs ++ (sift repeated [] ys).map (under n) := by
  rw [sift_append, List.nil_append, ← sift_under repeated hnew [], List.map_nil, List.append_nil]

/-! ## Tables -/

/-- The table that gets a further definition: it is put behind the others if it is the first of its
name. -/
theorem table_concat (xs : List Definition) (x : Definition) (a : List Nat) :
    table (xs ++ [x]) a =
      if x.address = a ∧ xs.any x.sameName = false then
        table xs a ++ [(x.symbol.key, x.symbol)]
      else table xs a := by
  rw [table, firsts, sift_append, List.nil_append, sift, sift, List.filter_append, List.map_append]
  by_cases hany : xs.any x.sameName = false
  · rw [if_pos hany]
    by_cases ha : x.address = a
    · have hx : [x].filter (fun x => x.address == a) = [x] := by simp [ha]
      rw [if_pos ⟨ha, hany⟩, hx]
      rfl
    · have hx : [x].filter (fun x => x.address == a) = [] := by simp [ha]
      rw [if_neg fun h => ha h.1, hx]
      exact List.append_nil _
  · rw [if_neg hany, if_neg fun h => hany h.2]
    exact List.append_nil _

/-- A key that is not in the table is that of no definition for the scope. -/
theorem lookup_table (xs : List Definition) (x : Definition) :
    (table xs x.address).lookup x.symbol.key = none ↔ xs.any x.sameName = false := by
  rw [List.lookup_eq_none_iff, List.any_eq_false]
  constructor
  · intro h y hy hsame
    have hfound : (∃ z ∈ ([] : List Definition), x.sameName z = true) ∨
        ∃ z ∈ firsts xs, x.sameName z = true := exists_mem_sift hy hsame
    rcases hfound with ⟨z, hz, -⟩ | ⟨z, hz, hsame⟩
    · exact absurd hz List.not_mem_nil
    · obtain ⟨haddress, hkey⟩ := sameName_iff.1 hsame
      have hmem : (z.symbol.key, z.symbol) ∈ table xs x.address :=
        List.mem_map.2 ⟨z, List.mem_filter.2 ⟨hz, beq_iff_eq.2 haddress.symm⟩, rfl⟩
      have hne := h _ hmem
      simp [hkey] at hne
  · intro h p hp
    obtain ⟨z, hz, rfl⟩ := List.mem_map.1 hp
    obtain ⟨hz, haddress⟩ := List.mem_filter.1 hz
    have hne := h z (mem_of_mem_sift hz)
    rw [sameName_iff] at hne
    simpa using fun hkey => hne ⟨(beq_iff_eq.1 haddress).symm, hkey⟩

/-- What is defined in a new scope is not in the tables of the others. -/
theorem table_append_under_of_ne (hnew : ∀ x ∈ xs, ∀ a, x.address ≠ n :: a) {address : List Nat}
    (haddress : ∀ a, address ≠ n :: a) :
    table (xs ++ ys.map (under n)) address = table xs address := by
  rw [table, firsts, sift_append_under false hnew, List.filter_append, List.map_append]
  have hnone : ((sift false [] ys).map (under n)).filter (fun x => x.address == address) = [] := by
    rw [List.filter_eq_nil_iff]
    intro x hx hx'
    obtain ⟨y, -, rfl⟩ := List.mem_map.1 hx
    exact haddress y.address (beq_iff_eq.1 hx').symm
  rw [hnone, List.map_nil, List.append_nil]
  rfl

/-- The tables of a new scope and of those in it are made of what is defined there. -/
theorem table_append_under (hnew : ∀ x ∈ xs, ∀ a, x.address ≠ n :: a) (address : List Nat) :
    table (xs ++ ys.map (under n)) (n :: address) = table ys address := by
  rw [table, firsts, sift_append_under false hnew, List.filter_append, List.map_append]
  have hnone : (sift false [] xs).filter (fun x => x.address == n :: address) = [] := by
    rw [List.filter_eq_nil_iff]
    intro x hx hx'
    exact hnew x (mem_of_mem_sift hx) address (beq_iff_eq.1 hx')
  have hunder : (fun x : Definition => x.address == n :: address) ∘ under n =
      fun x => x.address == address := by
    funext x
    simp [under]
  rw [hnone, List.map_nil, List.nil_append, List.filter_map, hunder, List.map_map]
  rfl

end Definition

/-! ## Drafts -/

namespace Scope

/-- A scope at an address behind a new child: the scope itself, one that was there before, or one of
the child. -/
theorem at?_attach {s child c : Scope} (huri : child.uri = s.uri) {a : List Nat}
    (h : (s.attach child).at? a = some c) :
    a = [] ∧ c.symbols = s.symbols ∨
      (∃ i rest, a = i :: rest ∧ i < s.children.length ∧ s.at? a = some c) ∨
      ∃ rest, a = s.children.length :: rest ∧ child.at? rest = some c := by
  rw [attach_of_uri huri] at h
  cases a with
  | nil =>
    cases h
    exact .inl ⟨rfl, rfl⟩
  | cons i rest =>
    right
    obtain ⟨inner, hinner, hc⟩ := Option.bind_eq_some_iff.1 h
    rcases Nat.lt_or_ge i s.children.length with hlt | hge
    · refine .inl ⟨i, rest, rfl, hlt, ?_⟩
      rw [List.getElem?_append_left hlt] at hinner
      rw [at?, hinner]
      exact hc
    · right
      rw [List.getElem?_append_right hge, List.getElem?_singleton] at hinner
      split at hinner
      · next hi =>
        cases hinner
        exact ⟨rest, by rw [show i = s.children.length by omega], hc⟩
      · cases hinner

theorem lt_of_at? {s c : Scope} {i : Nat} {rest : List Nat} (h : s.at? (i :: rest) = some c) :
    i < s.children.length := by
  obtain ⟨inner, hinner, -⟩ := Option.bind_eq_some_iff.1 h
  exact (List.getElem?_eq_some_iff.1 hinner).1

end Scope

namespace Draft

/-- The draft holds the definitions: the first ones are in the tables of its scopes, and the later
ones are reported behind `base`. -/
structure Holds (base : List Diagnostic) (d : Draft) (xs : List Definition) : Prop where
  tables : ∀ a c, d.scope.at? a = some c → c.symbols.entries = Definition.table xs a
  found : ∀ x ∈ xs, ∃ c, d.scope.at? x.address = some c
  diagnostics : d.diagnostics =
    base ++ (Definition.laters xs).map fun x => x.symbol.secondDefinition

variable {base : List Diagnostic} {d child : Draft} {xs ys : List Definition}

theorem holds_leaf (name : String) (range : Range) (uri : String) (base : List Diagnostic) :
    Holds base ⟨.leaf name range uri, base⟩ [] := by
  refine ⟨fun a c h => ?_, fun x hx => absurd hx List.not_mem_nil, (List.append_nil base).symm⟩
  cases a with
  | nil =>
    cases h
    rfl
  | cons i rest => cases h

/-- A definition is stored if it is the first of its name, and reported otherwise. -/
theorem Holds.define (h : Holds base d xs) (symbol : Symbol) :
    Holds base (d.define symbol) (xs ++ [.here symbol]) := by
  have hlookup : d.scope.symbols.get? symbol.key = none ↔
      xs.any (Definition.here symbol).sameName = false := by
    rw [← Definition.lookup_table, Table.get?, h.tables [] d.scope rfl]
    rfl
  have hdiagnostics : Definition.laters (xs ++ [.here symbol]) =
      Definition.laters xs ++ Definition.sift true xs [.here symbol] := by
    rw [Definition.laters, Definition.sift_append]
    rfl
  rw [Draft.define, Scope.declare]
  cases hget : d.scope.symbols.get? symbol.key with
  | some first =>
    have hany : xs.any (Definition.here symbol).sameName = true := by
      rw [← Bool.not_eq_false, ← hlookup, hget]
      exact Option.some_ne_none first
    refine ⟨fun a c hc => ?_, fun x hx => ?_, ?_⟩
    · rw [h.tables a c hc, Definition.table_concat, if_neg fun hc => by simp [hany] at hc]
    · rcases List.mem_append.1 hx with hx | hx
      · exact h.found x hx
      · cases List.mem_singleton.1 hx
        exact ⟨d.scope, rfl⟩
    · rw [hdiagnostics, List.map_append, ← List.append_assoc, ← h.diagnostics, Definition.sift,
        if_pos hany]
      rfl
  | none =>
    have hany := hlookup.1 hget
    have hput : (d.scope.symbols.put symbol.key symbol).entries =
        d.scope.symbols.entries ++ [(symbol.key, symbol)] :=
      Table.putEntry_of_lookup_eq_none hget
    refine ⟨fun a c hc => ?_, fun x hx => ?_, ?_⟩
    · rw [Definition.table_concat]
      cases a with
      | nil =>
        cases hc
        rw [if_pos ⟨rfl, hany⟩, ← h.tables [] d.scope rfl]
        exact hput
      | cons i rest =>
        rw [if_neg fun hc => List.cons_ne_nil i rest hc.1.symm]
        exact h.tables (i :: rest) c hc
    · rcases List.mem_append.1 hx with hx | hx
      · obtain ⟨c, hc⟩ := h.found x hx
        cases haddress : x.address with
        | nil => exact ⟨_, rfl⟩
        | cons i rest =>
          rw [haddress] at hc
          exact ⟨c, hc⟩
      · cases List.mem_singleton.1 hx
        exact ⟨_, rfl⟩
    · rw [hdiagnostics, Definition.sift, if_neg (by simp [hany]), Definition.sift,
        List.append_nil]
      exact h.diagnostics

theorem Holds.foldl (h : Holds base d xs) (symbols : List Symbol) :
    Holds base (symbols.foldl Draft.define d) (xs ++ symbols.map .here) := by
  induction symbols generalizing d xs with
  | nil => simpa using h
  | cons symbol symbols ih =>
    rw [List.foldl_cons, List.map_cons, ← List.singleton_append, ← List.append_assoc]
    exact ih (h.define symbol)

/-- The index of a new child is in no address of what was defined before. -/
theorem Holds.address_ne (h : Holds base d xs) :
    ∀ x ∈ xs, ∀ a, x.address ≠ d.scope.children.length :: a := by
  intro x hx a haddress
  obtain ⟨c, hc⟩ := h.found x hx
  rw [haddress] at hc
  exact Nat.lt_irrefl _ (Scope.lt_of_at? hc)

/-- A finished block adds its definitions under the index of its scope. -/
theorem Holds.attach (h : Holds base d xs) (hchild : Holds d.diagnostics child ys)
    (huri : child.scope.uri = d.scope.uri) :
    Holds base (d.attach child) (xs ++ ys.map (.under d.scope.children.length)) := by
  have hnew := h.address_ne
  refine ⟨fun a c hc => ?_, fun x hx => ?_, ?_⟩
  · rcases Scope.at?_attach huri hc with ⟨rfl, hsymbols⟩ | ⟨i, rest, rfl, hlt, hold⟩ |
      ⟨rest, rfl, hnext⟩
    · rw [hsymbols, h.tables [] d.scope rfl, Definition.table_append_under_of_ne hnew]
      exact fun a => (List.cons_ne_nil _ a).symm
    · rw [h.tables _ c hold, Definition.table_append_under_of_ne hnew]
      intro a heq
      cases heq
      exact Nat.lt_irrefl _ hlt
    · rw [hchild.tables rest c hnext, Definition.table_append_under hnew]
  · rcases List.mem_append.1 hx with hx | hx
    · obtain ⟨c, hc⟩ := h.found x hx
      cases haddress : x.address with
      | nil => exact ⟨_, rfl⟩
      | cons i rest =>
        rw [haddress] at hc
        exact ⟨c, (grown_attach d child).at? hc⟩
    · obtain ⟨y, hy, rfl⟩ := List.mem_map.1 hx
      obtain ⟨c, hc⟩ := hchild.found y hy
      refine ⟨c, ?_⟩
      rw [Draft.attach, Scope.attach_of_uri huri, Definition.under, Scope.at?,
        List.getElem?_concat_length]
      exact hc
  · rw [Definition.laters, Definition.sift_append_under true hnew, List.map_append,
      ← List.append_assoc, ← Definition.laters, ← h.diagnostics, List.map_map]
    exact hchild.diagnostics

theorem Holds.plainDirective (h : Holds base d xs) (dir : Directive) :
    Holds base (d.plainDirective dir) (xs ++ dir.plainDefinitions.map .here) := by
  rw [plainDirective_eq_foldl]
  exact h.foldl _

/-! ## The walk over the statements -/

/-- A directive with a block opens a scope for what it defines there, or has no name. -/
theorem open?_of_scopeDefinitions? (d : Draft) (dir : Directive) (closing : Token) :
    match dir.scopeDefinitions? with
    | some (symbol, symbols) => ∃ name,
        d.open? dir closing =
          some (d.define symbol, (d.define symbol).openChild name closing symbols)
    | none => d.open? dir closing = none := by
  unfold open? Directive.scopeDefinitions?
  cases dir.name with
  | none => rfl
  | some name =>
    cases DefinitionForm.ofWord dir.word with
    | callable | scope | enumeration => exact ⟨name, rfl⟩
    | value | label | define | nothing => rfl

/-- What the walk over statements does: the scope is still the one of the document and has the new
children, and the definitions are held. -/
structure Walks (d d' : Draft) (opened : Nat) (defined : List Definition) : Prop where
  children : d'.scope.children.length = d.scope.children.length + opened
  holds : ∀ base xs, Holds base d xs → Holds base d' (xs ++ defined)

theorem Walks.refl (d : Draft) : Walks d d 0 [] :=
  ⟨rfl, fun base xs h => by rwa [List.append_nil]⟩

theorem Walks.trans {d' d'' : Draft} {m n : Nat} (h : Walks d d' m xs) (h' : Walks d' d'' n ys) :
    Walks d d'' (m + n) (xs ++ ys) := by
  refine ⟨by rw [h'.children, h.children, Nat.add_assoc], fun base zs hz => ?_⟩
  rw [← List.append_assoc]
  exact h'.holds base _ (h.holds base zs hz)

theorem walks_define (d : Draft) (symbol : Symbol) :
    Walks d (d.define symbol) 0 [.here symbol] :=
  ⟨by rw [(d.grown_define symbol).2]; rfl, fun _ _ h => h.define symbol⟩

theorem walks_plainDirective (d : Draft) (dir : Directive) :
    Walks d (d.plainDirective dir) 0 (dir.plainDefinitions.map .here) := by
  refine ⟨?_, fun _ _ h => h.plainDirective dir⟩
  rcases d.plainDirective_cases dir with heq | ⟨name, -, symbol, -, heq⟩
  · rw [heq]
    rfl
  · rw [heq, (d.grown_define symbol).2]
    rfl

mutual

theorem walks_statement (d : Draft) : (st : Statement) →
    (∀ s ∈ st.preorder, s.FormsAgree) →
    Walks d (d.statement st) st.opened (st.directed d.scope.children.length)
  | .label t, _ => by
    rw [statement, Statement.opened, Statement.directed]
    split
    · exact .refl d
    · exact d.walks_define _
  | .instruction _ _, _ => by
    rw [statement, Statement.opened, Statement.directed]
    exact .refl d
  | .expression _ _, _ => by
    rw [statement, Statement.opened, Statement.directed]
    exact .refl d
  | .directive dir, _ => by
    rw [statement, Statement.opened, Statement.directed]
    exact d.walks_plainDirective dir
  | .block _ body _, hforms => by
    rw [Statement.preorder, List.forall_mem_cons] at hforms
    rw [statement, Statement.opened, Statement.directed]
    exact walks_statements d body hforms.2
  | .directiveBlock dir opening body closing, hforms => by
    rw [Statement.preorder, List.forall_mem_cons] at hforms
    obtain ⟨⟨hname, hmembers⟩, hbody⟩ := hforms
    have hopen := d.open?_of_scopeDefinitions? dir closing
    rw [Statement.opened, Statement.directed]
    cases hscope : dir.scopeDefinitions? with
    | none =>
      rw [hscope] at hopen
      rcases d.open?_cases closing hname with ⟨hnone, -⟩ | ⟨name, d', child, -, hsome, -⟩
      · rw [d.statement_of_name_none hnone]
        exact walks_statements d body hbody
      · rw [hopen] at hsome
        cases hsome
    | some found =>
      obtain ⟨symbol, symbols⟩ := found
      rw [hscope] at hopen
      obtain ⟨name, hopen⟩ := hopen
      obtain ⟨hchildren, -, -, huri, hempty⟩ := d.opens_openChild name closing symbol symbols
      rw [d.statement_of_open? hopen hmembers]
      have hinner := walks_statements ((d.define symbol).openChild name closing symbols) body hbody
      have hclosed := (grown_statements ((d.define symbol).openChild name closing symbols) body).uri
      refine ⟨?_, fun base xs h => ?_⟩
      · rw [attach, Scope.attach_of_uri (hclosed.trans huri), ← hchildren]
        exact List.length_append
      · have hstart : Holds (d.define symbol).diagnostics
            ((d.define symbol).openChild name closing symbols) (symbols.map .here) :=
          (holds_leaf _ _ _ _).foldl symbols
        rw [hempty] at hinner
        have hblock := hinner.holds _ _ hstart
        have hall := (h.define symbol).attach hblock (hclosed.trans huri)
        rw [hchildren, List.append_assoc] at hall
        exact hall

/-- **The walk over statements stores the first definitions and reports the later ones.** -/
theorem walks_statements (d : Draft) : (sts : List Statement) →
    (∀ s ∈ Statement.preorders sts, s.FormsAgree) →
    Walks d (d.statements sts) (Statement.allOpened sts)
      (Statement.allDirected d.scope.children.length sts)
  | [], _ => by
    rw [statements, Statement.allOpened, Statement.allDirected]
    exact .refl d
  | st :: sts, hforms => by
    rw [Statement.preorders, List.forall_mem_append] at hforms
    have hfirst := walks_statement d st hforms.1
    have hrest := walks_statements (d.statement st) sts hforms.2
    rw [hfirst.children] at hrest
    rw [statements, Statement.allOpened, Statement.allDirected]
    exact hfirst.trans hrest

end

end Draft

/-! ## The scopes of a parse -/

/-- **Definitions are neither lost nor overwritten.** The table of each scope of a program that was
parsed holds, in order, the first definitions that are directed to the scope, under their keys;
every definition is directed to a scope; and the later definitions are reported, each at its own
name and in the order of the text. -/
theorem parse_firstDefinitions {ref : Option Reference} {lexLimit limit : Int} {text : String}
    {parsed : Parsed} (h : parse ref lexLimit limit text = .ok parsed) (uri : String)
    (lines : Int) :
    let built := Scope.ofProgram uri lines parsed.program
    let defined := Statement.allDirected 0 parsed.program.statements
    (∀ address scope, built.1.at? address = some scope →
      scope.symbols.entries =
        ((Definition.firsts defined).filter fun x => x.address == address).map
          fun x => (x.symbol.key, x.symbol)) ∧
    (∀ x ∈ defined, ∃ scope, built.1.at? x.address = some scope) ∧
    built.2 = (Definition.laters defined).map fun x => x.symbol.secondDefinition := by
  have hempty : Draft.Holds [] ⟨Scope.root uri lines, []⟩ [] := Draft.holds_leaf _ _ _ _
  obtain ⟨htables, hfound, hreports⟩ :=
    (Draft.walks_statements ⟨Scope.root uri lines, []⟩ _ (parse_formsAgree h)).holds _ _ hempty
  exact ⟨htables, hfound, hreports⟩

/-- Labels of one name in a namespace, then a second namespace of its name. -/
def redefinedText : String :=
  ".namespace n\x7ba:A:\x7d.namespace N\x7b.label a=1\x7d"

/-- The second label and the second namespace of `redefinedText` are reported, the label of the
second namespace is stored. -/
theorem parse_firstDefinitions_repeated :
    ∃ parsed, parse none 128 128 redefinedText = .ok parsed ∧
      (Definition.laters (Statement.allDirected 0 parsed.program.statements)).map
        (fun x => (x.address, x.symbol.name)) = [([0], "A"), ([], "N")] ∧
      (Definition.firsts (Statement.allDirected 0 parsed.program.statements)).map
        (fun x => (x.address, x.symbol.name)) = [([], "n"), ([0], "a"), ([1], "a")] ∧
      (Scope.ofProgram "" 1 parsed.program).2 =
        (Definition.laters (Statement.allDirected 0 parsed.program.statements)).map
          fun x => x.symbol.secondDefinition := by
  obtain ⟨parsed, hparsed, hlaters, hfirsts⟩ : ∃ parsed,
      parse none 128 128 redefinedText = .ok parsed ∧
      (Definition.laters (Statement.allDirected 0 parsed.program.statements)).map
        (fun x => (x.address, x.symbol.name)) = [([0], "A"), ([], "N")] ∧
      (Definition.firsts (Statement.allDirected 0 parsed.program.statements)).map
        (fun x => (x.address, x.symbol.name)) = [([], "n"), ([0], "a"), ([1], "a")] :=
    exists_parsed_of_session 15 (by cbv) (by decide) (by decide +kernel)
  exact ⟨parsed, hparsed, hlaters, hfirsts, (parse_firstDefinitions hparsed "" 1).2.2⟩

end Asm6510
