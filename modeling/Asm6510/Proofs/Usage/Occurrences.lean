import Asm6510.Tree.Node
import Asm6510.Usage
import Mathlib

/-!
# The names of a program that are references

* `Node.reach`: the node at a path, and the scope in which it is read. Names in the header of a
  directive and index registers are not read.
* `Hit`: the name at a path refers to a symbol.
* `Lists`, `Found`: a list of references has one entry for each name in a node that refers to a
  symbol.

Main statement: `found_program`, the references of a program are found so. They are counted by the
paths of the names (`Lists.count_eq_ncard`).
-/

namespace Asm6510

/-- What stands before a comma; behind it is an index register. -/
def Expr.beforeComma? : Expr → Option Expr
  | indexed _ e _ => some e
  | binary op l _ => if op.literal == "," then some l else none
  | _ => none

/-- The number of names in the header of a directive. -/
def Directive.nameCount (d : Directive) : Nat :=
  (d.name.toList ++ d.parameters).length

namespace Node

/-- The scope in which the part of a node at an index is read, if it is read. The names of a
directive are not, and what stands behind a comma is not. -/
def readIn (c : Cursor) : Node → Nat → Option Cursor
  | statement (.directive d), i => if i < d.nameCount then none else some c
  | statement (.directiveBlock d _ _ _), i =>
    if i < d.nameCount then none
    else if i < (ofHeader d).length then some c
    else some (c.body d)
  | expr e, i =>
    match e.beforeComma? with
    | some l => if i < l.toList.length then some c else none
    | none => some c
  | _, _ => some c

/-- The node at a path, and the scope in which it is read. -/
def reach : (path : List Nat) → Cursor → Node → Option (Cursor × Node)
  | [], c, n => some (c, n)
  | i :: path, c, n => do
    let part ← n.children[i]?
    let inner ← n.readIn c i
    reach path inner part

end Node

/-- The name at a path of a node is a reference to a symbol. -/
def Hit (lines : Array String) (c : Cursor) (n : Node) (path : List Nat) (target : SymbolRef) :
    Prop :=
  ∃ inner t value, n.reach path c = some (inner, .expr (.identifier t value)) ∧
    isReference lines (t, value) = true ∧ inner.refer? value = some target

/-- One entry for each path at which a relation holds with the entry. -/
def Lists (refs : List SymbolRef) (R : List Nat → SymbolRef → Prop) : Prop :=
  ∃ hits : List (List Nat × SymbolRef), hits.map Prod.snd = refs ∧ (hits.map Prod.fst).Nodup ∧
    ∀ path target, (path, target) ∈ hits ↔ R path target

/-- The references have one entry for each name in a node that refers to a symbol. -/
def Found (lines : Array String) (c : Cursor) (n : Node) (refs : List SymbolRef) : Prop :=
  Lists refs (Hit lines c n)

/-- The name at a path, from an index of parts on, is a reference to a symbol. -/
def HitAmong (lines : Array String) (read : Nat → Option Cursor) (k : Nat) (parts : List Node)
    (path : List Nat) (target : SymbolRef) : Prop :=
  ∃ i part inner rest, path = (k + i) :: rest ∧ parts[i]? = some part ∧
    read (k + i) = some inner ∧ Hit lines inner part rest target

/-- The references have one entry for each name in some parts of a node that refers to a symbol. The
first of the parts has the index `k`. -/
def FoundAmong (lines : Array String) (read : Nat → Option Cursor) (k : Nat) (parts : List Node)
    (refs : List SymbolRef) : Prop :=
  Lists refs (HitAmong lines read k parts)

/-! ## Counting -/

theorem Lists.nil {R : List Nat → SymbolRef → Prop} (h : ∀ path target, ¬ R path target) :
    Lists [] R :=
  ⟨[], rfl, List.nodup_nil, fun path target =>
    ⟨fun hmem => absurd hmem List.not_mem_nil, fun hR => absurd hR (h path target)⟩⟩

/-- The number of entries is the number of paths. -/
theorem Lists.count_eq_ncard {refs : List SymbolRef} {R : List Nat → SymbolRef → Prop}
    (h : Lists refs R) (target : SymbolRef) :
    {path | R path target}.Finite ∧ refs.count target = {path | R path target}.ncard := by
  obtain ⟨hits, hrefs, hnodup, hmem⟩ := h
  let paths := (hits.filter fun hit => hit.2 == target).map Prod.fst
  have hpaths : {path | R path target} = {path | path ∈ paths} := by
    ext path
    simp only [Set.mem_ofPred_eq, ← hmem, paths, List.mem_map, List.mem_filter, beq_iff_eq]
    constructor
    · exact fun hhit => ⟨(path, target), ⟨hhit, rfl⟩, rfl⟩
    · rintro ⟨⟨path', target'⟩, ⟨hhit, rfl⟩, rfl⟩
      exact hhit
  have hdistinct : paths.Nodup := hnodup.sublist (List.filter_sublist.map Prod.fst)
  have hlength : paths.length = refs.count target := by
    rw [← hrefs, List.count_eq_countP, List.countP_map, List.length_map,
      ← List.countP_eq_length_filter]
    rfl
  have hfinset : {path | path ∈ paths} = (paths.toFinset : Set (List Nat)) := by
    ext path
    simp
  rw [hpaths, hfinset]
  refine ⟨paths.toFinset.finite_toSet, ?_⟩
  rw [Set.ncard_coe_finset, List.toFinset_card_of_nodup hdistinct, hlength]

/-! ## Parts -/

section Parts

variable {lines : Array String} {read : Nat → Option Cursor} {k : Nat} {c : Cursor} {n : Node}
  {xs ys : List Node} {refs refs' : List SymbolRef}

theorem foundAmong_nil : FoundAmong lines read k [] [] := by
  refine .nil ?_
  rintro path target ⟨i, part, inner, rest, -, hpart, -⟩
  simp at hpart

theorem foundAmong_unread (h : ∀ i < xs.length, read (k + i) = none) :
    FoundAmong lines read k xs [] := by
  refine .nil ?_
  rintro path target ⟨i, part, inner, rest, -, hpart, hread, -⟩
  rw [h i (List.getElem?_eq_some_iff.1 hpart).1] at hread
  cases hread

theorem foundAmong_single (hread : read k = some c) (h : Found lines c n refs) :
    FoundAmong lines read k [n] refs := by
  obtain ⟨hits, hrefs, hnodup, hmem⟩ := h
  refine ⟨hits.map fun hit => (k :: hit.1, hit.2), ?_, ?_, fun path target => ?_⟩
  · rw [List.map_map]
    exact hrefs
  · rw [List.map_map]
    have hcons : (Prod.fst ∘ fun hit : List Nat × SymbolRef => (k :: hit.1, hit.2)) =
        List.cons k ∘ Prod.fst := rfl
    rw [hcons, ← List.map_map]
    exact hnodup.map List.cons_injective
  · constructor
    · intro hhit
      obtain ⟨⟨rest, target'⟩, hin, heq⟩ := List.mem_map.1 hhit
      cases heq
      exact ⟨0, n, c, rest, rfl, rfl, hread, (hmem rest _).1 hin⟩
    · rintro ⟨i, part, inner, rest, rfl, hpart, hinner, hhit⟩
      obtain ⟨hi, hpart⟩ := List.getElem?_eq_some_iff.1 hpart
      have hzero : i = 0 := by simpa using hi
      subst hzero
      cases hpart
      rw [Nat.add_zero, hread] at hinner
      cases hinner
      exact List.mem_map.2 ⟨(rest, target), (hmem rest target).2 hhit, rfl⟩

theorem hitAmong_append {path : List Nat} {target : SymbolRef} :
    HitAmong lines read k (xs ++ ys) path target ↔
      HitAmong lines read k xs path target ∨
        HitAmong lines read (k + xs.length) ys path target := by
  constructor
  · rintro ⟨i, part, inner, rest, hpath, hpart, hread, hhit⟩
    by_cases hi : i < xs.length
    · rw [List.getElem?_append_left hi] at hpart
      exact .inl ⟨i, part, inner, rest, hpath, hpart, hread, hhit⟩
    · rw [List.getElem?_append_right (by omega)] at hpart
      have hshift : k + xs.length + (i - xs.length) = k + i := by omega
      exact .inr ⟨i - xs.length, part, inner, rest, by rw [hshift]; exact hpath, hpart,
        by rw [hshift]; exact hread, hhit⟩
  · rintro (⟨i, part, inner, rest, hpath, hpart, hread, hhit⟩ |
      ⟨i, part, inner, rest, hpath, hpart, hread, hhit⟩)
    · have hi : i < xs.length := (List.getElem?_eq_some_iff.1 hpart).1
      exact ⟨i, part, inner, rest, hpath, by rw [List.getElem?_append_left hi]; exact hpart, hread,
        hhit⟩
    · have hshift : k + (xs.length + i) = k + xs.length + i := by omega
      refine ⟨xs.length + i, part, inner, rest, by rw [hshift]; exact hpath, ?_,
        by rw [hshift]; exact hread, hhit⟩
      rw [List.getElem?_append_right (by omega), Nat.add_sub_cancel_left]
      exact hpart

/-- Parts behind others: their paths start with greater indices. -/
theorem FoundAmong.append (h : FoundAmong lines read k xs refs)
    (h' : FoundAmong lines read (k + xs.length) ys refs') :
    FoundAmong lines read k (xs ++ ys) (refs ++ refs') := by
  obtain ⟨hits, hrefs, hnodup, hmem⟩ := h
  obtain ⟨hits', hrefs', hnodup', hmem'⟩ := h'
  refine ⟨hits ++ hits', by rw [List.map_append, hrefs, hrefs'], ?_, fun path target => ?_⟩
  · rw [List.map_append, List.nodup_append]
    refine ⟨hnodup, hnodup', ?_⟩
    intro path hpath path' hpath'
    obtain ⟨⟨p, t⟩, hp, rfl⟩ := List.mem_map.1 hpath
    obtain ⟨⟨p', t'⟩, hp', rfl⟩ := List.mem_map.1 hpath'
    obtain ⟨i, part, inner, rest, rfl, hpart, -⟩ := (hmem p t).1 hp
    obtain ⟨j, part', inner', rest', rfl, -⟩ := (hmem' p' t').1 hp'
    have hi : i < xs.length := (List.getElem?_eq_some_iff.1 hpart).1
    intro heq
    have hij : k + i = k + xs.length + j := (List.cons.inj heq).1
    omega
  · rw [List.mem_append, hmem, hmem', ← hitAmong_append]

/-- A node that is no name has the references of its parts. -/
theorem Found.of_parts (hn : ∀ t value, n ≠ .expr (.identifier t value))
    (h : FoundAmong lines (n.readIn c) 0 n.children refs) : Found lines c n refs := by
  obtain ⟨hits, hrefs, hnodup, hmem⟩ := h
  refine ⟨hits, hrefs, hnodup, fun path target => (hmem path target).trans ?_⟩
  constructor
  · rintro ⟨i, part, inner, rest, rfl, hpart, hread, last, t, value, hreach, hname⟩
    rw [Nat.zero_add] at hread
    refine ⟨last, t, value, ?_, hname⟩
    simp [Node.reach, hpart, hread, hreach]
  · rintro ⟨last, t, value, hreach, hname⟩
    cases path with
    | nil =>
      rw [Node.reach] at hreach
      exact absurd (Prod.mk.inj (Option.some.inj hreach)).2 (hn t value)
    | cons i rest =>
      simp only [Node.reach, Option.bind_eq_bind, Option.bind_eq_some_iff] at hreach
      obtain ⟨part, hpart, inner, hread, hreach⟩ := hreach
      exact ⟨i, part, inner, rest, by rw [Nat.zero_add], hpart, by rw [Nat.zero_add]; exact hread,
        last, t, value, hreach, hname⟩

end Parts

/-! ## Expressions -/

/-- The symbols that names refer to. -/
def Cursor.meant (c : Cursor) (lines : Array String) (names : List (Token × String)) :
    List SymbolRef :=
  (names.filter (isReference lines)).filterMap fun name => c.refer? name.2

section Expressions

variable {lines : Array String} {c : Cursor}

theorem Cursor.meant_append (xs ys : List (Token × String)) :
    c.meant lines (xs ++ ys) = c.meant lines xs ++ c.meant lines ys := by
  rw [meant, List.filter_append, List.filterMap_append, meant, meant]

theorem Cursor.references_eq (e : Expr) : c.references lines e = c.meant lines e.names :=
  rfl

/-- A name is found at the empty path, if it is a reference. -/
theorem found_identifier (t : Token) (value : String) :
    Found lines c (.expr (.identifier t value)) (c.references lines (.identifier t value)) := by
  have hreach : ∀ path last t' value',
      Node.reach path c (.expr (.identifier t value)) =
        some (last, .expr (.identifier t' value')) ↔
      path = [] ∧ last = c ∧ t' = t ∧ value' = value := by
    intro path last t' value'
    cases path with
    | nil =>
      simp only [Node.reach, Option.some.injEq, Prod.mk.injEq, Node.expr.injEq,
        Expr.identifier.injEq, true_and]
      grind
    | cons i rest => simp [Node.reach, Node.children, Node.exprChildren]
  rw [Cursor.references_eq, Expr.names, Cursor.meant, List.filter_cons, List.filter_nil]
  by_cases hname : isReference lines (t, value) = true
  · rw [if_pos hname, List.filterMap_cons, List.filterMap_nil]
    dsimp only
    cases hrefer : c.refer? value with
    | none =>
      refine .nil ?_
      rintro path target ⟨last, t', value', hpath, -, htarget⟩
      obtain ⟨-, rfl, rfl, rfl⟩ := (hreach path last t' value').1 hpath
      rw [hrefer] at htarget
      cases htarget
    | some target =>
      refine ⟨[([], target)], rfl, List.nodup_singleton _, fun path target' => ?_⟩
      rw [List.mem_singleton]
      constructor
      · intro heq
        cases heq
        exact ⟨c, t, value, rfl, hname, hrefer⟩
      · rintro ⟨last, t', value', hpath, -, htarget⟩
        obtain ⟨rfl, rfl, rfl, rfl⟩ := (hreach path last t' value').1 hpath
        rw [hrefer] at htarget
        cases htarget
        rfl
  · rw [if_neg hname, List.filterMap_nil]
    refine .nil ?_
    rintro path target ⟨last, t', value', hpath, hname', -⟩
    obtain ⟨-, -, rfl, rfl⟩ := (hreach path last t' value').1 hpath
    exact hname hname'

theorem found_leaf {e : Expr} (hparts : Node.exprChildren e = [])
    (hn : ∀ t value, e ≠ .identifier t value) (hnames : e.names = []) :
    Found lines c (.expr e) (c.references lines e) := by
  refine .of_parts (fun t value heq => hn t value (Node.expr.inj heq)) ?_
  rw [Node.children, hparts, Cursor.references_eq, hnames]
  exact foundAmong_nil

theorem foundAmong_toList {read : Nat → Option Cursor} {k : Nat} {e : Expr}
    (h : e.isMissing = false → Found lines c (.expr e) (c.references lines e))
    (hread : ∀ i < e.toList.length, read (k + i) = some c) :
    FoundAmong lines read k (e.toList.map Node.expr) (c.meant lines e.names) := by
  unfold Expr.toList at hread ⊢
  split
  · rename_i hmissing
    cases e with
    | missing => exact foundAmong_nil
    | _ => cases hmissing
  · rename_i hthere
    rw [if_neg hthere] at hread
    exact foundAmong_single (by simpa using hread 0 (by simp)) (h (by simpa using hthere))

/-- Where no comma stands, all parts of an expression are read in its scope. -/
theorem readIn_expr {e : Expr} (h : e.beforeComma? = none) (i : Nat) :
    Node.readIn c (.expr e) i = some c := by
  rw [Node.readIn, h]

/-- Of a node with a comma only what stands before it is read. -/
theorem found_beforeComma {e l : Expr} {behind : List Expr} (h : e.beforeComma? = some l)
    (hparts : Node.exprChildren e = l.toList ++ behind) (hnames : e.names = l.names)
    (hl : l.isMissing = false → Found lines c (.expr l) (c.references lines l)) :
    Found lines c (.expr e) (c.references lines e) := by
  have hread : ∀ i, Node.readIn c (.expr e) i = if i < l.toList.length then some c else none := by
    intro i
    rw [Node.readIn, h]
  refine .of_parts (fun t value heq => ?_) ?_
  · cases Node.expr.inj heq
    cases h
  · rw [Node.children, hparts, List.map_append, Cursor.references_eq, hnames,
      ← List.append_nil (c.meant lines l.names)]
    refine (foundAmong_toList hl fun i hi => ?_).append (foundAmong_unread fun i _ => ?_)
    · rw [hread, Nat.zero_add, if_pos hi]
    · rw [hread, List.length_map, if_neg (by omega)]

mutual

theorem found_expr : (e : Expr) → e.isMissing = false →
    Found lines c (.expr e) (c.references lines e)
  | .missing => fun h => by cases h
  | .identifier t value => fun _ => found_identifier t value
  | .integer _ _ => fun _ => found_leaf rfl (fun _ _ h => by cases h) rfl
  | .string _ _ => fun _ => found_leaf rfl (fun _ _ h => by cases h) rfl
  | .programCounter _ => fun _ => found_leaf rfl (fun _ _ h => by cases h) rfl
  | .unary op e => by
    intro _
    refine .of_parts (fun _ _ h => by cases h) ?_
    exact foundAmong_toList (found_expr e) fun i _ => readIn_expr rfl _
  | .group opening e => by
    intro _
    refine .of_parts (fun _ _ h => by cases h) ?_
    exact foundAmong_toList (found_expr e) fun i _ => readIn_expr rfl _
  | .indexed comma e register => by
    intro _
    exact found_beforeComma rfl rfl (by rw [Expr.names]) (found_expr e)
  | .binary op l r => by
    intro _
    by_cases hcomma : (op.literal == ",") = true
    · exact found_beforeComma (by rw [Expr.beforeComma?, if_pos hcomma]) rfl
        (by rw [Expr.names, if_pos hcomma]) (found_expr l)
    · have hread := readIn_expr (c := c) (e := .binary op l r)
        (by rw [Expr.beforeComma?, if_neg hcomma])
      refine .of_parts (fun _ _ h => by cases h) ?_
      rw [Cursor.references_eq, Expr.names, if_neg hcomma, Cursor.meant_append, Node.children,
        Node.exprChildren, List.map_append]
      exact (foundAmong_toList (found_expr l) fun i _ => hread _).append
        (foundAmong_toList (found_expr r) fun i _ => hread _)
  | .call t f args => by
    intro _
    have hread := readIn_expr (c := c) (e := .call t f args) rfl
    refine .of_parts (fun _ _ h => by cases h) ?_
    rw [Cursor.references_eq, Expr.names, Cursor.meant_append, Node.children, Node.exprChildren,
      List.map_append]
    exact (foundAmong_toList (found_expr f) fun i _ => hread _).append
      (found_exprs args hread _)
  | .array t es => by
    intro _
    refine .of_parts (fun _ _ h => by cases h) ?_
    rw [Cursor.references_eq, Expr.names, Node.children, Node.exprChildren]
    exact found_exprs es (readIn_expr rfl) _

/-- The references of an expression are found by its names. -/
theorem found_exprs {read : Nat → Option Cursor} : (es : List Expr) →
    (∀ i, read i = some c) → (k : Nat) →
    FoundAmong lines read k ((es.flatMap Expr.toList).map Node.expr)
      (c.meant lines (Expr.allNames es))
  | [] => by
    intro _ k
    rw [Expr.allNames]
    exact foundAmong_nil
  | e :: es => by
    intro hread k
    rw [List.flatMap_cons, List.map_append, Expr.allNames, Cursor.meant_append]
    exact (foundAmong_toList (found_expr e) fun i _ => hread _).append (found_exprs es hread _)

end

end Expressions

/-! ## Statements -/

section Statements

variable {lines : Array String} {c : Cursor}

/-- The header of a directive as nodes: its names, then its value. -/
theorem Node.ofHeader_eq (d : Directive) :
    ofHeader d = (d.name.toList ++ d.parameters).map (fun t => expr (.ofName t)) ++
      d.value.toList.map expr := by
  have hnames : ∀ ts : List Token,
      (ts.map Expr.ofName).flatMap Expr.toList = ts.map Expr.ofName := by
    intro ts
    induction ts with
    | nil => rfl
    | cons t ts ih =>
      rw [List.map_cons, List.flatMap_cons, ih]
      rfl
  rw [ofHeader, ofExprs, List.flatMap_append, List.flatMap_append, hnames, hnames]
  simp [Function.comp_def]

/-- Of the header of a directive only the value is read. -/
theorem foundAmong_ofHeader {read : Nat → Option Cursor} (d : Directive)
    (hnames : ∀ i < d.nameCount, read i = none)
    (hvalue : ∀ i < (Node.ofHeader d).length, d.nameCount ≤ i → read i = some c) :
    FoundAmong lines read 0 (Node.ofHeader d) (c.references lines d.value) := by
  have hlength : (Node.ofHeader d).length = d.nameCount + d.value.toList.length := by
    rw [Node.ofHeader_eq, List.length_append, List.length_map, List.length_map,
      Directive.nameCount]
  rw [Node.ofHeader_eq, ← List.nil_append (c.references lines d.value)]
  refine (foundAmong_unread fun i hi => ?_).append (foundAmong_toList (found_expr d.value) ?_)
  · rw [List.length_map] at hi
    rw [Nat.zero_add]
    exact hnames i hi
  · intro i hi
    rw [List.length_map, ← Directive.nameCount, Nat.zero_add]
    exact hvalue _ (by omega) (Nat.le_add_right _ _)

theorem found_block {opening closing : Token} {body : List Statement} {refs : List SymbolRef}
    (h : FoundAmong lines (fun _ => some c) 0 (body.map Node.statement) refs) :
    Found lines c (.statement (.block opening body closing)) refs :=
  .of_parts (fun _ _ heq => by cases heq) h

theorem found_operand {s : Statement} {e : Expr}
    (hparts : (Node.statement s).children = Node.ofExprs [e])
    (hread : ∀ i, Node.readIn c (.statement s) i = some c) :
    Found lines c (.statement s) (c.references lines e) := by
  refine .of_parts (fun _ _ heq => by cases heq) ?_
  rw [hparts, Node.ofExprs, List.flatMap_singleton]
  exact foundAmong_toList (found_expr e) fun i _ => hread _

mutual

theorem found_statement (c : Cursor) : (s : Statement) →
    Found lines c (.statement s) (statementReferences lines c s)
  | .label t => by
    rw [statementReferences]
    exact .of_parts (fun _ _ heq => by cases heq) foundAmong_nil
  | .instruction t e => by
    rw [statementReferences]
    exact found_operand rfl fun _ => rfl
  | .expression t e => by
    rw [statementReferences]
    exact found_operand rfl fun _ => rfl
  | .directive d => by
    rw [statementReferences]
    refine .of_parts (fun _ _ heq => by cases heq) (foundAmong_ofHeader d ?_ ?_)
    · intro i hi
      exact if_pos hi
    · intro i _ hi
      exact if_neg (by omega)
  | .directiveBlock d opening body closing => by
    have hbody := found_statements (c.body d) body 0
    rw [statementReferences]
    refine .of_parts (fun _ _ heq => by cases heq) ?_
    rw [Node.children]
    refine (foundAmong_ofHeader d ?_ ?_).append (foundAmong_single ?_ (found_block hbody))
    · intro i hi
      exact if_pos hi
    · intro i hlt hi
      rw [Node.readIn, if_neg (by omega), if_pos hlt]
    · have hcount : d.nameCount ≤ (Node.ofHeader d).length := by
        rw [Node.ofHeader_eq, List.length_append, List.length_map, Directive.nameCount]
        omega
      rw [Nat.zero_add, Node.readIn, if_neg (by omega), if_neg (by omega)]
  | .block opening body closing => by
    rw [statementReferences]
    exact found_block (found_statements c body 0)

theorem found_statements (c : Cursor) : (sts : List Statement) → (k : Nat) →
    FoundAmong lines (fun _ => some c) k (sts.map Node.statement)
      (statementsReferences lines c sts)
  | [] => by
    intro k
    rw [statementsReferences]
    exact foundAmong_nil
  | s :: sts => by
    intro k
    rw [statementsReferences, List.map_cons, ← List.singleton_append]
    exact (foundAmong_single rfl (found_statement c s)).append (found_statements c sts _)

end

/-- **References are found by names.** The references of a program have one entry for each name that
is reached in it and refers to a symbol. -/
theorem found_program (p : Program) (scope : Scope) (text : String) :
    Found (Text.lines text).toArray (Cursor.ofRoot scope) (.program p)
      (references p scope text) :=
  .of_parts (fun _ _ heq => by cases heq) (found_statements _ p.statements 0)

end Statements

end Asm6510
