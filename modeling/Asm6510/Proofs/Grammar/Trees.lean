import Asm6510.Grammar.Directive
import Asm6510.Tree.Node

/-!
# Trees made of given tokens

* `Statement.preorder`: a statement and all statements in it.
* `Expr.From`, `Directive.From`, `Statement.From`: every token of the tree is one of some tokens,
  and names are made of tokens that can be names (`Token.NameIn`).
* `Statement.AllFrom`: the same of the statements in a statement as well.
* `Node.From`: the same of a node, and so of every node in it (`Node.From.preorder`).
* `DirectiveForm.namesBlock`: the forms of directives whose block has a name.
* `Forms`, `Directive.Made`, `Statement.Made`: how the grammar makes expressions, directives and
  statements of parts. `Layers` is what is said of trees one layer of nesting after the other.

`Statement.From` says of a directive with a block also whether it has a name and may hold
statements.
-/

namespace Asm6510

variable {s : Statement}

def Directive.form (d : Directive) : Grammar.DirectiveForm :=
  Grammar.DirectiveForm.ofWord (Grammar.directiveWord d.token)

/-- The directives whose blocks have names. -/
def Grammar.DirectiveForm.namesBlock : DirectiveForm → Bool
  | callable _ => true
  | pseudocommand => true
  | scope => true
  | enumeration => true
  | _ => false

namespace Statement

mutual

/-- A statement, then the statements in it one after the other. -/
def preorder : Statement → List Statement
  | label t => [label t]
  | instruction t e => [instruction t e]
  | directive d => [directive d]
  | directiveBlock d opening body closing => directiveBlock d opening body closing :: preorders body
  | block opening body closing => block opening body closing :: preorders body
  | expression t e => [expression t e]

def preorders : List Statement → List Statement
  | [] => []
  | s :: rest => preorder s ++ preorders rest

end

theorem preorders_append (xs ys : List Statement) :
    preorders (xs ++ ys) = preorders xs ++ preorders ys := by
  induction xs with
  | nil => rfl
  | cons x xs ih => rw [List.cons_append, preorders, preorders, ih, List.append_assoc]

theorem mem_preorder_self (s : Statement) : s ∈ preorder s := by
  cases s with
  | label | instruction | directive | directiveBlock | block | expression =>
    rw [preorder]
    exact List.mem_cons_self

theorem mem_preorders {sts : List Statement} : s ∈ preorders sts ↔ ∃ t ∈ sts, s ∈ preorder t := by
  induction sts with
  | nil => simp [preorders]
  | cons t sts ih => simp [preorders, ih]

end Statement

/-- A token among `tokens` that can be a name. -/
def Token.NameIn (tokens : List Token) (t : Token) : Prop :=
  t ∈ tokens ∧ t.kind.isName = true

/-- All tokens of an expression are among `tokens`, and its names can be names. -/
inductive Expr.From (tokens : List Token) : Expr → Prop
  | missing : From tokens .missing
  | identifier {t : Token} (ht : t.NameIn tokens) (value : String) :
      From tokens (.identifier t value)
  | integer {t : Token} (ht : t ∈ tokens) (value : Nat) : From tokens (.integer t value)
  | string {t : Token} (ht : t ∈ tokens) (value : String) : From tokens (.string t value)
  | unary {op : Token} {e : Expr} (ht : op ∈ tokens) (he : From tokens e) :
      From tokens (.unary op e)
  | binary {op : Token} {l r : Expr} (ht : op ∈ tokens) (hl : From tokens l) (hr : From tokens r) :
      From tokens (.binary op l r)
  | indexed {comma register : Token} {e : Expr} (ht : comma ∈ tokens) (he : From tokens e)
      (hr : register.NameIn tokens) : From tokens (.indexed comma e register)
  | group {opening : Token} {e : Expr} (ht : opening ∈ tokens) (he : From tokens e) :
      From tokens (.group opening e)
  | call {t : Token} {f : Expr} {args : List Expr} (ht : t ∈ tokens) (hf : From tokens f)
      (hargs : ∀ e ∈ args, From tokens e) : From tokens (.call t f args)
  | array {t : Token} {es : List Expr} (ht : t ∈ tokens) (hes : ∀ e ∈ es, From tokens e) :
      From tokens (.array t es)
  | programCounter {t : Token} (ht : t ∈ tokens) : From tokens (.programCounter t)

/-- All tokens of a directive are among `tokens`, and its names can be names. -/
structure Directive.From (tokens : List Token) (d : Directive) : Prop where
  token : d.token ∈ tokens
  name : ∀ t ∈ d.name, t.NameIn tokens
  parameters : ∀ t ∈ d.parameters, t.NameIn tokens
  value : d.value.From tokens

/-- All tokens of a statement but those of the statements in it are among `tokens`. A directive with
a block has a name if its form asks for one, and none otherwise. No statements stand in the block of
an enumeration. -/
def Statement.From (tokens : List Token) : Statement → Prop
  | label t => t ∈ tokens
  | instruction t e => t ∈ tokens ∧ e.From tokens
  | directive d => d.From tokens
  | directiveBlock d opening body closing =>
    d.From tokens ∧ opening ∈ tokens ∧ closing ∈ tokens ∧ d.name.isSome = d.form.namesBlock ∧
      (d.form = .enumeration → body = [])
  | block opening _ closing => opening ∈ tokens ∧ closing ∈ tokens
  | expression t e => t ∈ tokens ∧ e.From tokens

/-- All tokens of a statement, with those of the statements in it, are among `tokens`. -/
def Statement.AllFrom (tokens : List Token) (s : Statement) : Prop :=
  ∀ u ∈ s.preorder, u.From tokens

/-- All tokens of a block are among `tokens`. -/
structure Braces.From (tokens : List Token) (b : Braces) : Prop where
  opening : b.opening ∈ tokens
  body : ∀ s ∈ b.body, s.AllFrom tokens
  closing : b.closing ∈ tokens

section From

variable {tokens : List Token} {e : Expr} {t : Token} {d : Directive}

theorem Expr.From.toList (h : e.From tokens) : ∀ x ∈ e.toList, x.From tokens := by
  unfold Expr.toList
  split
  · exact fun x hx => absurd hx List.not_mem_nil
  · simpa using h

theorem Expr.From.ofName (ht : t.NameIn tokens) : (Expr.ofName t).From tokens :=
  .identifier ht _

theorem Statement.AllFrom.self (h : s.AllFrom tokens) : s.From tokens :=
  h s (mem_preorder_self s)

theorem Statement.AllFrom.preorders {sts : List Statement} (h : ∀ s ∈ sts, s.AllFrom tokens) :
    ∀ u ∈ Statement.preorders sts, u.From tokens := by
  intro u hu
  obtain ⟨s, hs, hu⟩ := Statement.mem_preorders.1 hu
  exact h s hs u hu

theorem Statement.AllFrom.label (ht : t ∈ tokens) : (label t).AllFrom tokens := by
  simpa [AllFrom, preorder, From] using ht

theorem Statement.AllFrom.instruction (ht : t ∈ tokens) (he : e.From tokens) :
    (instruction t e).AllFrom tokens := by
  simpa [AllFrom, preorder, From] using ⟨ht, he⟩

theorem Statement.AllFrom.expression (ht : t ∈ tokens) (he : e.From tokens) :
    (expression t e).AllFrom tokens := by
  simpa [AllFrom, preorder, From] using ⟨ht, he⟩

theorem Statement.AllFrom.directive (hd : d.From tokens) : (directive d).AllFrom tokens := by
  simpa [AllFrom, preorder, From] using hd

theorem Statement.AllFrom.directiveBlock {b : Braces} (hd : d.From tokens) (hb : b.From tokens)
    (hname : d.name.isSome = d.form.namesBlock) (hmembers : d.form = .enumeration → b.body = []) :
    (directiveBlock d b.opening b.body b.closing).AllFrom tokens := by
  rw [AllFrom, preorder]
  exact List.forall_mem_cons.2 ⟨⟨hd, hb.opening, hb.closing, hname, hmembers⟩, preorders hb.body⟩

theorem Statement.AllFrom.block {b : Braces} (hb : b.From tokens) :
    (block b.opening b.body b.closing).AllFrom tokens := by
  rw [AllFrom, preorder]
  exact List.forall_mem_cons.2 ⟨⟨hb.opening, hb.closing⟩, preorders hb.body⟩

/-! ## What the grammar makes -/

theorem Expr.forall_toList {V : Expr → Prop} (h : V e) : ∀ x ∈ e.toList, V x := by
  unfold toList
  split
  · exact fun x hx => absurd hx List.not_mem_nil
  · exact List.forall_mem_singleton.2 h

namespace Grammar

/-- What is said of expressions, form by form: `whole` of those whose parts have `part`. An operand
before an operator and a function before its arguments are no nested parts. -/
structure Forms (tokens : List Token) (part whole : Expr → Prop) : Prop where
  missing : whole .missing
  name : ∀ {t}, t.NameIn tokens → whole (.ofName t)
  integer : ∀ {t}, t ∈ tokens → ∀ n, whole (.integer t n)
  string : ∀ {t}, t ∈ tokens → whole (stringLiteral t)
  programCounter : ∀ {t}, t ∈ tokens → whole (.programCounter t)
  unary : ∀ {op e}, op ∈ tokens → part e → whole (.unary op e)
  binary : ∀ {op l r}, op ∈ tokens → lowest < level op.kind → op.kind ≠ .leftParen → whole l →
    part r → whole (.binary op l r)
  group : ∀ {opening e}, opening ∈ tokens → part e → whole (.group opening e)
  indexed : ∀ {opening comma register e}, opening ∈ tokens → opening.kind = .leftParen →
    comma ∈ tokens → part e → register.NameIn tokens →
    whole (.group opening (.indexed comma e register))
  call : ∀ {t f args}, t ∈ tokens → whole f → (∀ e ∈ args, part e) → whole (.call t f args)

/-- The operand of an instruction: it may have an index register behind it. -/
inductive OperandOf (tokens : List Token) (V : Expr → Prop) : Expr → Prop
  | plain {e : Expr} (he : V e) : OperandOf tokens V e
  | indexed {comma register : Token} {e : Expr} (hcomma : comma ∈ tokens) (he : V e)
      (hr : register.NameIn tokens) : OperandOf tokens V (.indexed comma e register)

/-- The value of a directive at `t`: a single one, several of them, a text, or the name of a file
behind its kind. -/
inductive ValueOf (tokens : List Token) (V : Expr → Prop) (t : Token) : Expr → Prop
  | missing : ValueOf tokens V t .missing
  | single {e : Expr} (he : V e) : ValueOf tokens V t e
  | several {es : List Expr} (hes : ∀ e ∈ es, V e)
      (hform : DirectiveForm.ofWord (directiveWord t) = .data ∨
        DirectiveForm.ofWord (directiveWord t) = .enumeration) :
      ValueOf tokens V t (.array t es)
  | text {s : Token} (hs : s ∈ tokens)
      (hform : DirectiveForm.ofWord (directiveWord t) = .encoding) :
      ValueOf tokens V t (stringLiteral s)
  | file {kind : List Expr} {s : Token}
      (hkind : ∀ e ∈ kind, ∃ n : Token, n.NameIn tokens ∧ e = .identifier n (Text.lower n.literal))
      (hs : s ∈ tokens) (hform : DirectiveForm.ofWord (directiveWord t) = .importFile) :
      ValueOf tokens V t (.array t (kind ++ [stringLiteral s]))

theorem OperandOf.from (h : OperandOf tokens (Expr.From tokens) e) : e.From tokens := by
  cases h with
  | plain he => exact he
  | indexed hcomma he hr => exact .indexed hcomma he hr

theorem ValueOf.from (ht : t ∈ tokens) (h : ValueOf tokens (Expr.From tokens) t e) :
    e.From tokens := by
  cases h with
  | missing => exact .missing
  | single he => exact he
  | several hes => exact .array ht hes
  | text hs => exact .string hs _
  | file hkind hs =>
    refine .array ht (List.forall_mem_append.2 ⟨fun e he => ?_, ?_⟩)
    · obtain ⟨n, hn, rfl⟩ := hkind e he
      exact .identifier hn _
    · exact List.forall_mem_singleton.2 (.string hs _)

end Grammar

open Grammar

/-- A directive at a token of `tokens`, with names among them and a value. -/
structure Directive.Made (tokens : List Token) (V : Expr → Prop) (d : Directive) : Prop where
  token : d.token ∈ tokens
  name : ∀ n ∈ d.name, n.NameIn tokens
  parameters : ∀ n ∈ d.parameters, n.NameIn tokens
  value : ValueOf tokens V d.token d.value

/-- A statement with values that have `V` and with a block that has `B`. A directive with a block
has a name if its form asks for one, and none otherwise. -/
inductive Statement.Made (tokens : List Token) (V : Expr → Prop) (B : Braces → Prop) :
    Statement → Prop
  | label {t : Token} (ht : t ∈ tokens) : Made tokens V B (.label t)
  | instruction {t : Token} {e : Expr} (ht : t ∈ tokens) (he : OperandOf tokens V e) :
      Made tokens V B (.instruction t e)
  | directive {d : Directive} (hd : d.Made tokens V) : Made tokens V B (.directive d)
  | braced {d : Directive} {b : Braces} (hd : d.Made tokens V) (hb : B b)
      (hname : d.name.isSome = d.form.namesBlock) (hform : d.form ≠ .enumeration) :
      Made tokens V B (.directiveBlock d b.opening b.body b.closing)
  | members {d : Directive} {opening closing : Token} (hd : d.Made tokens V)
      (hopening : opening ∈ tokens) (hclosing : closing ∈ tokens)
      (hname : d.name.isSome = d.form.namesBlock) :
      Made tokens V B (.directiveBlock d opening [] closing)
  | block {b : Braces} (hb : B b) : Made tokens V B (.block b.opening b.body b.closing)
  | call {t : Token} {args : List Expr} (ht : t.NameIn tokens) (hargs : ∀ e ∈ args, V e) :
      Made tokens V B (.expression t (.call t (.ofName t) args))

/-- What is said of expressions and blocks, by the room for nesting that is left for them. -/
structure Layers (tokens : List Token) (V : Nat → Expr → Prop) (B : Nat → Braces → Prop) :
    Prop where
  missing : V 0 .missing
  forms : ∀ room, Forms tokens (V room) (V (room + 1))
  refused : ∀ {opening closing}, opening ∈ tokens → closing ∈ tokens → B 0 ⟨opening, [], closing⟩
  block : ∀ {room opening body closing}, opening ∈ tokens → closing ∈ tokens →
    (∀ s ∈ body, s.Made tokens (V room) (B room)) → B (room + 1) ⟨opening, body, closing⟩

theorem Layers.missing_at {V : Nat → Expr → Prop} {B : Nat → Braces → Prop}
    (h : Layers tokens V B) (room : Nat) : V room .missing := by
  cases room with
  | zero => exact h.missing
  | succ room => exact (h.forms room).missing

theorem forms_from : Forms tokens (Expr.From tokens) (Expr.From tokens) where
  missing := .missing
  name := .ofName
  integer ht n := .integer ht n
  string ht := .string ht _
  programCounter := .programCounter
  unary := .unary
  binary ht _ _ := .binary ht
  group := .group
  indexed ht _ hcomma he hr := .group ht (.indexed hcomma he hr)
  call := .call

theorem Directive.Made.from (h : d.Made tokens (Expr.From tokens)) : d.From tokens :=
  ⟨h.token, h.name, h.parameters, h.value.from h.token⟩

theorem Statement.Made.allFrom (h : s.Made tokens (Expr.From tokens) (Braces.From tokens)) :
    s.AllFrom tokens := by
  cases h with
  | label ht => exact .label ht
  | instruction ht he => exact .instruction ht he.from
  | directive hd => exact .directive hd.from
  | braced hd hb hname hform => exact .directiveBlock hd.from hb hname fun h => absurd h hform
  | members hd hopening hclosing hname =>
    exact .directiveBlock (b := ⟨_, [], _⟩) hd.from
      ⟨hopening, fun s hs => absurd hs List.not_mem_nil, hclosing⟩ hname fun _ => rfl
  | block hb => exact .block hb
  | call ht hargs => exact .expression ht.1 (.call ht.1 (.ofName ht) hargs)

theorem layers_from : Layers tokens (fun _ => Expr.From tokens) (fun _ => Braces.From tokens) where
  missing := .missing
  forms _ := forms_from
  refused hopening hclosing := ⟨hopening, fun _ hs => absurd hs List.not_mem_nil, hclosing⟩
  block hopening hclosing hbody := ⟨hopening, fun s hs => (hbody s hs).allFrom, hclosing⟩

/-! ## Nodes -/

/-- All tokens of a node are among `tokens`. -/
def Node.From (tokens : List Token) : Node → Prop
  | program p => ∀ s ∈ p.statements, s.AllFrom tokens
  | statement s => s.AllFrom tokens
  | expr e => e.From tokens

theorem Expr.From.flatMap_toList {es : List Expr} (h : ∀ e ∈ es, e.From tokens) :
    ∀ x ∈ es.flatMap Expr.toList, x.From tokens := by
  intro x hx
  obtain ⟨e, he, hx⟩ := List.mem_flatMap.1 hx
  exact (h e he).toList x hx

theorem Expr.From.exprChildren (h : e.From tokens) : ∀ x ∈ Node.exprChildren e, x.From tokens := by
  cases h with
  | unary _ he => exact he.toList
  | binary _ hl hr => exact List.forall_mem_append.2 ⟨hl.toList, hr.toList⟩
  | indexed _ he hr =>
    exact List.forall_mem_append.2 ⟨he.toList, List.forall_mem_singleton.2 (.identifier hr _)⟩
  | group _ he => exact he.toList
  | call _ hf hargs => exact List.forall_mem_append.2 ⟨hf.toList, flatMap_toList hargs⟩
  | array _ hes => exact flatMap_toList hes
  | missing | identifier | integer | string | programCounter =>
    exact fun x hx => absurd hx List.not_mem_nil

theorem Node.From.ofExprs {es : List Expr} (h : ∀ e ∈ es, e.From tokens) :
    ∀ n ∈ Node.ofExprs es, n.From tokens :=
  List.forall_mem_map.2 (Expr.From.flatMap_toList h)

theorem Node.From.ofHeader (h : d.From tokens) : ∀ n ∈ Node.ofHeader d, n.From tokens := by
  refine ofExprs (List.forall_mem_append.2 ⟨List.forall_mem_append.2 ⟨?_, ?_⟩, ?_⟩)
  · exact List.forall_mem_map.2 fun t ht => .ofName (h.name t (Option.mem_toList.1 ht))
  · exact List.forall_mem_map.2 fun t ht => .ofName (h.parameters t ht)
  · exact List.forall_mem_singleton.2 h.value

theorem Node.From.children {n : Node} (h : n.From tokens) : ∀ m ∈ n.children, m.From tokens := by
  match n with
  | .program p => exact List.forall_mem_map.2 h
  | .expr e => exact List.forall_mem_map.2 (Expr.From.exprChildren h)
  | .statement (.label _) => exact fun m hm => absurd hm List.not_mem_nil
  | .statement (.instruction _ e) =>
    exact ofExprs (List.forall_mem_singleton.2 (Statement.AllFrom.self h).2)
  | .statement (.expression _ e) =>
    exact ofExprs (List.forall_mem_singleton.2 (Statement.AllFrom.self h).2)
  | .statement (.directive d) => exact ofHeader (Statement.AllFrom.self h)
  | .statement (.directiveBlock d opening body closing) =>
    rw [From, Statement.AllFrom, Statement.preorder, List.forall_mem_cons] at h
    obtain ⟨⟨hd, hopening, hclosing, -⟩, hbody⟩ := h
    refine List.forall_mem_append.2 ⟨ofHeader hd, List.forall_mem_singleton.2 ?_⟩
    rw [From, Statement.AllFrom, Statement.preorder]
    exact List.forall_mem_cons.2 ⟨⟨hopening, hclosing⟩, hbody⟩
  | .statement (.block opening body closing) =>
    rw [From, Statement.AllFrom, Statement.preorder, List.forall_mem_cons] at h
    exact List.forall_mem_map.2 fun s hs u hu => h.2 u (Statement.mem_preorders.2 ⟨s, hs, hu⟩)

theorem Node.From.preorder {n : Node} (h : n.From tokens) : ∀ m ∈ n.preorder, m.From tokens := by
  induction n using Node.preorder.induct with
  | case1 n ih =>
    intro m hm
    rw [Node.preorder] at hm
    rcases List.mem_cons.1 hm with rfl | hm
    · exact h
    · obtain ⟨c, -, hm⟩ := List.mem_flatMap.1 hm
      exact ih c (h.children c.1 c.2) m hm

end From

end Asm6510
