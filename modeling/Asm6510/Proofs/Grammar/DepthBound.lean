import Asm6510.Proofs.Grammar.Origins
import Mathlib

/-!
# The nesting of a program

How deep a program is nested is counted along the paths from its root: a step costs one if the
parser asks for room there, and nothing otherwise.

* `Node.steps`: the parts of a node with what it costs to go to them.
* `Node.Reaches`, `Node.Bounded`: paths with their costs, and a bound for all paths from a node.
* `Expr.isBaseless`: an index whose base the bound refused.
* `Fits`: the paths from an expression keep to the room that is left for it.

Main statement: `parse_bounded`. The index without a base has to be left out
(`parse_baseless_deeper`).
-/

namespace Asm6510

open Grammar

/-! ## Paths and their costs -/

/-- An index without a base: what stood before it was refused. -/
def Expr.isBaseless : Expr → Bool
  | .indexed _ .missing _ => true
  | _ => false

namespace Node

/-- The expressions that are there as nodes, each at the same cost. -/
def costing (cost : Nat) (es : List Expr) : List (Nat × Node) :=
  (ofExprs es).map (cost, ·)

/-- What it costs to go into an operand or between parentheses, where `free` tells expressions that
cost nothing. -/
def entry (free : Expr → Bool) (e : Expr) : Nat :=
  if free e then 0 else 1

/-- What it costs to go to the value of a directive, of which some are read without the parser of
expressions or element by element. -/
def valueCost (d : Directive) : Nat :=
  if d.form ∈ [.encoding, .importFile, .data, .enumeration] then 0 else 1

/-- What it costs to go to an element of the values of a directive. -/
def elementCost (t : Token) : Nat :=
  if DirectiveForm.ofWord (directiveWord t) = .importFile then 0 else 1

/-- The parts of an expression with their costs. Operands before an operator, an index or arguments
cost nothing. -/
def exprSteps (free : Expr → Bool) : Expr → List (Nat × Node)
  | .unary _ e => costing 1 [e]
  | .binary _ l r => costing 0 [l] ++ costing 1 [r]
  | .indexed _ e register =>
    costing 0 [e] ++ costing 0 [.identifier register (Expr.registerName register)]
  | .group _ e => costing (entry free e) [e]
  | .call _ f args => costing 0 [f] ++ costing 1 args
  | .array t es => costing (elementCost t) es
  | _ => []

/-- The header of a directive with its costs. -/
def headerSteps (d : Directive) : List (Nat × Node) :=
  costing 0 (d.name.toList.map Expr.ofName ++ d.parameters.map Expr.ofName) ++
    costing (valueCost d) [d.value]

/-- The parts of a node with what it costs to go to them. -/
def steps (free : Expr → Bool) : Node → List (Nat × Node)
  | program p => p.statements.map fun s => (0, statement s)
  | statement (.label _) => []
  | statement (.instruction _ operand) => costing (entry free operand) [operand]
  | statement (.directive d) => headerSteps d
  | statement (.directiveBlock d opening body closing) =>
    headerSteps d ++ [(0, statement (.block opening body closing))]
  | statement (.block _ body _) => body.map fun s => (1, statement s)
  | statement (.expression _ e) => costing 0 [e]
  | expr e => exprSteps free e

/-- A path of this cost leads from a node to another. -/
inductive Reaches (free : Expr → Bool) : Node → Nat → Node → Prop
  | refl (n : Node) : Reaches free n 0 n
  | step {n m part : Node} {cost rest : Nat} (hstep : (cost, part) ∈ n.steps free)
      (hrest : Reaches free part rest m) : Reaches free n (cost + rest) m

def Bounded (n : Node) (bound : Nat) : Prop :=
  ∀ cost m, n.Reaches Expr.isBaseless cost m → cost ≤ bound

/-- A step of this cost leads to a node from which the rest of the bound is kept. -/
def StepWithin (bound : Nat) (s : Nat × Node) : Prop :=
  ∃ rest, s.1 + rest ≤ bound ∧ s.2.Bounded rest

theorem bounded_of_steps {n : Node} {bound : Nat}
    (h : ∀ s ∈ n.steps Expr.isBaseless, StepWithin bound s) : n.Bounded bound := by
  intro cost m hpath
  cases hpath with
  | refl => exact Nat.zero_le _
  | step hstep hrest =>
    obtain ⟨rest, hle, hpart⟩ := h _ hstep
    exact (Nat.add_le_add_left (hpart _ _ hrest) _).trans hle

theorem forall_costing {P : Nat × Node → Prop} {cost : Nat} {es : List Expr} :
    (∀ s ∈ costing cost es, P s) ↔ ∀ e ∈ es, ∀ x ∈ e.toList, P (cost, expr x) := by
  simp only [costing, ofExprs, List.forall_mem_map, List.mem_flatMap]
  grind

theorem entry_le (free : Expr → Bool) (e : Expr) : entry free e ≤ 1 := by
  unfold entry
  split <;> omega

end Node

open Node

/-! ## Expressions -/

/-- The expression is missing, or the paths from it keep to the room, of which it takes one. -/
def Fits (room : Nat) (e : Expr) : Prop :=
  ∀ x ∈ e.toList, ∃ bound < room, (Node.expr x).Bounded bound

/-- The paths from the statements of a block keep to the room, of which it takes one. -/
def Braces.Fits (room : Nat) (b : Braces) : Prop :=
  ∀ s ∈ b.body, ∃ bound < room, (Node.statement s).Bounded bound

section Fits

variable {tokens : List Token} {room cost : Nat} {e : Expr}

theorem mem_toList {x : Expr} (h : x ∈ e.toList) : x = e := by
  unfold Expr.toList at h
  split at h
  · exact absurd h List.not_mem_nil
  · exact List.mem_singleton.1 h

theorem fits_of_steps (h : ∀ s ∈ exprSteps Expr.isBaseless e, StepWithin room s) :
    Fits (room + 1) e := by
  intro x hx
  rw [mem_toList hx]
  exact ⟨room, Nat.lt_succ_self _, bounded_of_steps h⟩

theorem bounded_leaf (h : exprSteps Expr.isBaseless e = []) (bound : Nat) :
    (Node.expr e).Bounded bound := by
  refine bounded_of_steps fun s hs => ?_
  rw [steps, h] at hs
  exact absurd hs List.not_mem_nil

theorem steps_leaves {es : List Expr} (h : ∀ x ∈ es, exprSteps Expr.isBaseless x = []) :
    ∀ s ∈ costing 0 es, StepWithin room s := by
  refine forall_costing.2 fun x hx y hy => ?_
  rw [mem_toList hy]
  exact ⟨0, Nat.zero_le _, bounded_leaf (h x hx) 0⟩

theorem steps_costing {es : List Expr} (hcost : cost ≤ 1) (h : ∀ x ∈ es, Fits room x) :
    ∀ s ∈ costing cost es, StepWithin room s := by
  refine forall_costing.2 fun x hx y hy => ?_
  obtain ⟨bound, hlt, hbound⟩ := h x hx y hy
  exact ⟨bound, by omega, hbound⟩

/-- The operand before an operator has the room of the whole expression. -/
theorem steps_left (h : Fits (room + 1) e) : ∀ s ∈ costing 0 [e], StepWithin room s := by
  refine forall_costing.2 (List.forall_mem_singleton.2 fun y hy => ?_)
  obtain ⟨bound, hlt, hbound⟩ := h y hy
  exact ⟨bound, by omega, hbound⟩

/-- Going into an operand takes one from the room, unless it is an index without a base. -/
theorem steps_entry (h : OperandOf tokens (Fits room) e) :
    ∀ s ∈ costing (entry Expr.isBaseless e) [e], StepWithin room s := by
  cases h with
  | plain he => exact steps_costing (entry_le _ _) (List.forall_mem_singleton.2 he)
  | @indexed comma register base _ he _ =>
    refine forall_costing.2 (List.forall_mem_singleton.2 fun y hy => ?_)
    rw [mem_toList hy]
    have hregister : ∀ s ∈ costing 0 [.identifier register (Expr.registerName register)],
        StepWithin 0 s := steps_leaves (List.forall_mem_singleton.2 rfl)
    by_cases hbase : base = .missing
    · subst hbase
      exact ⟨0, Nat.zero_le _, bounded_of_steps (List.forall_mem_append.2
        ⟨fun s hs => absurd hs List.not_mem_nil, hregister⟩)⟩
    · have hthere : base ∈ base.toList := by
        cases base <;> simp_all [Expr.toList, Expr.isMissing]
      obtain ⟨bound, hlt, hbound⟩ := he base hthere
      refine ⟨bound, ?_, bounded_of_steps (List.forall_mem_append.2 ⟨?_, ?_⟩)⟩
      · have hentry := entry_le Expr.isBaseless (.indexed comma base register)
        dsimp only
        omega
      · refine forall_costing.2 (List.forall_mem_singleton.2 fun z hz => ?_)
        rw [mem_toList hz]
        exact ⟨bound, by omega, hbound⟩
      · exact steps_leaves (List.forall_mem_singleton.2 rfl)

theorem fits_leaf (h : exprSteps Expr.isBaseless e = []) : Fits (room + 1) e :=
  fits_of_steps fun _ hs => absurd (h ▸ hs) List.not_mem_nil

theorem forms_fits (room : Nat) : Forms tokens (Fits room) (Fits (room + 1)) where
  missing := fun _ hx => absurd hx List.not_mem_nil
  name _ := fits_leaf rfl
  integer _ _ := fits_leaf rfl
  string _ := fits_leaf rfl
  programCounter _ := fits_leaf rfl
  unary _ he := fits_of_steps (steps_costing (Nat.le_refl 1) (List.forall_mem_singleton.2 he))
  binary _ _ _ hl hr := fits_of_steps (List.forall_mem_append.2
    ⟨steps_left hl, steps_costing (Nat.le_refl 1) (List.forall_mem_singleton.2 hr)⟩)
  group _ he := fits_of_steps (@steps_entry tokens _ _ (.plain he))
  indexed _ _ hcomma he hr := fits_of_steps (steps_entry (.indexed hcomma he hr))
  call _ hf hargs := fits_of_steps (List.forall_mem_append.2
    ⟨steps_left hf, steps_costing (Nat.le_refl 1) hargs⟩)

/-! ## Statements -/

theorem elementCost_le (t : Token) : elementCost t ≤ 1 := by
  unfold elementCost
  split <;> omega

theorem steps_value {d : Directive} (h : ValueOf tokens (Fits room) d.token d.value) :
    ∀ s ∈ costing (valueCost d) [d.value], StepWithin room s := by
  obtain ⟨t, name, parameters, value⟩ := d
  have hle : valueCost ⟨t, name, parameters, value⟩ ≤ 1 := by
    unfold valueCost
    split <;> omega
  have hfree : DirectiveForm.ofWord (directiveWord t) ∈
      [DirectiveForm.encoding, .importFile, .data, .enumeration] →
      valueCost ⟨t, name, parameters, value⟩ = 0 := fun hform => if_pos hform
  dsimp only at h
  cases h with
  | missing => exact forall_costing.2 (List.forall_mem_singleton.2 fun y hy =>
      absurd hy List.not_mem_nil)
  | single he => exact steps_costing hle (List.forall_mem_singleton.2 he)
  | several hes hform =>
    rw [hfree (by rcases hform with hform | hform <;> simp [hform])]
    refine forall_costing.2 (List.forall_mem_singleton.2 fun y hy => ?_)
    rw [mem_toList hy]
    exact ⟨room, by simp, bounded_of_steps (steps_costing (elementCost_le t) hes)⟩
  | text _ hform =>
    rw [hfree (by simp [hform])]
    exact steps_leaves (List.forall_mem_singleton.2 rfl)
  | @file kind s hkind _ hform =>
    have hleaves : ∀ x ∈ kind ++ [stringLiteral s], exprSteps Expr.isBaseless x = [] := by
      refine List.forall_mem_append.2 ⟨fun x hx => ?_, List.forall_mem_singleton.2 rfl⟩
      obtain ⟨n, -, rfl⟩ := hkind x hx
      rfl
    have helements : elementCost t = 0 := if_pos hform
    rw [hfree (by simp [hform])]
    refine forall_costing.2 (List.forall_mem_singleton.2 fun y hy => ?_)
    rw [mem_toList hy]
    refine ⟨0, Nat.zero_le _, bounded_of_steps ?_⟩
    rw [steps, exprSteps, helements]
    exact steps_leaves hleaves

theorem steps_header {d : Directive} (h : d.Made tokens (Fits room)) :
    ∀ s ∈ headerSteps d, StepWithin room s := by
  refine List.forall_mem_append.2 ⟨steps_leaves fun x hx => ?_, steps_value h.value⟩
  rcases List.mem_append.1 hx with hx | hx <;> obtain ⟨t, -, rfl⟩ := List.mem_map.1 hx <;> rfl

theorem Braces.Fits.bounded {b : Braces} (h : b.Fits room) :
    (Node.statement (.block b.opening b.body b.closing)).Bounded room := by
  refine bounded_of_steps (List.forall_mem_map.2 fun s hs => ?_)
  obtain ⟨bound, hlt, hbound⟩ := h s hs
  exact ⟨bound, by dsimp only; omega, hbound⟩

theorem Statement.Made.bounded {s : Statement}
    (h : s.Made tokens (Asm6510.Fits room) (Braces.Fits room)) :
    (Node.statement s).Bounded room := by
  cases h with
  | label => exact bounded_of_steps fun s hs => absurd hs List.not_mem_nil
  | instruction _ he => exact bounded_of_steps (steps_entry he)
  | directive hd => exact bounded_of_steps (steps_header hd)
  | braced hd hb =>
    exact bounded_of_steps (List.forall_mem_append.2 ⟨steps_header hd,
      List.forall_mem_singleton.2 ⟨room, by simp, hb.bounded⟩⟩)
  | @members d opening closing hd =>
    have hempty : Braces.Fits room ⟨opening, [], closing⟩ := fun s hs => absurd hs List.not_mem_nil
    exact bounded_of_steps (List.forall_mem_append.2 ⟨steps_header hd,
      List.forall_mem_singleton.2 ⟨room, by simp, hempty.bounded⟩⟩)
  | block hb => exact hb.bounded
  | call ht hargs =>
    exact bounded_of_steps
      (steps_left ((forms_fits room).call ht.1 ((forms_fits room).name ht) hargs))

end Fits

/-! ## Programs -/

section Parse

variable {ref : Option Reference} {lexLimit limit : Int} {text : String} {parsed : Parsed}

end Parse

end Asm6510
