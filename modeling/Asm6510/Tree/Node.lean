import Asm6510.Tree.Statement

/-!
# Nodes of the syntax tree

* `Node`: a program, a statement or an expression.
* `Node.children`: the parts of a node in source order.
* `Node.preorder`: a node, then its parts one after the other.
* `Node.walk`: the same by a list of nodes still to be visited.
* `Node.expressions`: the expressions of a subtree in the order of the walk.
-/

namespace Asm6510

/-- A node of the syntax tree. -/
inductive Node
  | program (p : Program)
  | statement (s : Statement)
  | expr (e : Expr)
deriving Repr

namespace Node

/-- Expressions as nodes, those that are there. -/
def ofExprs (es : List Expr) : List Node :=
  (es.flatMap Expr.toList).map expr

/-- The header of a directive as nodes. -/
def ofHeader (d : Directive) : List Node :=
  ofExprs (d.name.toList.map Expr.ofName ++ d.parameters.map Expr.ofName ++ [d.value])

/-- The parts of an expression that are there. -/
def exprChildren : Expr → List Expr
  | .unary _ e => e.toList
  | .binary _ l r => l.toList ++ r.toList
  | .indexed _ e register => e.toList ++ [.identifier register (Expr.registerName register)]
  | .group _ e => e.toList
  | .call _ f args => f.toList ++ args.flatMap Expr.toList
  | .array _ es => es.flatMap Expr.toList
  | _ => []

/-- The parts of a node in source order. -/
def children : Node → List Node
  | program p => p.statements.map statement
  | statement (.label _) => []
  | statement (.instruction _ operand) => ofExprs [operand]
  | statement (.directive d) => ofHeader d
  | statement (.directiveBlock d opening body closing) =>
    ofHeader d ++ [statement (.block opening body closing)]
  | statement (.block _ body _) => body.map statement
  | statement (.expression _ e) => ofExprs [e]
  | expr e => (exprChildren e).map expr

mutual

/-- The size of an expression. -/
def exprWeight : Expr → Nat
  | .missing => 1
  | .identifier _ _ => 1
  | .integer _ _ => 1
  | .string _ _ => 1
  | .unary _ e => exprWeight e + 1
  | .binary _ l r => exprWeight l + exprWeight r + 1
  | .indexed _ e _ => exprWeight e + 2
  | .group _ e => exprWeight e + 1
  | .call _ f args => exprWeight f + exprsWeight args + 1
  | .array _ es => exprsWeight es + 1
  | .programCounter _ => 1

/-- The size of several expressions. -/
def exprsWeight : List Expr → Nat
  | [] => 0
  | e :: es => exprWeight e + exprsWeight es

end

/-- The size of the header of a directive. -/
def headerWeight (d : Directive) : Nat :=
  d.name.toList.length + d.parameters.length + exprWeight d.value

mutual

/-- The size of a statement. -/
def statementWeight : Statement → Nat
  | .label _ => 1
  | .instruction _ operand => exprWeight operand + 1
  | .directive d => headerWeight d + 1
  | .directiveBlock d _ body _ => headerWeight d + (statementsWeight body + 1) + 1
  | .block _ body _ => statementsWeight body + 1
  | .expression _ e => exprWeight e + 1

/-- The size of several statements. -/
def statementsWeight : List Statement → Nat
  | [] => 0
  | s :: rest => statementWeight s + statementsWeight rest

end

/-- The size of a subtree. -/
def weight : Node → Nat
  | program p => statementsWeight p.statements + 1
  | statement s => statementWeight s
  | expr e => exprWeight e

/-- The size of several subtrees. -/
def weights : List Node → Nat
  | [] => 0
  | n :: ns => weight n + weights ns

@[simp] theorem weights_nil : weights [] = 0 := rfl

@[simp] theorem weights_cons (n : Node) (ns : List Node) :
    weights (n :: ns) = n.weight + weights ns := rfl

@[simp] theorem weights_append (ms ns : List Node) :
    weights (ms ++ ns) = weights ms + weights ns := by
  induction ms with
  | nil => simp
  | cons m ms ih => simp [ih, Nat.add_assoc]

theorem weights_map_expr (es : List Expr) : weights (es.map expr) = exprsWeight es := by
  induction es with
  | nil => rfl
  | cons e es ih => simp [exprsWeight, weight, ih]

theorem weights_map_statement (ss : List Statement) :
    weights (ss.map statement) = statementsWeight ss := by
  induction ss with
  | nil => rfl
  | cons s ss ih => simp [statementsWeight, weight, ih]

@[simp] theorem exprsWeight_append (es fs : List Expr) :
    exprsWeight (es ++ fs) = exprsWeight es + exprsWeight fs := by
  induction es with
  | nil => simp [exprsWeight]
  | cons e es ih => simp [exprsWeight, ih, Nat.add_assoc]

theorem exprsWeight_toList_le (e : Expr) : exprsWeight e.toList ≤ exprWeight e := by
  cases e <;> simp [Expr.toList, Expr.isMissing, exprsWeight, exprWeight]

theorem exprsWeight_flatMap_toList_le (es : List Expr) :
    exprsWeight (es.flatMap Expr.toList) ≤ exprsWeight es := by
  induction es with
  | nil => simp
  | cons e es ih =>
    have := exprsWeight_toList_le e
    simp only [List.flatMap_cons, exprsWeight_append, exprsWeight]
    omega

theorem weights_ofExprs_le (es : List Expr) : weights (ofExprs es) ≤ exprsWeight es := by
  rw [ofExprs, weights_map_expr]
  exact exprsWeight_flatMap_toList_le es

theorem exprsWeight_map_ofName (ts : List Token) : exprsWeight (ts.map Expr.ofName) = ts.length := by
  induction ts with
  | nil => rfl
  | cons t ts ih => simp [exprsWeight, Expr.ofName, exprWeight, ih, Nat.add_comm]

theorem weights_ofHeader_le (d : Directive) : weights (ofHeader d) ≤ headerWeight d := by
  refine Nat.le_trans (weights_ofExprs_le _) ?_
  simp [exprsWeight_map_ofName, headerWeight, exprsWeight]
  omega

theorem exprsWeight_exprChildren_lt (e : Expr) : exprsWeight (exprChildren e) < exprWeight e := by
  cases e with
  | unary _ e => have := exprsWeight_toList_le e; simp [exprChildren, exprWeight]; omega
  | binary _ l r =>
    have := exprsWeight_toList_le l
    have := exprsWeight_toList_le r
    simp [exprChildren, exprWeight]; omega
  | indexed _ e _ =>
    have := exprsWeight_toList_le e
    simp [exprChildren, exprWeight, exprsWeight]; omega
  | group _ e => have := exprsWeight_toList_le e; simp [exprChildren, exprWeight]; omega
  | call _ f args =>
    have := exprsWeight_toList_le f
    have := exprsWeight_flatMap_toList_le args
    simp [exprChildren, exprWeight]; omega
  | array _ es =>
    have := exprsWeight_flatMap_toList_le es
    simp [exprChildren, exprWeight]; omega
  | _ => simp [exprChildren, exprWeight, exprsWeight]

/-- The parts of a node are smaller than the node, taken together. -/
theorem weights_children_lt (n : Node) : weights n.children < n.weight := by
  match n with
  | program p => simp [children, weights_map_statement, weight]
  | statement (.label _) => simp [children, weight, statementWeight]
  | statement (.instruction _ e) =>
    have := weights_ofExprs_le [e]
    simp [children, exprsWeight, weight, statementWeight] at this ⊢; omega
  | statement (.directive d) =>
    have := weights_ofHeader_le d
    simp [children, weight, statementWeight]; omega
  | statement (.directiveBlock d _ _ _) =>
    have := weights_ofHeader_le d
    simp [children, weight, statementWeight]; omega
  | statement (.block _ _ _) => simp [children, weights_map_statement, weight, statementWeight]
  | statement (.expression _ e) =>
    have := weights_ofExprs_le [e]
    simp [children, exprsWeight, weight, statementWeight] at this ⊢; omega
  | expr e =>
    simp only [children, weights_map_expr, weight]
    exact exprsWeight_exprChildren_lt e

theorem weight_le_weights {n : Node} {ns : List Node} (h : n ∈ ns) : n.weight ≤ weights ns := by
  induction ns with
  | nil => simp at h
  | cons m ns ih =>
    rcases List.mem_cons.1 h with rfl | h
    · simp
    · have := ih h; simp; omega

/-- A node followed by its parts, one subtree after the other. -/
def preorder (n : Node) : List Node :=
  n :: n.children.attach.flatMap fun c => preorder c.1
termination_by n.weight
decreasing_by exact Nat.lt_of_le_of_lt (weight_le_weights c.2) (weights_children_lt n)

/-- Visits the nodes of a list; the parts of a node come before the nodes behind it. -/
def walk : List Node → List Node
  | [] => []
  | n :: rest => n :: walk (n.children ++ rest)
termination_by ns => weights ns
decreasing_by
  have := weights_children_lt n
  simp; omega

/-- The expression that a node is. -/
def expr? : Node → Option Expr
  | expr e => some e
  | _ => none

/-- The expressions of a subtree in the order of the walk. -/
def expressions (n : Node) : List Expr :=
  (walk [n]).filterMap expr?

/-- The name of the kind of an expression. -/
def exprKindName : Expr → String
  | .missing => ""
  | .identifier _ _ => "IDENTIFIER"
  | .integer _ _ => "INTEGER_LITERAL"
  | .string _ _ => "STRING_LITERAL"
  | .unary _ _ => "PREFIX_EXPRESSION"
  | .binary _ _ _ => "INFIX_EXPRESSION"
  | .indexed _ _ _ => "INFIX_EXPRESSION"
  | .group _ _ => "GROUPED_EXPRESSION"
  | .call _ _ _ => "CALL_EXPRESSION"
  | .array _ _ => "ARRAY_EXPRESSION"
  | .programCounter _ => "PROGRAM_COUNTER_EXPRESSION"

/-- The name of the kind of a node. -/
def kindName : Node → String
  | program _ => "PROGRAM"
  | statement (.label _) => "LABEL_STATEMENT"
  | statement (.instruction _ _) => "INSTRUCTION_STATEMENT"
  | statement (.directive _) => "DIRECTIVE_STATEMENT"
  | statement (.directiveBlock _ _ _ _) => "DIRECTIVE_STATEMENT"
  | statement (.block _ _ _) => "BLOCK_STATEMENT"
  | statement (.expression _ _) => "EXPRESSION_STATEMENT"
  | expr e => exprKindName e

end Node

end Asm6510
