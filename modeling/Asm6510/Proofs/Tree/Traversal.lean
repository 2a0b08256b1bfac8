import Asm6510.Scope.Basic
import Asm6510.Tree.Node
import Mathlib

/-!
# Walks over trees

A walk takes the next node from those still to be visited, and puts the parts of the node before the
others. It visits what the recursion over the tree visits, in the same order.

* `Node.at?`: the node at an address, which is a list of indices of parts from the root on.
* `InOrder`: what is found at addresses, in their order. A node comes before its parts there, and a
  part with all that is in it before the next one.

Main statement: `walks_inOrder`, for syntax trees and for trees of scopes.
-/

namespace Asm6510

/-! ## Lists in the order of addresses -/

/-- What is found at addresses, with one entry for each, in lexicographic order. -/
def InOrder {α : Type} (find : List Nat → Option α) (found : List α) : Prop :=
  ∃ addresses : List (List Nat), addresses.Pairwise (· < ·) ∧
    (∀ a, a ∈ addresses ↔ (find a).isSome = true) ∧ addresses.map find = found.map some

section InOrder

variable {α τ : Type} {root : Option α} {find : τ → List Nat → Option α} {list : τ → List α}
  {part : τ} {parts : List τ}

/-- What is found at the root of a tree, and in its parts at the addresses behind their indices. -/
def branch (root : Option α) (find : τ → List Nat → Option α) (parts : List τ) :
    List Nat → Option α
  | [] => root
  | i :: rest => parts[i]?.bind fun part => find part rest

theorem ne_nil_of_branch {as : List (List Nat)}
    (h : ∀ a, a ∈ as ↔ (branch none find parts a).isSome = true) : ∀ a ∈ as, a ≠ [] := by
  rintro a ha rfl
  exact Bool.noConfusion ((h []).1 ha)

/-- The address with one more part before the others. -/
def behindPart : List Nat → List Nat
  | [] => []
  | i :: rest => (i + 1) :: rest

theorem behindPart_lt {a b : List Nat} (h : a < b) (ha : a ≠ []) :
    behindPart a < behindPart b := by
  cases a with
  | nil => exact absurd rfl ha
  | cons i a =>
    cases b with
    | nil => exact absurd h (List.not_lt_nil _)
    | cons j b =>
      simp only [behindPart, List.cons_lt_cons_iff] at h ⊢
      exact h.imp Nat.succ_lt_succ fun h => ⟨congrArg Nat.succ h.1, h.2⟩

/-- The addresses in a first part come before those in the others. -/
theorem InOrder.cons {others : List α} (hfirst : InOrder (find part) (list part))
    (hothers : InOrder (branch none find parts) others) :
    InOrder (branch none find (part :: parts)) (list part ++ others) := by
  obtain ⟨as, has, hmem, hfound⟩ := hfirst
  obtain ⟨bs, hbs, hmem', hfound'⟩ := hothers
  have hne := ne_nil_of_branch hmem'
  have hcons : ∀ b ∈ bs, ∃ i rest, b = i :: rest := fun b hb =>
    List.exists_cons_of_ne_nil (hne b hb)
  refine ⟨as.map (0 :: ·) ++ bs.map behindPart, ?_, fun a => ?_, ?_⟩
  · refine List.pairwise_append.2 ⟨?_, ?_, ?_⟩
    · exact List.pairwise_map.2 (has.imp fun h => List.cons_lt_cons_iff.2 (.inr ⟨rfl, h⟩))
    · exact List.pairwise_map.2 (hbs.imp_of_mem fun ha _ h => behindPart_lt h (hne _ ha))
    · intro x hx y hy
      obtain ⟨a, -, rfl⟩ := List.mem_map.1 hx
      obtain ⟨b, hb, rfl⟩ := List.mem_map.1 hy
      obtain ⟨i, rest, rfl⟩ := hcons b hb
      exact List.cons_lt_cons_iff.2 (.inl (Nat.succ_pos i))
  · -- an address in the first part starts with zero, and one in the others with a successor
    have hsplit : a ∈ as.map (0 :: ·) ++ bs.map behindPart ↔
        (∃ rest, a = 0 :: rest ∧ rest ∈ as) ∨ ∃ i rest, a = (i + 1) :: rest ∧ i :: rest ∈ bs := by
      rw [List.mem_append, List.mem_map, List.mem_map]
      refine or_congr ⟨?_, ?_⟩ ⟨?_, ?_⟩
      · exact fun ⟨rest, h, ha⟩ => ⟨rest, ha.symm, h⟩
      · exact fun ⟨rest, ha, h⟩ => ⟨rest, h, ha.symm⟩
      · rintro ⟨b, hb, rfl⟩
        obtain ⟨i, rest, rfl⟩ := hcons b hb
        exact ⟨i, rest, rfl, hb⟩
      · exact fun ⟨i, rest, ha, h⟩ => ⟨i :: rest, h, ha.symm⟩
    rw [hsplit]
    rcases a with _ | ⟨_ | i, rest⟩
    · simp [branch]
    · simp [branch, hmem]
    · have hlater : branch none find (part :: parts) ((i + 1) :: rest) =
          branch none find parts (i :: rest) := rfl
      rw [hlater, ← hmem']
      simp
  · have hshift : (bs.map behindPart).map (branch none find (part :: parts)) =
        bs.map (branch none find parts) := by
      rw [List.map_map]
      refine List.map_congr_left fun b hb => ?_
      obtain ⟨i, rest, rfl⟩ := hcons b hb
      rfl
    rw [List.map_append, List.map_append, hshift, hfound', List.map_map, ← hfound]
    rfl

/-- A root comes before its parts, and these come one after the other. -/
theorem inOrder_branch (h : ∀ part ∈ parts, InOrder (find part) (list part)) :
    InOrder (branch root find parts) (root.toList ++ parts.flatMap list) := by
  have hparts : InOrder (branch none find parts) (parts.flatMap list) := by
    induction parts with
    | nil =>
      refine ⟨[], List.Pairwise.nil, fun a => ?_, rfl⟩
      cases a <;> simp [branch]
    | cons part parts ih =>
      obtain ⟨hfirst, hothers⟩ := List.forall_mem_cons.1 h
      exact hfirst.cons (ih hothers)
  cases root with
  | none => exact hparts
  | some x =>
    obtain ⟨as, has, hmem, hfound⟩ := hparts
    have hne := ne_nil_of_branch hmem
    have hsame : ∀ a ≠ [], branch (some x) find parts a = branch none find parts a := by
      intro a ha
      obtain ⟨i, rest, rfl⟩ := List.exists_cons_of_ne_nil ha
      rfl
    refine ⟨[] :: as, List.pairwise_cons.2 ⟨fun a ha => ?_, has⟩, fun a => ?_, ?_⟩
    · obtain ⟨i, rest, rfl⟩ := List.exists_cons_of_ne_nil (hne a ha)
      exact List.nil_lt_cons i rest
    · by_cases ha : a = []
      · simp [ha, branch]
      · rw [List.mem_cons, hsame a ha, ← hmem a, or_iff_right ha]
    · rw [List.map_cons, List.map_congr_left fun a ha => hsame a (hne a ha), hfound]
      rfl

end InOrder

/-! ## Syntax trees -/

namespace Node

def at? : Node → List Nat → Option Node
  | n, [] => some n
  | n, i :: rest => n.children[i]?.bind fun part => part.at? rest

theorem preorder_eq (n : Node) : n.preorder = n :: n.children.flatMap preorder := by
  rw [preorder, List.flatMap_subtype (g := preorder) fun _ _ => rfl, List.unattach_attach]

/-- The walk visits the nodes in the order of the trees. -/
theorem walk_eq_flatMap (ns : List Node) : walk ns = ns.flatMap preorder := by
  fun_induction walk ns with
  | case1 => rfl
  | case2 n rest ih =>
    rw [ih, List.flatMap_append, List.flatMap_cons, preorder_eq, List.cons_append]

/-- What is picked from the nodes in preorder is found at their addresses. -/
theorem inOrder_preorder {α : Type} (pick : Node → Option α) (n : Node) :
    InOrder (fun a => (n.at? a).bind pick) (n.preorder.filterMap pick) := by
  induction n using preorder.induct with
  | case1 n ih =>
    have hfind : (fun a => (n.at? a).bind pick) =
        branch (pick n) (fun part a => (part.at? a).bind pick) n.children := by
      funext a
      cases a with
      | nil => rfl
      | cons i rest => exact Option.bind_assoc _ _ _
    have hpicked : n.preorder.filterMap pick =
        (pick n).toList ++ n.children.flatMap fun part => part.preorder.filterMap pick := by
      rw [preorder_eq, List.filterMap_cons, List.filterMap_flatMap]
      cases pick n <;> rfl
    rw [hfind, hpicked]
    exact inOrder_branch fun part hpart => ih ⟨part, hpart⟩

end Node

/-! ## Trees of scopes -/

namespace Scope

theorem preorders_append (xs ys : List Scope) :
    preorders (xs ++ ys) = preorders xs ++ preorders ys := by
  rw [preorders_eq, preorders_eq, preorders_eq, List.flatMap_append]

/-- The walk visits the scopes in the order of the trees. -/
theorem walk_eq_preorders (ss : List Scope) : walk ss = preorders ss := by
  fun_induction walk ss with
  | case1 => rw [preorders]
  | case2 s rest ih =>
    rw [ih, preorders_append, preorders, preorder_eq, List.cons_append]

mutual

theorem inOrder_preorder : (s : Scope) → InOrder s.at? s.preorder
  | ⟨name, range, uri, symbols, children⟩ => by
    let s : Scope := ⟨name, range, uri, symbols, children⟩
    have hfind : s.at? = branch (some s) at? children := by
      funext a
      cases a <;> rfl
    have hlist : s.preorder = (some s).toList ++ children.flatMap preorder := by
      rw [preorder_eq, preorders_eq]
      rfl
    show InOrder s.at? s.preorder
    rw [hfind, hlist]
    exact inOrder_branch (inOrder_children children)

theorem inOrder_children : (cs : List Scope) → ∀ c ∈ cs, InOrder c.at? c.preorder
  | [] => List.forall_mem_nil _
  | c :: cs => List.forall_mem_cons.2 ⟨inOrder_preorder c, inOrder_children cs⟩

end

end Scope

/-- **Walks equal recursion.** In every syntax tree the walk finds the expressions that the visit of
all nodes by recursion finds, in the same order: one for each address at which an expression stands,
in the order of the addresses. In every tree of scopes the walk gives the scopes that the recursion
gives, one for each address of a scope, in the order of the addresses. -/
theorem walks_inOrder :
    (∀ n : Node, n.expressions = n.preorder.filterMap Node.expr? ∧
      InOrder (fun a => (n.at? a).bind Node.expr?) n.expressions) ∧
    ∀ s : Scope, Scope.walk [s] = s.preorder ∧ InOrder s.at? (Scope.walk [s]) := by
  refine ⟨fun n => ?_, fun s => ?_⟩
  · have hwalk : n.expressions = n.preorder.filterMap Node.expr? := by
      rw [Node.expressions, Node.walk_eq_flatMap, List.flatMap_singleton]
    rw [hwalk]
    exact ⟨rfl, n.inOrder_preorder Node.expr?⟩
  · have hwalk : Scope.walk [s] = s.preorder := by
      rw [Scope.walk_eq_preorders, Scope.preorders_eq, List.flatMap_singleton]
    rw [hwalk]
    exact ⟨rfl, s.inOrder_preorder⟩

end Asm6510
