import Asm6510.Proofs.Scope.Ranges
import Asm6510.Scope.Lookup
import Mathlib

/-!
# The scope of a line

`Cursor.innermost` enters the first child that holds a line, and never goes back.

* `Scope.LinesApart`: no line belongs to two children of a scope.
* `Scope.HoldsAt`: the addresses of the scopes that hold a line; the root counts as one of them.
* `Scope.Deepest`: the address of the only scope that is deepest among these.
* `Scope.Reordered`: the same tree with the children of each scope in another order.

Main statement: `parse_innermost_deepest`. In the scopes of a program whose named blocks are closed,
a scope that holds a line lies in scopes that hold it, and where lines are apart at most one child
does; so the first child that holds a line is the only one to enter.
-/

namespace Asm6510

open Grammar

namespace Scope

/-- No line is in the ranges of two children. -/
def LinesApart (c : Scope) : Prop :=
  c.children.Pairwise fun x y =>
    ∀ line, ¬(x.range.containsLine line = true ∧ y.range.containsLine line = true)

/-- An address of a scope that holds a line. The root is there for all lines. -/
def HoldsAt (root : Scope) (line : Int) (path : List Nat) : Prop :=
  path = [] ∨ ∃ c, root.at? path = some c ∧ c.range.containsLine line = true

/-- The only address of a scope that holds a line and is as deep as any other one. -/
structure Deepest (root : Scope) (line : Int) (address : List Nat) : Prop where
  holds : root.HoldsAt line address
  deeper : ∀ path, root.HoldsAt line path → path ≠ address → path.length < address.length

/-- The same scopes, with the children of each in any order. -/
inductive Reordered : Scope → Scope → Prop
  | mk {name uri : String} {range : Range} {symbols : Table Symbol}
      {children changed others : List Scope} (hinner : List.Forall₂ Reordered children changed)
      (horder : changed.Perm others) :
      Reordered ⟨name, range, uri, symbols, children⟩ ⟨name, range, uri, symbols, others⟩

/-! ## One step of the descent -/

section Descent

variable {line : Int} {s c : Scope}

theorem innermostAmong_cases (line : Int) (k : Nat) (cs : List Scope) :
    (innermostAmong line k cs = [] ∧ cs.find? (·.range.containsLine line) = none) ∨
      ∃ i c, cs[i]? = some c ∧ cs.find? (·.range.containsLine line) = some c ∧
        innermostAmong line k cs = (k + i) :: c.innermostSteps line := by
  induction cs generalizing k with
  | nil => exact .inl ⟨by rw [innermostAmong], rfl⟩
  | cons c cs ih =>
    rw [innermostAmong, List.find?_cons]
    cases hc : c.range.containsLine line with
    | true => exact .inr ⟨0, c, rfl, rfl, rfl⟩
    | false =>
      rcases ih (k + 1) with hnone | ⟨i, d, hi, hfind, hsteps⟩
      · exact .inl hnone
      · refine .inr ⟨i + 1, d, hi, hfind, ?_⟩
        rw [if_neg Bool.false_ne_true, hsteps, Nat.add_assoc, Nat.add_comm 1]

/-- The descent stops where no child holds the line, and otherwise enters the first that does. -/
theorem innermostSteps_cases (line : Int) (s : Scope) :
    (s.innermostSteps line = [] ∧ s.children.find? (·.range.containsLine line) = none) ∨
      ∃ i c, s.children[i]? = some c ∧ s.children.find? (·.range.containsLine line) = some c ∧
        s.innermostSteps line = i :: c.innermostSteps line := by
  obtain ⟨name, range, uri, symbols, children⟩ := s
  rw [innermostSteps]
  have hcases := innermostAmong_cases line 0 children
  simp only [Nat.zero_add] at hcases
  exact hcases

theorem at?_cons {i : Nat} {path : List Nat} (hchild : s.children[i]? = some c) :
    s.at? (i :: path) = c.at? path := by
  rw [at?, hchild, Option.bind_some]

/-- The descent leads to a scope, which holds the line unless it is the one it starts from. -/
theorem exists_innermost (line : Int) (s : Scope) :
    ∃ d, s.at? (s.innermostSteps line) = some d ∧
      (s.innermostSteps line ≠ [] → d.range.containsLine line = true) := by
  generalize hsteps : s.innermostSteps line = steps
  induction steps generalizing s with
  | nil => exact ⟨s, rfl, fun hne => absurd rfl hne⟩
  | cons j rest ih =>
    rcases innermostSteps_cases line s with ⟨hnil, -⟩ | ⟨i, c, hchild, hfind, hcons⟩
    · rw [hnil] at hsteps
      cases hsteps
    · rw [hcons] at hsteps
      obtain ⟨rfl, hrest⟩ := List.cons.inj hsteps
      obtain ⟨d, hd, hholds⟩ := ih c hrest
      refine ⟨d, (at?_cons hchild).trans hd, fun _ => ?_⟩
      cases rest with
      | nil =>
        cases hd
        have hc := List.find?_some hfind
        exact hc
      | cons k rest => exact hholds (List.cons_ne_nil k rest)

end Descent

/-! ## The deepest scope -/

section Deepest

variable {line : Int} {s c d : Scope} {path : List Nat}

/-- At most one child holds a line. -/
theorem LinesApart.index_eq (h : s.LinesApart) {i j : Nat} (hc : s.children[i]? = some c)
    (hd : s.children[j]? = some d) (hcline : c.range.containsLine line = true)
    (hdline : d.range.containsLine line = true) : i = j := by
  obtain ⟨hi, rfl⟩ := List.getElem?_eq_some_iff.1 hc
  obtain ⟨hj, rfl⟩ := List.getElem?_eq_some_iff.1 hd
  have hpairs := List.pairwise_iff_getElem.1 h
  rcases Nat.lt_trichotomy i j with hlt | heq | hgt
  · exact absurd ⟨hcline, hdline⟩ (hpairs i j hi hj hlt line)
  · exact heq
  · exact absurd ⟨hdline, hcline⟩ (hpairs j i hj hi hgt line)

theorem LinesApart.eq_of_holds (h : s.LinesApart) (hc : c ∈ s.children) (hd : d ∈ s.children)
    (hcline : c.range.containsLine line = true) (hdline : d.range.containsLine line = true) :
    c = d := by
  obtain ⟨i, hi⟩ := List.mem_iff_getElem?.1 hc
  obtain ⟨j, hj⟩ := List.mem_iff_getElem?.1 hd
  rw [h.index_eq hi hj hcline hdline, hj] at hi
  exact (Option.some.inj hi).symm

theorem containsLine_of_within {r outer : Range} (h : r.Within outer)
    (hline : r.containsLine line = true) : outer.containsLine line = true := by
  simp only [Range.containsLine, Bool.and_eq_true, decide_eq_true_eq] at hline ⊢
  have hstart := Position.line_le h.1
  have hstop := Position.line_le h.2
  omega

/-- The scopes below a scope hold their children. -/
def Contains (s : Scope) : Prop :=
  ∀ path c, path ≠ [] → s.at? path = some c → ∀ child ∈ c.children, child.range.Within c.range

theorem Contains.child (h : s.Contains) {i : Nat} (hchild : s.children[i]? = some c) :
    c.Contains ∧ ∀ child ∈ c.children, child.range.Within c.range := by
  refine ⟨fun path d _ hd => ?_, ?_⟩
  · exact h (i :: path) d (List.cons_ne_nil i path) ((at?_cons hchild).trans hd)
  · exact h [i] c (List.cons_ne_nil i []) (at?_cons hchild)

/-- A scope that holds its children, as do those below it, holds all their lines. -/
theorem Contains.containsLine (h : s.Contains)
    (hwithin : ∀ child ∈ s.children, child.range.Within s.range) (hd : s.at? path = some d)
    (hline : d.range.containsLine line = true) : s.range.containsLine line = true := by
  induction path generalizing s with
  | nil =>
    cases hd
    exact hline
  | cons i path ih =>
    rw [at?, Option.bind_eq_some_iff] at hd
    obtain ⟨child, hchild, hd⟩ := hd
    obtain ⟨hcontains, hchildren⟩ := h.child hchild
    exact containsLine_of_within (hwithin child (List.mem_of_getElem? hchild))
      (ih hcontains hchildren hd)

/-- The descent passes every scope that holds the line. -/
theorem prefix_innermostSteps (h : s.Contains)
    (hlines : ∀ path c, s.at? path = some c → c.LinesApart) (hd : s.at? path = some d)
    (hline : d.range.containsLine line = true) : path <+: s.innermostSteps line := by
  induction path generalizing s with
  | nil => exact List.nil_prefix
  | cons i path ih =>
    rw [at?, Option.bind_eq_some_iff] at hd
    obtain ⟨child, hchild, hd⟩ := hd
    obtain ⟨hcontains, hchildren⟩ := h.child hchild
    have hholds : child.range.containsLine line = true :=
      hcontains.containsLine hchildren hd hline
    rcases innermostSteps_cases line s with ⟨-, hnone⟩ | ⟨j, c, hc, hfind, hsteps⟩
    · -- a child that holds the line would have been entered
      have hnot := List.find?_eq_none.1 hnone child (List.mem_of_getElem? hchild)
      exact absurd hholds hnot
    · have hfirst : c.range.containsLine line = true := by
        have hc := List.find?_some hfind
        exact hc
      obtain rfl : i = j := (hlines [] s rfl).index_eq hchild hc hholds hfirst
      obtain rfl : child = c := Option.some.inj (hchild.symm.trans hc)
      rw [hsteps, List.cons_prefix_cons]
      exact ⟨rfl, ih hcontains (fun path c hc => hlines (i :: path) c ((at?_cons hchild).trans hc))
        hd⟩

/-- **The descent finds the deepest scope of a line.** -/
theorem deepest_innermostSteps (h : s.Contains)
    (hlines : ∀ path c, s.at? path = some c → c.LinesApart) (line : Int) :
    s.Deepest line (s.innermostSteps line) := by
  obtain ⟨d, hd, hholds⟩ := s.exists_innermost line
  refine ⟨?_, ?_⟩
  · by_cases hnil : s.innermostSteps line = []
    · exact .inl hnil
    · exact .inr ⟨d, hd, hholds hnil⟩
  · rintro path (rfl | ⟨c, hc, hline⟩) hne
    · exact List.length_pos_iff.2 (Ne.symm hne)
    · have hstart := prefix_innermostSteps h hlines hc hline
      exact lt_of_le_of_ne hstart.length_le fun hlength => hne (hstart.eq_of_length hlength)

end Deepest

/-! ## Other orders of the children -/

section Reordered

variable {line : Int} {s t : Scope}

theorem Reordered.range_eq (h : s.Reordered t) : t.range = s.range := by
  cases h
  rfl

theorem Reordered.exists_child {c : Scope} (h : s.Reordered t) (hc : c ∈ s.children) :
    ∃ d ∈ t.children, c.Reordered d := by
  cases h with
  | @mk _ _ _ _ children changed others hinner horder =>
    obtain ⟨⟨i, hi⟩, rfl⟩ := List.get_of_mem hc
    have hi' : i < changed.length := hinner.length_eq ▸ hi
    exact ⟨_, horder.subset (List.get_mem changed ⟨i, hi'⟩), hinner.get hi hi'⟩

theorem Reordered.exists_original {d : Scope} (h : s.Reordered t) (hd : d ∈ t.children) :
    ∃ c ∈ s.children, c.Reordered d := by
  cases h with
  | @mk _ _ _ _ children changed others hinner horder =>
    obtain ⟨⟨i, hi⟩, rfl⟩ := List.get_of_mem (horder.symm.subset hd)
    have hi' : i < children.length := hinner.length_eq.symm ▸ hi
    exact ⟨_, List.get_mem children ⟨i, hi'⟩, hinner.get hi' hi⟩

/-- The children that hold a line correspond to each other. -/
theorem Reordered.find?_cases (h : s.Reordered t) (hlines : s.LinesApart) (line : Int) :
    (s.children.find? (·.range.containsLine line) = none ∧
        t.children.find? (·.range.containsLine line) = none) ∨
      ∃ c d : Scope, s.children.find? (·.range.containsLine line) = some c ∧
        t.children.find? (·.range.containsLine line) = some d ∧ c.Reordered d := by
  have hmatch : ∀ c d : Scope, c.Reordered d →
      d.range.containsLine line = c.range.containsLine line := by
    intro c d hcd
    rw [hcd.range_eq]
  cases hc : s.children.find? (·.range.containsLine line) with
  | none =>
    rw [List.find?_eq_none] at hc
    refine .inl ⟨rfl, List.find?_eq_none.2 fun d hd hline => ?_⟩
    obtain ⟨c, hmem, hcd⟩ := h.exists_original hd
    exact hc c hmem ((hmatch c d hcd).symm.trans hline)
  | some c =>
    have hcline : c.range.containsLine line = true := by simpa using List.find?_some hc
    have hcmem := List.mem_of_find?_eq_some hc
    cases hd : t.children.find? (·.range.containsLine line) with
    | none =>
      rw [List.find?_eq_none] at hd
      obtain ⟨d, hdmem, hcd⟩ := h.exists_child hcmem
      exact absurd ((hmatch c d hcd).trans hcline) (hd d hdmem)
    | some d =>
      have hdline : d.range.containsLine line = true := by simpa using List.find?_some hd
      obtain ⟨c', hmem, hcd⟩ := h.exists_original (List.mem_of_find?_eq_some hd)
      have hcline' := (hmatch c' d hcd).symm.trans hdline
      obtain rfl := hlines.eq_of_holds hcmem hmem hcline hcline'
      exact .inr ⟨c, d, rfl, rfl, hcd⟩

/-- In another order of the children, the descent finds the same scope. -/
theorem Reordered.innermost (h : s.Reordered t)
    (hlines : ∀ path c, s.at? path = some c → c.LinesApart) (line : Int) :
    ∃ c d : Scope, s.at? (s.innermostSteps line) = some c ∧
      t.at? (t.innermostSteps line) = some d ∧ c.Reordered d := by
  generalize hsteps : s.innermostSteps line = steps
  induction steps generalizing s t with
  | nil =>
    have hnone : t.innermostSteps line = [] := by
      rcases h.find?_cases (hlines [] s rfl) line with ⟨-, hnone⟩ | ⟨c, d, hc, -, -⟩
      · rcases innermostSteps_cases line t with ⟨hnil, -⟩ | ⟨i, d, -, hsome, -⟩
        · exact hnil
        · rw [hnone] at hsome
          cases hsome
      · rcases innermostSteps_cases line s with ⟨-, hnone⟩ | ⟨i, c, -, -, hcons⟩
        · rw [hnone] at hc
          cases hc
        · rw [hcons] at hsteps
          cases hsteps
    exact ⟨s, t, rfl, by rw [hnone, at?], h⟩
  | cons j rest ih =>
    rcases innermostSteps_cases line s with ⟨hnil, -⟩ | ⟨i, c, hchild, hfind, hcons⟩
    · rw [hnil] at hsteps
      cases hsteps
    rw [hcons] at hsteps
    obtain ⟨rfl, hrest⟩ := List.cons.inj hsteps
    rcases h.find?_cases (hlines [] s rfl) line with ⟨hnone, -⟩ | ⟨c', d, hc, hd, hcd⟩
    · rw [hfind] at hnone
      cases hnone
    obtain rfl : c = c' := Option.some.inj (hfind.symm.trans hc)
    rcases innermostSteps_cases line t with ⟨-, hnone⟩ | ⟨k, d', hchild', hfind', hcons'⟩
    · rw [hd] at hnone
      cases hnone
    obtain rfl : d = d' := Option.some.inj (hd.symm.trans hfind')
    obtain ⟨x, y, hx, hy, hxy⟩ :=
      ih hcd (fun path e he => hlines (i :: path) e ((at?_cons hchild).trans he)) hrest
    refine ⟨x, y, (at?_cons hchild).trans hx, ?_, hxy⟩
    rw [hcons', at?_cons hchild', hy]

end Reordered

end Scope

/-! ## The scopes of a program -/

namespace Cursor

theorem follow_of_at? {c : Cursor} {address : List Nat} {d : Scope}
    (h : c.scope.at? address = some d) :
    (c.follow address).scope = d ∧ (c.follow address).steps = address.reverse ++ c.steps := by
  induction address generalizing c with
  | nil =>
    cases h
    exact ⟨rfl, rfl⟩
  | cons i address ih =>
    rw [Scope.at?, Option.bind_eq_some_iff] at h
    obtain ⟨child, hchild, hd⟩ := h
    have henter : c.enter i = ⟨child, c.chain, i :: c.steps⟩ := by
      rw [enter, hchild]
    have hfollow : c.follow (i :: address) = follow ⟨child, c.chain, i :: c.steps⟩ address := by
      rw [follow, List.foldl_cons, henter, follow]
    obtain ⟨hscope, hsteps⟩ := ih (c := ⟨child, c.chain, i :: c.steps⟩) hd
    rw [hfollow, List.reverse_cons, List.append_assoc, List.singleton_append]
    exact ⟨hscope, hsteps⟩

theorem innermost_ofRoot {s d : Scope} {line : Int}
    (h : s.at? (s.innermostSteps line) = some d) :
    ((ofRoot s).innermost line).scope = d ∧
      ((ofRoot s).innermost line).steps.reverse = s.innermostSteps line := by
  obtain ⟨hscope, hsteps⟩ := follow_of_at? (c := ofRoot s) h
  have hfound : ((ofRoot s).innermost line).steps = (s.innermostSteps line).reverse ++ [] := hsteps
  exact ⟨hscope, by rw [hfound, List.append_nil, List.reverse_reverse]⟩

end Cursor

section Parse

variable {ref : Option Reference} {lexLimit limit : Int} {text : String} {parsed : Parsed}

open Scope

theorem parse_contains (h : parse ref lexLimit limit text = .ok parsed) (uri : String) (lines : Int)
    (hclosed : ∀ path c, path ≠ [] →
      (Scope.ofProgram uri lines parsed.program).1.at? path = some c →
      ¬c.LeftOpen (Statement.namedBlocks parsed.program.statements)) :
    (Scope.ofProgram uri lines parsed.program).1.Contains := by
  intro path c hpath hc
  obtain ⟨-, hnested⟩ := parse_nested h uri lines
  obtain ⟨⟨b, hb, hfits⟩, -⟩ := below_of_nested hnested hpath hc
  exact hfits.children_within fun hopen => hclosed path c hpath hc ⟨b, hb, hfits, hopen⟩

/-- **A line leads to the deepest scope that holds it.** In the scopes of a program in which every
named block is closed and no line belongs to two children of one scope, the scope that is found for
a line is the only one that is deepest among those of the whole tree that hold the line, or the root
if no other one does. In another order of the children the same scope is found. -/
theorem parse_innermost_deepest (h : parse ref lexLimit limit text = .ok parsed) (uri : String)
    (lines : Int)
    (hclosed : ∀ path c, path ≠ [] →
      (Scope.ofProgram uri lines parsed.program).1.at? path = some c →
      ¬c.LeftOpen (Statement.namedBlocks parsed.program.statements))
    (hlines : ∀ path c, (Scope.ofProgram uri lines parsed.program).1.at? path = some c →
      c.LinesApart) (line : Int) :
    let root := (Scope.ofProgram uri lines parsed.program).1
    let found := (Cursor.ofRoot root).innermost line
    root.at? found.steps.reverse = some found.scope ∧ root.Deepest line found.steps.reverse ∧
      ∀ other, root.Reordered other →
        found.scope.Reordered ((Cursor.ofRoot other).innermost line).scope := by
  intro root found
  obtain ⟨d, hd, -⟩ := root.exists_innermost line
  obtain ⟨hscope, hsteps⟩ := Cursor.innermost_ofRoot hd
  refine ⟨?_, ?_, fun other hother => ?_⟩
  · rw [hsteps, hscope]
    exact hd
  · rw [hsteps]
    exact deepest_innermostSteps (parse_contains h uri lines hclosed) hlines line
  · obtain ⟨x, y, hx, hy, hxy⟩ := hother.innermost hlines line
    rw [(Cursor.innermost_ofRoot hx).1, (Cursor.innermost_ofRoot hy).1]
    exact hxy

end Parse

theorem Scope.mem_preorder_of_at? {s c : Scope} {path : List Nat} (h : s.at? path = some c) :
    c ∈ s.preorder := by
  induction path generalizing s with
  | nil =>
    cases h
    rw [preorder_eq]
    exact List.mem_cons_self
  | cons i path ih =>
    rw [at?, Option.bind_eq_some_iff] at h
    obtain ⟨child, hchild, hc⟩ := h
    rw [preorder_eq, preorders_eq]
    exact List.mem_cons_of_mem _
      (List.mem_flatMap_of_mem (List.mem_of_getElem? hchild) (ih hc))

/-- A macro in a namespace, and another namespace behind it, all on lines of their own. -/
def layeredText : String :=
  ".namespace a\x7b\n.macro m()\x7b\n\x7d\n\x7d\n.namespace b\x7b\n\x7d"

/-- The lines of the macro, of the namespace behind it, of the other namespace, and of none. -/
theorem parse_innermost_deepest_layered :
    ∃ parsed, parse none 128 128 layeredText = .ok parsed ∧
      (∀ path c, path ≠ [] → (Scope.ofProgram "" 6 parsed.program).1.at? path = some c →
        ¬c.LeftOpen (Statement.namedBlocks parsed.program.statements)) ∧
      (∀ path c, (Scope.ofProgram "" 6 parsed.program).1.at? path = some c → c.LinesApart) ∧
      ([2, 3, 4, 9] : List Int).map (fun line => ((Cursor.ofRoot
        (Scope.ofProgram "" 6 parsed.program).1).innermost line).steps.reverse) =
          [[0, 0], [0], [1], []] ∧
      (Scope.ofProgram "" 6 parsed.program).1.Deepest 2 ((Cursor.ofRoot
        (Scope.ofProgram "" 6 parsed.program).1).innermost 2).steps.reverse := by
  obtain ⟨parsed, hparsed, hblocks, happart, hfound⟩ : ∃ parsed,
      parse none 128 128 layeredText = .ok parsed ∧
      (∀ b ∈ Statement.namedBlocks parsed.program.statements, b.2.kind ≠ .endOfText) ∧
      (∀ c ∈ (Scope.ofProgram "" 6 parsed.program).1.preorder,
        c.children.Pairwise fun x y => x.range.stop.line < y.range.start.line) ∧
      ([2, 3, 4, 9] : List Int).map (fun line => ((Cursor.ofRoot
        (Scope.ofProgram "" 6 parsed.program).1).innermost line).steps.reverse) =
          [[0, 0], [0], [1], []] :=
    exists_parsed_of_session 15 (by cbv) (by decide) (by decide +kernel)
  have hclosed : ∀ path c, path ≠ [] →
      (Scope.ofProgram "" 6 parsed.program).1.at? path = some c →
      ¬c.LeftOpen (Statement.namedBlocks parsed.program.statements) := by
    rintro path c - - ⟨b, hb, -, hopen⟩
    exact hblocks b hb hopen
  have hlines : ∀ path c, (Scope.ofProgram "" 6 parsed.program).1.at? path = some c →
      c.LinesApart := by
    intro path c hc
    refine (happart c (Scope.mem_preorder_of_at? hc)).imp ?_
    rintro x y hlt line ⟨hx, hy⟩
    simp only [Range.containsLine, Bool.and_eq_true, decide_eq_true_eq] at hx hy
    omega
  exact ⟨parsed, hparsed, hclosed, hlines, hfound,
    (parse_innermost_deepest hparsed "" 6 hclosed hlines 2).2.1⟩

end Asm6510
