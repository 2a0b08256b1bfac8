import Asm6510.Proofs.Grammar.Stream
import Asm6510.Proofs.Token.Composition
import Asm6510.Proofs.Token.Shape
import Mathlib

/-!
# Refused pushes

A context that finds no room on the stack is only counted, so what follows is read in the context
below it. Its end takes the count back if it is an end in that context as well.

* `Nesting.beyond`, `Nesting.inside`: the contexts of a stack that find no room under a bound, and
  the other ones.
* `Nesting.Alike`: those beyond the bound are ended by what ends the last one inside: parentheses
  within parentheses, or blocks within a block or outside of all contexts.
* `Nesting.Cut`: a stack with the bound has the contexts inside, and counts those beyond.
* `Lexer.readings`: readings one after the other, each with the stack before it.

Main statement: `tokenize_refusals_matched`, a text whose contexts beyond the bound are alike is
read as without the bound, and so all refused pushes are taken back. Parentheses right after a
directive are not alike: `tokenize_refusal_open`.
-/

namespace Asm6510

open Grammar

namespace Nesting

/-! ## A stack under a bound -/

/-- The contexts that find no room under a bound. -/
def beyond (n : Nesting) (bound : Nat) : List Frame :=
  n.frames.take (n.depth - bound)

/-- The stack as far as it finds room under a bound. -/
def inside (n : Nesting) (bound : Nat) : Nesting :=
  { n with frames := n.frames.drop (n.depth - bound) }

/-- Before a token of a kind, the contexts beyond the bound are like the last one inside. A closing
brace is the end of a block only. -/
def Alike (n : Nesting) (bound : Nat) (kind : TokenKind) : Prop :=
  n.depth ≤ bound ∨
    (n.inside bound).top.mode = .expression ∧ (∀ f ∈ n.beyond bound, f.mode = .expression) ∧
      kind ≠ .rightBrace ∨
    ((n.inside bound).top.mode = .normal ∨ (n.inside bound).top.mode = .block) ∧
      ∀ f ∈ n.beyond bound, f.mode = .block

instance (n : Nesting) (bound : Nat) (kind : TokenKind) : Decidable (n.Alike bound kind) :=
  inferInstanceAs (Decidable (_ ∨ _ ∨ _))

/-- The stack `m` has the contexts of `n` that find room under the bound, and counts the others. -/
structure Cut (bound : Nat) (n m : Nesting) : Prop where
  limit : m.limit = bound
  frames : m.frames = (n.inside bound).frames
  refused : m.refused = n.depth - bound
  whole : n.refused = 0
  bound_pos : 1 ≤ bound

/-- A change that enters or leaves a context, whatever the top is. -/
def Edit.isMove : Edit → Bool
  | .push _ _ => true
  | .pop => true
  | .endLine => false
  | .closeBlock => false

variable {n m : Nesting} {bound : Nat} {place place' : Place} {kind : TokenKind}

theorem overflow_of_apply {edits : List Edit} (h : (n.apply place edits).overflow = none) :
    n.overflow = none := by
  have hfits : n.Fits ⟨0, (n.apply place edits).limit + 1, none⟩ :=
    fits_of_apply (.inr ⟨Nat.le_succ _, h⟩)
  rcases hfits with hlimit | hfits
  · rw [apply_limit] at hlimit
    exact absurd hlimit (Nat.ne_of_lt (Nat.lt_succ_self _))
  · exact hfits.2

theorem isFull_of_push {mode : Mode} {directive : String}
    (h : (n.push place mode directive).overflow = none) : n.isFull = false := by
  unfold push at h
  split at h
  · cases h
  · next hfull => exact Bool.eq_false_iff.2 hfull

theorem Cut.push (h : Cut bound n m) (hroom : n.isFull = false) (place place' : Place)
    (mode : Mode) (directive : String) :
    Cut bound (n.push place mode directive) (m.push place' mode directive) := by
  have hpush : n.push place mode directive = { n with frames := ⟨mode, directive⟩ :: n.frames } :=
    if_neg (by simp [hroom])
  have hm : m.depth = n.frames.length - (n.frames.length + 1 - bound) + 1 := by
    rw [depth, h.frames, inside, List.length_drop, depth]
  rw [hpush, Nesting.push]
  by_cases hlt : n.frames.length + 1 < bound
  · have hfull : ¬m.isFull = true := by
      rw [isFull, decide_eq_true_iff, h.limit, hm]
      omega
    have hin : n.depth - bound = 0 := by
      rw [depth]
      omega
    rw [if_neg hfull]
    refine ⟨h.limit, ?_, ?_, h.whole, h.bound_pos⟩
    · have hout : (n.frames.length + 1 + 1) - bound = 0 := by omega
      show ⟨mode, directive⟩ :: m.frames = _
      rw [h.frames, inside, hin, inside, depth, List.length_cons, hout]
      rfl
    · rw [h.refused, hin, depth, List.length_cons]
      omega
  · have hfull : m.isFull = true := by
      rw [isFull, decide_eq_true_iff, h.limit, hm]
      omega
    have hout : n.frames.length + 1 + 1 - bound = (n.frames.length + 1 - bound) + 1 := by omega
    rw [if_pos hfull]
    refine ⟨h.limit, ?_, ?_, h.whole, h.bound_pos⟩
    · rw [h.frames, inside, inside, depth, depth, List.length_cons, hout]
      rfl
    · rw [h.refused, depth, depth, List.length_cons, hout]

theorem Cut.pop (h : Cut bound n m) : Cut bound n.pop m.pop := by
  have hpop : n.pop = { n with frames := n.frames.tail } := if_pos h.whole
  have hbound := h.bound_pos
  have hrefused : m.refused = n.frames.length + 1 - bound := h.refused
  rw [hpop, Nesting.pop]
  split
  · next hzero =>
    have hin : n.depth - bound = 0 := by rw [← h.refused, hzero]
    have hout : n.frames.tail.length + 1 - bound = 0 := by
      rw [List.length_tail]
      omega
    refine ⟨h.limit, ?_, ?_, h.whole, h.bound_pos⟩
    · rw [h.frames, inside, inside, hin, depth, hout]
      rfl
    · rw [hzero, depth, hout]
  · next hcount =>
    -- the context that is left is one beyond the bound
    cases hframes : n.frames with
    | nil =>
      rw [hframes, List.length_nil] at hrefused
      omega
    | cons f below =>
      have hout : below.length + 1 + 1 - bound = (below.length + 1 - bound) + 1 := by
        rw [hframes, List.length_cons] at hrefused
        omega
      refine ⟨h.limit, ?_, ?_, h.whole, h.bound_pos⟩
      · rw [h.frames, inside, inside, depth, depth, hframes, List.length_cons, List.tail_cons, hout]
        rfl
      · rw [h.refused, depth, depth, hframes, List.length_cons, List.tail_cons, hout]
        rfl

theorem Cut.apply (h : Cut bound n m) {edits : List Edit}
    (hmoves : ∀ e ∈ edits, e.isMove = true) (hroom : (n.apply place edits).overflow = none) :
    Cut bound (n.apply place edits) (m.apply place' edits) := by
  induction edits generalizing n m with
  | nil => exact h
  | cons e edits ih =>
    obtain ⟨he, hmore⟩ := List.forall_mem_cons.1 hmoves
    refine ih ?_ hmore hroom
    have hfirst : (n.edit place e).overflow = none := overflow_of_apply hroom
    cases e with
    | push mode directive => exact h.push (isFull_of_push hfirst) place place' mode directive
    | pop => exact h.pop
    | endLine | closeBlock => cases he

/-! ## What is on top -/

theorem Cut.same (h : Cut bound n m) (hdepth : n.depth ≤ bound) :
    m.frames = n.frames ∧ m.refused = 0 := by
  have hin : n.depth - bound = 0 := by omega
  refine ⟨?_, h.refused.trans hin⟩
  rw [h.frames, inside, hin]
  rfl

theorem Cut.depth_pop (h : Cut bound n m) (hdepth : n.depth ≤ bound) : n.pop.depth ≤ bound := by
  have hpop : n.pop = { n with frames := n.frames.tail } := if_pos h.whole
  rw [hpop, depth, List.length_tail]
  rw [depth] at hdepth
  omega

theorem Cut.pending (h : Cut bound n m) (hdepth : n.depth ≤ bound) : m.pending = n.pending := by
  obtain ⟨hframes, hrefused⟩ := h.same hdepth
  rw [Nesting.pending, Nesting.pending, hframes, hrefused, h.whole]

theorem top_congr (h : m.frames = n.frames) : m.top = n.top := by
  unfold top
  rw [h]

/-- Contexts beyond the bound that are alike: the tops of both stacks are in one mode, or in a block
and outside of all contexts. -/
theorem Cut.tops (h : Cut bound n m) (halike : n.Alike bound kind) (hdepth : ¬n.depth ≤ bound) :
    m.refused ≠ 0 ∧
      (n.top.mode = .expression ∧ m.top.mode = .expression ∧ kind ≠ .rightBrace ∨
        n.top.mode = .block ∧ (m.top.mode = .normal ∨ m.top.mode = .block)) := by
  have hm : m.top = (n.inside bound).top := top_congr h.frames
  refine ⟨by rw [h.refused]; omega, ?_⟩
  have htop : ∀ mode, (∀ f ∈ n.beyond bound, f.mode = mode) → n.top.mode = mode := by
    intro mode hall
    obtain ⟨k, hk⟩ : ∃ k, n.depth - bound = k + 1 := ⟨n.depth - bound - 1, by omega⟩
    cases hframes : n.frames with
    | nil =>
      have hbound := h.bound_pos
      rw [depth, hframes, List.length_nil] at hdepth
      omega
    | cons f below =>
      rw [top_mode_cons hframes]
      refine hall f ?_
      rw [beyond, hk, hframes]
      exact List.mem_cons_self
  rw [hm]
  rcases halike with hle | ⟨hin, hall, hkind⟩ | ⟨hin, hall⟩
  · exact absurd hle hdepth
  · exact .inl ⟨htop _ hall, hin, hkind⟩
  · exact .inr ⟨htop _ hall, hin⟩

theorem Cut.mode_cases (h : Cut bound n m) (halike : n.Alike bound kind) :
    m.top.mode = n.top.mode ∨ m.top.mode = .normal ∧ n.top.mode = .block := by
  by_cases hdepth : n.depth ≤ bound
  · exact .inl (by rw [top_congr (h.same hdepth).1])
  · rcases (h.tops halike hdepth).2 with ⟨hn, hm, -⟩ | ⟨hn, hm | hm⟩
    · exact .inl (hm.trans hn.symm)
    · exact .inr ⟨hm, hn⟩
    · exact .inl (hm.trans hn.symm)

theorem Cut.endsAtLine (h : Cut bound n m) (halike : n.Alike bound kind) :
    m.top.mode.endsAtLine = n.top.mode.endsAtLine := by
  rcases h.mode_cases halike with hmode | ⟨hm, hn⟩
  · rw [hmode]
  · rw [hm, hn]
    rfl

theorem Cut.actionAt (h : Cut bound n m) (halike : n.Alike bound kind) (ref : Option Reference)
    (parens : Nat) (c : Char) (cs : List Char) :
    Lexing.actionAt ref m.top.mode parens c cs = Lexing.actionAt ref n.top.mode parens c cs := by
  rcases h.mode_cases halike with hmode | ⟨hm, hn⟩
  · rw [hmode]
  · rw [hm, hn]
    rfl

theorem Cut.endLine (h : Cut bound n m) (halike : n.Alike bound kind) :
    Cut bound n.endLine m.endLine := by
  have hends := h.endsAtLine halike
  rw [Nesting.endLine, Nesting.endLine]
  by_cases hdepth : n.depth ≤ bound
  · rw [hends, (h.same hdepth).2, h.whole]
    split
    · exact h.pop
    · exact h
  · obtain ⟨hcount, htops⟩ := h.tops halike hdepth
    have hn : n.top.mode.endsAtLine = false := by
      rcases htops with ⟨hn, -⟩ | ⟨hn, -⟩ <;> rw [hn] <;> rfl
    rw [if_neg (by simp [hn]), if_neg fun hm => hcount hm.1]
    exact h

theorem Cut.closeBlock (h : Cut bound n m) (halike : n.Alike bound kind)
    (hkind : kind = .rightBrace) : Cut bound n.closeBlock m.closeBlock := by
  rw [Nesting.closeBlock, Nesting.closeBlock]
  by_cases hdepth : n.depth ≤ bound
  · obtain ⟨hframes, hrefused⟩ := h.same hdepth
    rw [hrefused, h.whole, top_congr hframes]
    split
    · exact h.pop
    · exact h
  · obtain ⟨hcount, ⟨-, -, hother⟩ | ⟨hn, -⟩⟩ := h.tops halike hdepth
    · exact absurd hkind hother
    · rw [if_pos (.inr hn), if_pos (.inl hcount)]
      exact h.pop

end Nesting

/-! ## What lexemes do to the stack -/

/-- What a lexeme does to the stack: it enters and leaves contexts, ends a line, or closes a
block. -/
inductive Lexeme.Changes (x : Lexeme) : Prop
  | moves (h : ∀ e ∈ x.edits, e.isMove = true)
  | endsLine (opening_eq : x.opening = [.endLine]) (closing_eq : x.closing = [])
      (following_eq : x.following = [])
  | closes (kind_eq : x.kind = .rightBrace) (opening_eq : x.opening = [])
      (closing_eq : x.closing = [.closeBlock]) (following_eq : x.following = [])

namespace Lexing

open Lexeme

variable {ref : Option Reference} {c : Char} {cs : List Char} {x y : Lexeme}

theorem changes_string (cs : List Char) : (string cs).Changes :=
  .moves (List.forall_mem_cons.2 ⟨rfl, List.forall_mem_singleton.2 rfl⟩)

/-- A mark other than the closing brace only enters and leaves contexts. -/
theorem moves_operator (hc : c ≠ '\x7d') (cs : List Char) :
    ∀ e ∈ (operator c cs).edits, e.isMove = true := by
  unfold operator
  dsimp only
  split
  · exact fun e he => absurd he List.not_mem_nil
  · cases hkind : TokenKind.ofChar c with
    | leftBrace => exact List.forall_mem_singleton.2 rfl
    | rightBrace =>
      unfold TokenKind.ofChar at hkind
      split at hkind
      all_goals first | exact absurd rfl hc | cases hkind
    | _ => exact fun e he => absurd he List.not_mem_nil

theorem changes_operator (c : Char) (cs : List Char) : (operator c cs).Changes := by
  by_cases hc : c = '\x7d'
  · subst hc
    cases cs with
    | nil => exact .closes rfl rfl rfl rfl
    | cons d cs => exact .closes rfl rfl rfl rfl
  · exact .moves (moves_operator hc cs)

theorem changes_worded (h : x.Worded c cs) : x.Changes := by
  refine .moves fun e he => ?_
  rcases mem_edits_of_worded h he with ⟨name, rfl⟩ | rfl | rfl <;> rfl

theorem Form.changes (h : Form ref c cs x) : x.Changes := by
  rcases h.cases_worded with ⟨-, rfl⟩ | ⟨-, rfl⟩ | hworded
  · exact changes_string cs
  · exact changes_operator c cs
  · exact changes_worded hworded

/-- A bracket that changes the stack before it is no closing brace. -/
theorem changes_of_like (hy : y.Changes) (h : x.Like c cs y) : x.Changes := by
  rcases h.opening with hopening | ⟨rfl, hc, e, hopening, he⟩
  · cases hy with
    | moves hmoves =>
      refine .moves ?_
      rw [edits, hopening, h.closing_eq, h.following_eq]
      exact hmoves
    | endsLine ho hclosing hfollowing =>
      exact .endsLine (hopening.trans ho) (h.closing_eq.trans hclosing)
        (h.following_eq.trans hfollowing)
    | closes hkind ho hclosing hfollowing =>
      exact .closes (h.kind_eq.trans hkind) (hopening.trans ho) (h.closing_eq.trans hclosing)
        (h.following_eq.trans hfollowing)
  · have hmoves := moves_operator (c := c) (by rcases hc with rfl | rfl | rfl <;> decide) cs
    refine .moves ?_
    simp only [edits, List.forall_mem_append] at hmoves ⊢
    rw [hopening, h.closing_eq, h.following_eq]
    refine ⟨⟨List.forall_mem_singleton.2 ?_, hmoves.1.2⟩, hmoves.2⟩
    rcases he with rfl | rfl | rfl <;> rfl

/-- **What is read changes the stack in one of the three ways.** -/
theorem actionAt_changes {mode : Mode} {parens : Nat}
    (h : actionAt ref mode parens c cs = .emit x) : x.Changes := by
  rcases actionAt_emit_cases h with ⟨rfl, -⟩ | ⟨rest, rfl, rfl, rfl⟩ | ⟨-, -, hread⟩
  · exact .endsLine rfl rfl rfl
  · exact .moves fun e he => absurd he List.not_mem_nil
  · by_cases hmode : mode = .stringLiteral
    · subst hmode
      cases hread
      exact changes_string cs
    · obtain ⟨y, hform, hlike⟩ := modeAction_form hmode hread
      exact changes_of_like hform.changes hlike

end Lexing

/-! ## Readings under a bound -/

def Token.bare (t : Token) : Token :=
  { t with context := Context.normal }

namespace Lexer

open Lexing Nesting

variable {ref : Option Reference} {l m l' : Lexer} {t : Token} {bound : Nat}

/-- The state `m` has the stack of `l` as far as it finds room under the bound. -/
structure Cut (bound : Nat) (l m : Lexer) : Prop where
  rest : m.rest = l.rest
  place : m.place = l.place
  parens : m.parens = l.parens
  nesting : Nesting.Cut bound l.nesting m.nesting

theorem overflow_of_next? (h : l.next? ref = some (t, l')) (hroom : l'.nesting.overflow = none) :
    l.nesting.overflow = none := by
  have hfits : l.nesting.Fits ⟨0, l'.nesting.limit + 1, none⟩ :=
    fits_of_next? h (.inr ⟨Nat.le_succ _, hroom⟩)
  rcases hfits with hlimit | hfits
  · rw [next?_limit h] at hlimit
    exact absurd hlimit (Nat.ne_of_lt (Nat.lt_succ_self _))
  · exact hfits.2

theorem Cut.skipBlanks (h : Cut bound l m) {kind : TokenKind}
    (halike : l.nesting.Alike bound kind) : Cut bound l.skipBlanks m.skipBlanks := by
  have hskipped : isSkipped m.nesting.top.mode = isSkipped l.nesting.top.mode := by
    funext c
    rw [isSkipped, isSkipped, h.nesting.endsAtLine halike]
  refine ⟨?_, ?_, h.parens, h.nesting⟩
  · show m.rest.dropWhile _ = l.rest.dropWhile _
    rw [hskipped, h.rest]
  · show m.place.after (m.rest.takeWhile _) = l.place.after (l.rest.takeWhile _)
    rw [hskipped, h.rest, h.place]

theorem Cut.emit (h : Cut bound l m) {c : Char} {cs : List Char} {x : Lexeme} (hx : x.Changes)
    (halike : l.nesting.Alike bound x.kind) (hroom : (l.emit c cs x).2.nesting.overflow = none) :
    Cut bound (l.emit c cs x).2 (m.emit c cs x).2 ∧
      (m.emit c cs x).1.bare = (l.emit c cs x).1.bare := by
  refine ⟨⟨rfl, ?_, ?_, ?_⟩, ?_⟩
  · simp only [Lexer.emit, h.place]
  · simp only [Lexer.emit, h.parens]
  · cases hx with
    | moves hmoves =>
      simp only [Lexeme.edits, List.forall_mem_append] at hmoves
      have hclosing := overflow_of_apply hroom
      have hopening := overflow_of_apply hclosing
      exact ((h.nesting.apply hmoves.1.1 hopening).apply hmoves.1.2 hclosing).apply hmoves.2 hroom
    | endsLine hopening hclosing hfollowing =>
      simp only [Lexer.emit, hopening, hclosing, hfollowing]
      exact h.nesting.endLine halike
    | closes hkind hopening hclosing hfollowing =>
      simp only [Lexer.emit, hopening, hclosing, hfollowing]
      exact h.nesting.closeBlock halike hkind
  · simp only [Lexer.emit, Token.bare, h.place]
    cases x.code <;> rfl

/-- Where a line or a brace ends the context on top, nothing is beyond the bound. -/
theorem Cut.depth_le (h : Cut bound l m) {kind : TokenKind} (halike : l.nesting.Alike bound kind)
    (hexpression : l.nesting.top.mode ≠ .expression) (hblock : l.nesting.top.mode ≠ .block) :
    l.nesting.depth ≤ bound := by
  by_contra hdepth
  rcases (h.nesting.tops halike hdepth).2 with ⟨htop, -⟩ | ⟨htop, -⟩
  · exact hexpression htop
  · exact hblock htop

theorem Cut.action (h : Cut bound l m) {kind : TokenKind} (halike : l.nesting.Alike bound kind)
    {c : Char} {cs : List Char} {action : Action}
    (haction : actionAt ref l.nesting.top.mode l.parens c cs = action) :
    actionAt ref m.nesting.top.mode m.parens c cs = action := by
  rw [h.nesting.actionAt halike, h.parens]
  exact haction

/-- **A reading under the bound**: contexts beyond it that are alike make no difference to the
token. -/
theorem next?_cut (hnext : l.next? ref = some (t, l')) (halike : l.nesting.Alike bound t.kind)
    (hroom : l'.nesting.overflow = none) :
    ∀ m, Cut bound l m → ∃ t' m', m.next? ref = some (t', m') ∧ Cut bound l' m' ∧
      t'.bare = t.bare := by
  fun_induction next? ref l with
  | case1 l s hr =>
    intro m hcut
    obtain ⟨rfl, rfl⟩ := Prod.mk.inj (Option.some.inj hnext)
    have hs := hcut.skipBlanks halike
    refine ⟨_, _, next?_nil rfl (hs.rest.trans hr), hs, ?_⟩
    simp only [endToken, Token.bare, hs.place, s]
  | case2 l s c cs hr x hx =>
    intro m hcut
    have hs := hcut.skipBlanks halike
    have hread : s.emit c cs x = (t, l') := Option.some.inj hnext
    have hkind : t.kind = x.kind := by
      rw [← (emit_kind s c cs x).1, hread]
    obtain ⟨hemit, hbare⟩ := hs.emit (actionAt_changes hx) (hkind ▸ halike)
      (show (s.emit c cs x).2.nesting.overflow = none by rw [hread]; exact hroom)
    rw [hread] at hemit hbare
    exact ⟨_, _, next?_emit rfl (hs.rest.trans hr) (hs.action halike hx), hemit, hbare⟩
  | case3 l s c cs hr hx ih =>
    intro m hcut
    have hs := hcut.skipBlanks halike
    have hfeed : l.skipBlanks.rest = '\n' :: cs := by
      rw [← actionAt_quiet.1 hx]
      exact hr
    have hends : s.nesting.top.mode.endsAtLine = true := endsAtLine_of_skipBlanks hfeed
    have hdepth : s.nesting.depth ≤ bound :=
      hs.depth_le halike (fun htop => by rw [htop] at hends; cases hends)
        (fun htop => by rw [htop] at hends; cases hends)
    have hturn : Cut bound
        { s with rest := cs, place := s.place.next c, nesting := s.nesting.pop }
        { m.skipBlanks with
          rest := cs
          place := m.skipBlanks.place.next c
          nesting := m.skipBlanks.nesting.pop } :=
      ⟨rfl, congrArg (Place.next · c) hs.place, hs.parens, hs.nesting.pop⟩
    obtain ⟨t', m', hm, hrest⟩ := ih hnext (.inl (hs.nesting.depth_pop hdepth)) _ hturn
    exact ⟨t', m', (next?_newline rfl (hs.rest.trans hr) (hs.action halike hx)).trans hm, hrest⟩
  | case4 l s c cs hr hx hp ih =>
    intro m hcut
    have hs := hcut.skipBlanks halike
    have hdepth : s.nesting.depth ≤ bound := by
      rcases actionAt_quiet.2.1 hx with htop | htop
      · exact hs.depth_le halike (by rw [htop]; decide) (by rw [htop]; decide)
      · exact hs.depth_le halike (by rw [htop]; decide) (by rw [htop]; decide)
    have hturn : Cut bound { s with nesting := s.nesting.pop }
        { m.skipBlanks with nesting := m.skipBlanks.nesting.pop } :=
      ⟨hs.rest, hs.place, hs.parens, hs.nesting.pop⟩
    have hless : m.skipBlanks.nesting.pop.pending < m.skipBlanks.nesting.pending := by
      rw [hs.nesting.pending hdepth, hs.nesting.pop.pending (hs.nesting.depth_pop hdepth)]
      exact hp
    obtain ⟨t', m', hm, hrest⟩ := ih hnext (.inl (hs.nesting.depth_pop hdepth)) _ hturn
    exact ⟨t', m', (next?_leave rfl (hs.rest.trans hr) (hs.action halike hx) hless).trans hm,
      hrest⟩
  | case5 => cases hnext
  | case6 l s c cs hr hx hp ih =>
    intro m hcut
    have hs := hcut.skipBlanks halike
    have htop := actionAt_quiet.2.2 hx
    have hdepth : s.nesting.depth ≤ bound :=
      hs.depth_le halike (by rw [htop]; decide) (by rw [htop]; decide)
    have hroomy : s.operandNesting.overflow = none := overflow_of_next? hnext hroom
    have hoperand : Nesting.Cut bound s.operandNesting m.skipBlanks.operandNesting :=
      hs.nesting.pop.push (isFull_of_push hroomy) _ _ _ _
    have hdepth' : s.operandNesting.depth ≤ bound := by
      obtain ⟨f, below, hframes, -⟩ := exists_frame htop (by decide)
      have hpop : s.nesting.pop = { s.nesting with frames := s.nesting.frames.tail } :=
        if_pos hs.nesting.whole
      rw [operandNesting, Nesting.push, if_neg (by simp [isFull_of_push hroomy]), hpop, hframes]
      rw [depth, hframes] at hdepth
      exact hdepth
    have hless : m.skipBlanks.operandNesting.pending < m.skipBlanks.nesting.pending := by
      rw [hs.nesting.pending hdepth, hoperand.pending hdepth']
      exact hp
    have hturn : Cut bound { s with nesting := s.operandNesting }
        { m.skipBlanks with nesting := m.skipBlanks.operandNesting } :=
      ⟨hs.rest, hs.place, hs.parens, hoperand⟩
    obtain ⟨t', m', hm, hrest⟩ := ih hnext (.inl hdepth') _ hturn
    exact ⟨t', m', (next?_operand rfl (hs.rest.trans hr) (hs.action halike hx) hless).trans hm,
      hrest⟩
  | case7 => cases hnext

/-! ## Runs under a bound -/

/-- The first `n` readings: the stack before each, and the token. -/
def readings (ref : Option Reference) : Nat → Lexer → List (Nesting × Token)
  | 0, _ => []
  | n + 1, l =>
    match l.next? ref with
    | none => []
    | some (t, l') => (l.nesting, t) :: readings ref n l'

theorem readings_succ (h : l.next? ref = some (t, l')) (n : Nat) :
    l.readings ref (n + 1) = (l.nesting, t) :: l'.readings ref n := by
  rw [readings, h]

theorem overflow_of_run (h : (l.run ref).2.nesting.overflow = none) :
    l.nesting.overflow = none := by
  fun_induction run ref l with
  | case1 l hnone => exact h
  | case2 l t l' hnext hend => exact overflow_of_next? hnext h
  | case3 l t l' hnext hmore ts last hrun ih =>
    rw [hrun] at ih
    exact overflow_of_next? hnext (ih h)

/-- **A run under the bound**: if the contexts beyond it are alike at each reading, the tokens are
those of the run without the bound. -/
theorem run_cut {n : Nat} (hn : l.rest.length < n) (horderly : l.nesting.Orderly)
    (halike : ∀ r ∈ l.readings ref n, r.1.Alike bound r.2.kind)
    (hroom : (l.run ref).2.nesting.overflow = none) :
    ∀ m, Cut bound l m →
      Cut bound (l.run ref).2 (m.run ref).2 ∧
        (m.run ref).1.map Token.bare = (l.run ref).1.map Token.bare := by
  obtain ⟨n, rfl⟩ := Nat.exists_eq_succ_of_ne_zero (Nat.ne_zero_of_lt hn)
  fun_induction run ref l generalizing n with
  | case1 l hnone => exact absurd hnone (next?_ne_none horderly)
  | case2 l t l' hnext hend =>
    intro m hcut
    rw [readings_succ hnext] at halike
    obtain ⟨t', m', hm, hcut', hbare⟩ :=
      next?_cut hnext (halike _ List.mem_cons_self) hroom m hcut
    have hkind : t'.kind = t.kind := (congrArg Token.kind hbare :)
    rw [run_of_end hm (hkind.trans hend)]
    exact ⟨hcut', by rw [List.map_singleton, List.map_singleton, hbare]⟩
  | case3 l t l' hnext hmore ts last hrun ih =>
    intro m hcut
    have hshorter := next?_progress hnext hmore
    obtain ⟨n, rfl⟩ : ∃ k, n = k + 1 := ⟨n - 1, by omega⟩
    rw [readings_succ hnext, List.forall_mem_cons] at halike
    rw [hrun] at ih
    have horderly' := next?_orderly hnext horderly
    have hroom' : l'.nesting.overflow = none := overflow_of_run (by rw [hrun]; exact hroom)
    obtain ⟨t', m', hm, hcut', hbare⟩ := next?_cut hnext halike.1 hroom' m hcut
    have hkind : t'.kind = t.kind := (congrArg Token.kind hbare :)
    rw [run_of_token hm (by rw [hkind]; exact hmore)]
    obtain ⟨hlast, htokens⟩ := ih horderly' hroom n (by omega) halike.2 m' hcut'
    exact ⟨hlast, by rw [List.map_cons, List.map_cons, hbare, htokens]⟩

theorem cut_ofText (limit depth : Int) (text : String) :
    Cut (depthBound depth) (ofText limit text) (ofText depth text) := by
  have hbound : 1 ≤ depthBound depth := by
    rw [depthBound]
    omega
  refine ⟨rfl, rfl, rfl, rfl, List.drop_nil.symm, ?_, rfl, hbound⟩
  show 0 = 0 + 1 - depthBound depth
  omega

end Lexer

/-- **Refused pushes are matched by their pops.** A text that is read without overflow up to the end
of all contexts, and whose contexts beyond a depth are alike at each reading, is read with that
depth as well up to the end of all contexts and refused pushes, and the tokens are the same but for
their contexts. -/
theorem tokenize_refusals_matched {ref : Option Reference} {limit : Int} {text : String}
    (hroom : (tokenize ref limit text).2.nesting.overflow = none)
    (hend : (tokenize ref limit text).2.nesting.frames = []) (depth : Int)
    (halike : ∀ r ∈ (Lexer.ofText limit text).readings ref (text.length + 1),
      r.1.Alike (depthBound depth) r.2.kind) :
    (tokenize ref depth text).2.nesting.depth = 1 ∧
      (tokenize ref depth text).2.nesting.refused = 0 ∧
      (tokenize ref depth text).1.map Token.bare = (tokenize ref limit text).1.map Token.bare := by
  have hlength : (Lexer.ofText limit text).rest.length < text.length + 1 := by
    rw [← String.length_toList]
    exact Nat.lt_succ_self _
  obtain ⟨hcut, htokens⟩ := Lexer.run_cut hlength (Nesting.orderly_ofLimit limit) halike hroom _
    (Lexer.cut_ofText limit depth text)
  have hdepth : (tokenize ref limit text).2.nesting.depth ≤ depthBound depth := by
    rw [Nesting.depth, hend]
    exact hcut.nesting.bound_pos
  obtain ⟨hframes, hrefused⟩ := hcut.nesting.same hdepth
  refine ⟨?_, hrefused, htokens⟩
  rw [Nesting.depth, show (tokenize ref depth text).2.nesting.frames = [] from hframes.trans hend]
  rfl

/-- Parentheses in parentheses behind a directive. -/
def nestedParensText : String :=
  ".const x=((\"a\"))\n"

def nestedParensTokens : List Token :=
  [directiveToken ".const" 1 1 1, tokenIn .directive ".const" 1 .identifier "x" 1 8,
    tokenIn .directive ".const" 1 .equal "=" 1 9, tokenIn .expression "" 2 .leftParen "(" 1 10,
    tokenIn .expression "" 3 .leftParen "(" 1 11, tokenIn .expression "" 3 .string "\"a\"" 1 12,
    tokenIn .expression "" 2 .rightParen ")" 1 15,
    tokenIn .directive ".const" 1 .rightParen ")" 1 16, plainToken .endOfText "" 2 1]

/-- The inner parentheses of `nestedParensText` find no room under three, and are matched. -/
theorem tokenize_refusals_matched_parens :
    (∀ r ∈ (Lexer.ofText 128 nestedParensText).readings none (nestedParensText.length + 1),
        r.1.Alike (depthBound 3) r.2.kind) ∧
      (tokenize none 3 nestedParensText).2.nesting.depth = 1 ∧
      (tokenize none 3 nestedParensText).2.nesting.refused = 0 ∧
      (tokenize none 3 nestedParensText).1.map Token.bare = nestedParensTokens.map Token.bare := by
  have hrun : tokenize none 128 nestedParensText =
      (nestedParensTokens, ⟨[], ⟨2, 1⟩, 0, ⟨128, [], 0, none⟩⟩) := by
    exact Lexer.run_of_session nestedParensTokens.length (by cbv) (by decide)
  have halike : ∀ r ∈ (Lexer.ofText 128 nestedParensText).readings none
      (nestedParensText.length + 1), r.1.Alike (depthBound 3) r.2.kind := by
    have hall : ((Lexer.ofText 128 nestedParensText).readings none
        (nestedParensText.length + 1)).all
          (fun r => decide (r.1.Alike (depthBound 3) r.2.kind)) = true := by cbv
    simpa only [List.all_eq_true, decide_eq_true_eq] using hall
  have hmatched := tokenize_refusals_matched (by rw [hrun]) (by rw [hrun]) 3 halike
  rw [hrun] at hmatched
  exact ⟨halike, hmatched⟩

def parensText : String :=
  ".const x=(1)\n"

/-- The tokens of `parensText`, given the contexts inside and behind the parentheses and behind the
line. -/
def parensTokens (inner outer last : Context) : List Token :=
  [directiveToken ".const" 1 1 1, tokenIn .directive ".const" 1 .identifier "x" 1 8,
    tokenIn .directive ".const" 1 .equal "=" 1 9, ⟨.leftParen, "(", ⟨1, 10⟩, inner, Note.none⟩,
    ⟨.number .decimal, "1", ⟨1, 11⟩, inner, Note.none⟩,
    ⟨.rightParen, ")", ⟨1, 12⟩, outer, Note.none⟩, ⟨.endOfText, "", ⟨2, 1⟩, last, Note.none⟩]

/-- Parentheses right behind a directive that find no room are not matched: their end takes nothing
back, so the end of the line takes back their count and the directive stays open. -/
theorem tokenize_refusal_open :
    (tokenize none 128 parensText).2.nesting.overflow = none ∧
      (tokenize none 128 parensText).2.nesting.frames = [] ∧
      (tokenize none 2 parensText).2.nesting.depth = 2 := by
  have hroom : tokenize none 128 parensText =
      (parensTokens ⟨.expression, "", 2⟩ ⟨.directive, ".const", 1⟩ Context.normal,
        ⟨[], ⟨2, 1⟩, 0, ⟨128, [], 0, none⟩⟩) := by
    exact Lexer.run_of_session 7 (by cbv) (by decide)
  have hbound : tokenize none 2 parensText =
      (parensTokens ⟨.directive, ".const", 1⟩ ⟨.directive, ".const", 1⟩ ⟨.directive, ".const", 1⟩,
        ⟨[], ⟨2, 1⟩, 0, ⟨2, [⟨.directive, ".const"⟩], 0, some ⟨1, 10⟩⟩⟩) := by
    exact Lexer.run_of_session 7 (by cbv) (by decide)
  rw [hroom, hbound]
  exact ⟨rfl, rfl, rfl⟩

end Asm6510
