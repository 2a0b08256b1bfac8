import Asm6510.Proofs.Token.Relocation
import Mathlib

/-!
# The changes of the stack

The stack of contexts is changed by readings and from outside, in many ways. All of them are made of
a few changes, which are carried out one after the other.

* `Nesting.replay`: changes that are carried out, each at its place.
* `Nesting.refusals`: the places of the pushes among them that are refused.
* `Lexer.changes`, `Lexer.history`: the changes that a reading makes, and those that calls make.
* `Nesting.Leads`: changes lead from a stack to another, and tokens are read in between.

Main statement: `Lexer.session?_stacked`, what the stack and the note of refused pushes are like
behind all calls.
-/

namespace Asm6510

namespace Nesting

variable {n : Nesting}

/-! ## Changes one after the other -/

/-- Carries out changes, each at its place. -/
def replay (n : Nesting) (made : List (Place × Edit)) : Nesting :=
  made.foldl (fun n change => n.edit change.1 change.2) n

/-- Whether a change is a push that finds no room. -/
def refuses (n : Nesting) : Edit → Bool
  | .push _ _ => n.isFull
  | _ => false

/-- The places of the pushes that find no room while changes are carried out. -/
def refusals (n : Nesting) : List (Place × Edit) → List Place
  | [] => []
  | (place, e) :: rest =>
    (if n.refuses e then [place] else []) ++ (n.edit place e).refusals rest

theorem replay_append (n : Nesting) (xs ys : List (Place × Edit)) :
    n.replay (xs ++ ys) = (n.replay xs).replay ys :=
  List.foldl_append

theorem replay_map (n : Nesting) (place : Place) (edits : List Edit) :
    n.replay (edits.map (place, ·)) = n.apply place edits :=
  List.foldl_map

/-- A refused push is noted, unless one was noted before. -/
theorem overflow_edit_eq (n : Nesting) (place : Place) (e : Edit) :
    (n.edit place e).overflow = n.overflow.or (if n.refuses e then some place else none) := by
  cases e with
  | push mode directive =>
    by_cases hfull : n.isFull = true
    · cases ho : n.overflow <;> simp [edit, push, refuses, hfull, ho]
    · simp [edit, push, refuses, hfull]
  | pop | endLine | closeBlock =>
    refine Eq.trans ?_ Option.or_none.symm
    exact edit_rec (P := fun m => m.overflow = n.overflow) (fun _ _ h => by cases h)
      n.overflow_pop rfl

/-- **What is noted is the first refusal.** -/
theorem overflow_replay (n : Nesting) (made : List (Place × Edit)) :
    (n.replay made).overflow = n.overflow.or (n.refusals made).head? := by
  induction made generalizing n with
  | nil => exact Option.or_none.symm
  | cons change made ih =>
    calc ((n.edit change.1 change.2).replay made).overflow
      _ = (n.overflow.or (if n.refuses change.2 then some change.1 else none)).or
            ((n.edit change.1 change.2).refusals made).head? := by rw [ih, overflow_edit_eq]
      _ = n.overflow.or (n.refusals (change :: made)).head? := by
        rw [Option.or_assoc, refusals]
        split <;> rfl

theorem Bounded.edit (h : n.Bounded) (place : Place) (e : Edit) : (n.edit place e).Bounded :=
  edit_rec (fun mode directive _ => h.push place mode directive) h.pop h

/-- **The bound is kept, whatever the changes are.** -/
theorem Bounded.replay (h : n.Bounded) (made : List (Place × Edit)) :
    (n.replay made).Bounded ∧ (n.replay made).limit = n.limit := by
  induction made generalizing n with
  | nil => exact ⟨h, rfl⟩
  | cons change made ih =>
    obtain ⟨hbounded, hlimit⟩ := ih (h.edit change.1 change.2)
    exact ⟨hbounded, hlimit.trans (n.edit_limit change.1 change.2)⟩

/-- From the empty stack the entries stay within the chosen depth, and refused pushes are open only
while there are as many. -/
theorem depth_replay_ofLimit (limit : Int) (made : List (Place × Edit)) :
    (((ofLimit limit).replay made).depth : Int) ≤ max limit 1 ∧
      (0 < ((ofLimit limit).replay made).refused →
        (((ofLimit limit).replay made).depth : Int) = max limit 1) := by
  obtain ⟨hbounded, hlimit⟩ := (bounded_ofLimit limit).replay made
  have hroom := hbounded.depth_le
  have hbound : ((ofLimit limit).limit : Int) = max limit 1 := by
    show ((max limit 1).toNat : Int) = max limit 1
    omega
  constructor
  · omega
  · intro hrefused
    have hfull := hbounded.full (Nat.ne_of_gt hrefused)
    omega

/-! ## The contexts -/

theorem head?_contextsOf (frames : List Frame) :
    (contextsOf frames).head? = some Context.normal := by
  induction frames with
  | nil => rfl
  | cons f below ih => rw [contextsOf, List.head?_append, ih, Option.some_or]

theorem depth_of_contextsOf {frames : List Frame} {i : Nat} {c : Context}
    (h : (contextsOf frames)[i]? = some c) : c.depth = i := by
  induction frames with
  | nil =>
    rw [contextsOf, List.getElem?_singleton] at h
    split at h
    · cases h
      exact Eq.symm ‹i = 0›
    · cases h
  | cons f below ih =>
    rw [contextsOf, List.getElem?_append, length_contextsOf] at h
    split at h
    · exact ih h
    · rw [List.getElem?_singleton] at h
      split at h
      · cases h
        show below.length + 1 = i
        omega
      · cases h

theorem top_depth (n : Nesting) : n.top.depth + 1 = n.depth := by
  unfold top depth
  cases n.frames <;> rfl

/-! ## Changes with tokens in between -/

/-- Changes lead from a stack to another one, and tokens are read in between: the context of each
of them is on top behind some of the changes. -/
structure Leads (n : Nesting) (made : List (Place × Edit)) (ts : List Token) (m : Nesting) :
    Prop where
  stack : m = n.replay made
  contexts : ∀ t ∈ ts, ∃ first, first <+: made ∧ t.context = (n.replay first).top

theorem leads_replay (n : Nesting) (made : List (Place × Edit)) :
    n.Leads made [] (n.replay made) :=
  ⟨rfl, fun _ h => absurd h List.not_mem_nil⟩

theorem Leads.trans {m k : Nesting} {xs ys : List (Place × Edit)} {ts us : List Token}
    (h : n.Leads xs ts m) (h' : m.Leads ys us k) : n.Leads (xs ++ ys) (ts ++ us) k := by
  obtain ⟨rfl, hts⟩ := h
  obtain ⟨rfl, hus⟩ := h'
  refine ⟨(n.replay_append xs ys).symm, fun t ht => ?_⟩
  rcases List.mem_append.1 ht with ht | ht
  · obtain ⟨first, hfirst, he⟩ := hts t ht
    exact ⟨first, hfirst.trans (List.prefix_append xs ys), he⟩
  · obtain ⟨first, hfirst, he⟩ := hus t ht
    exact ⟨xs ++ first, (List.prefix_append_right_inj xs).2 hfirst, by rwa [replay_append]⟩

end Nesting

/-! ## Readings and calls -/

namespace Lexer

open Lexing

variable {ref : Option Reference} {l m : Lexer}

/-- The changes of a lexeme at `c :: cs`, before it and behind it. -/
def emitChanges (l : Lexer) (c : Char) (cs : List Char) (x : Lexeme) :
    List (Place × Nesting.Edit) :=
  let stop := l.place.after (c :: cs.take x.more)
  x.opening.map (l.place, ·) ++ x.closing.map (stop, ·) ++ x.following.map (stop, ·)

/-- The changes that a reading makes. -/
def changes (ref : Option Reference) (l : Lexer) : List (Place × Nesting.Edit) :=
  let s := l.skipBlanks
  match _h : s.rest with
  | [] => []
  | c :: cs =>
    match actionAt ref s.nesting.top.mode s.parens c cs with
    | .emit x => s.emitChanges c cs x
    | .newline =>
      (s.place, .pop) ::
        changes ref { s with rest := cs, place := s.place.next c, nesting := s.nesting.pop }
    | .leave =>
      (s.place, .pop) ::
        if _hp : s.nesting.pop.pending < s.nesting.pending then
          changes ref { s with nesting := s.nesting.pop }
        else
          []
    | .operand =>
      (s.place, .pop) :: (s.place, .push .operand "") ::
        if _hp : s.operandNesting.pending < s.nesting.pending then
          changes ref { s with nesting := s.operandNesting }
        else
          []
termination_by (l.rest.length, l.nesting.pending)
decreasing_by
  all_goals
    have hs := l.length_skipBlanks_le
    rw [Prod.lex_def]
  · rw [_h] at hs
    exact .inl (Nat.lt_of_lt_of_le (Nat.lt_succ_self _) hs)
  · exact (Nat.lt_or_eq_of_le hs).imp_right fun hs => ⟨hs, _hp⟩
  · exact (Nat.lt_or_eq_of_le hs).imp_right fun hs => ⟨hs, _hp⟩

def callChanges (ref : Option Reference) (l : Lexer) : Call → List (Place × Nesting.Edit)
  | .next => l.changes ref
  | .push mode directive => [(l.place, .push mode directive)]
  | .pop => [(l.place, .pop)]

/-- The changes that calls make one after another. -/
def history (ref : Option Reference) (l : Lexer) : List Call → List (Place × Nesting.Edit)
  | [] => []
  | call :: calls =>
    l.callChanges ref call ++
      match l.call? ref call with
      | none => []
      | some (_, m) => m.history ref calls

theorem emit_leads (l : Lexer) (c : Char) (cs : List Char) (x : Lexeme) :
    l.nesting.Leads (l.emitChanges c cs x) [(l.emit c cs x).1] (l.emit c cs x).2.nesting := by
  have hread : l.nesting.replay (x.opening.map (l.place, ·) ++
      x.closing.map (l.place.after (c :: cs.take x.more), ·)) =
        (l.nesting.apply l.place x.opening).apply (l.place.after (c :: cs.take x.more))
          x.closing := by
    rw [Nesting.replay_append, Nesting.replay_map, Nesting.replay_map]
  constructor
  · rw [emitChanges, Nesting.replay_append, hread, Nesting.replay_map]
    rfl
  · intro t ht
    rw [List.mem_singleton.1 ht]
    refine ⟨_, List.prefix_append _ _, ?_⟩
    rw [hread]
    unfold emit
    cases x.code <;> rfl

/-- A reading carries out its changes, and its token has a context that they come by. -/
theorem next?_leads {t : Token} (h : l.next? ref = some (t, m)) :
    l.nesting.Leads (l.changes ref) [t] m.nesting := by
  fun_induction changes ref l with
  | case1 l s hr =>
    rw [next?_nil rfl hr] at h
    cases h
    refine ⟨rfl, fun t ht => ⟨[], List.prefix_rfl, ?_⟩⟩
    rw [List.mem_singleton.1 ht]
    rfl
  | case2 l s c cs hr x hx =>
    rw [next?_emit rfl hr hx] at h
    cases h
    exact s.emit_leads c cs x
  | case3 l s c cs hr hx ih =>
    rw [next?_newline rfl hr hx] at h
    exact (s.nesting.leads_replay [(s.place, .pop)]).trans (ih h)
  | case4 l s c cs hr hx ih =>
    rw [next?_cons rfl hr, hx] at h
    obtain ⟨hp, h⟩ := Option.ite_none_right_eq_some.1 h
    rw [dif_pos hp]
    exact (s.nesting.leads_replay [(s.place, .pop)]).trans (ih hp h)
  | case5 l s c cs hr hx ih =>
    rw [next?_cons rfl hr, hx] at h
    obtain ⟨hp, h⟩ := Option.ite_none_right_eq_some.1 h
    rw [dif_pos hp]
    exact (s.nesting.leads_replay [(s.place, .pop), (s.place, .push .operand "")]).trans (ih hp h)

theorem call?_leads {call : Call} {ts : List Token} (h : l.call? ref call = some (ts, m)) :
    l.nesting.Leads (l.callChanges ref call) ts m.nesting := by
  cases call with
  | next =>
    obtain ⟨⟨t, l'⟩, ht, he⟩ := Option.map_eq_some_iff.1 h
    cases he
    exact next?_leads ht
  | push mode directive =>
    cases h
    exact l.nesting.leads_replay [(l.place, .push mode directive)]
  | pop =>
    cases h
    exact l.nesting.leads_replay [(l.place, .pop)]

/-- **Calls carry out their changes**, and each token has a context that they come by. -/
theorem session?_leads {calls : List Call} {ts : List Token}
    (h : l.session? ref calls = some (ts, m)) :
    l.nesting.Leads (l.history ref calls) ts m.nesting := by
  induction calls generalizing l ts with
  | nil =>
    cases h
    exact m.nesting.leads_replay []
  | cons call calls ih =>
    obtain ⟨us, k, vs, hcall, hrest, rfl⟩ := session?_cons h
    rw [history, hcall]
    exact (call?_leads hcall).trans (ih hrest)

/-- **The stack behind all calls.** After any readings, pushes and pops on a fresh lexer the stack
is what their changes make of it. The normal context is at its bottom, each entry knows how many are
below it, and there are never more than the bound. Refused pushes are open only while the stack is
full. A refusal is noted exactly where one happened, with the place of the first, and it stays noted
whatever is called then. Each token was read within the bound. -/
theorem session?_stacked {limit : Int} {text : String} {calls : List Call} {ts : List Token}
    (h : (ofText limit text).session? ref calls = some (ts, l)) :
    let made := (ofText limit text).history ref calls
    l.nesting = (Nesting.ofLimit limit).replay made ∧
    l.nesting.contexts.head? = some Context.normal ∧
    (∀ (i : Nat) (c : Context), l.nesting.contexts[i]? = some c → c.depth = i) ∧
    (l.nesting.contexts.length : Int) ≤ max limit 1 ∧
    (0 < l.nesting.refused → (l.nesting.contexts.length : Int) = max limit 1) ∧
    (l.nesting.overflow.isSome = true ↔ (Nesting.ofLimit limit).refusals made ≠ []) ∧
    l.nesting.overflow = ((Nesting.ofLimit limit).refusals made).head? ∧
    (∀ more us m, l.session? ref more = some (us, m) → ∀ p, l.nesting.overflow = some p →
      m.nesting.overflow = some p) ∧
    ∀ t ∈ ts, (t.context.depth : Int) < max limit 1 := by
  intro made
  obtain ⟨hstack, hcontexts⟩ : (Nesting.ofLimit limit).Leads made ts l.nesting := session?_leads h
  have hroom := Nesting.depth_replay_ofLimit limit made
  rw [← hstack] at hroom
  have hnoted : l.nesting.overflow = ((Nesting.ofLimit limit).refusals made).head? := by
    rw [hstack, Nesting.overflow_replay]
    rfl
  have hlength : l.nesting.contexts.length = l.nesting.depth :=
    Nesting.length_contextsOf l.nesting.frames
  refine ⟨hstack, Nesting.head?_contextsOf _, fun i c => Nesting.depth_of_contextsOf, ?_, ?_, ?_,
    hnoted, ?_, ?_⟩
  · rw [hlength]
    exact hroom.1
  · rw [hlength]
    exact hroom.2
  · rw [hnoted, List.isSome_head?]
  · intro more us m hmore p hp
    rw [(session?_leads hmore).stack, Nesting.overflow_replay, hp]
    rfl
  · intro t ht
    obtain ⟨first, -, he⟩ := hcontexts t ht
    have htop := Nesting.top_depth ((Nesting.ofLimit limit).replay first)
    have hroom := (Nesting.depth_replay_ofLimit limit first).1
    rw [he]
    omega

/-- A block that fills the stack. -/
def fullBlock : Lexer := ofText 2 "\x7b\x7b\n\x7b x"

/-- The second brace and the third find no room behind the first, and a push from outside neither;
a pop takes back one of the three refusals. -/
def fullBlockCalls : List Call := [.next, .next, .next, .push .operand "", .pop, .next]

theorem session?_stacked_fullBlock :
    ∃ ts l, fullBlock.session? none fullBlockCalls = some (ts, l) ∧ l.nesting.refused = 2 ∧
      (l.nesting.contexts.length : Int) = 2 ∧
      ((Nesting.ofLimit 2).refusals (fullBlock.history none fullBlockCalls)).head? =
        some ⟨1, 3⟩ ∧
      ∀ t ∈ ts, (t.context.depth : Int) < 2 := by
  obtain ⟨ts, l, hs, hrefused, hoverflow⟩ : ∃ ts l,
      fullBlock.session? none fullBlockCalls = some (ts, l) ∧ l.nesting.refused = 2 ∧
        l.nesting.overflow = some ⟨1, 3⟩ := ⟨_, _, by cbv, rfl, rfl⟩
  obtain ⟨-, -, -, -, hfull, -, hfirst, -, hread⟩ := session?_stacked hs
  exact ⟨ts, l, hs, hrefused, hfull (by omega), hfirst.symm.trans hoverflow, hread⟩

end Lexer

end Asm6510
