import Asm6510.Proofs.Token.Layout

/-!
# Reading goes on and ends

The loop of a reading can turn without taking a character: a closing brace leaves a directive or an
operand, and a mnemonic gives way to its operand. On a full stack leaving only takes back a refused
push, so this ends for a reason that must be kept up:

* `Nesting.Bounded`: the stack is within its bound, and pushes are refused only while it is full.
* `Nesting.Orderly`: a mnemonic is on the stack only at its top, and never while a push is refused.

Main statements: `Lexer.next?_returns`, in an orderly state every reading returns and leaves an
orderly state; `tokenize_complete`, the tokens of a text come from finitely many readings, the
end of the text last and once.
-/

namespace Asm6510

namespace Nesting

variable {n : Nesting}

/-- What a change can do: enter a context, leave one, or nothing. -/
theorem edit_rec {P : Nesting → Prop} {place : Place} {e : Edit}
    (hpush : ∀ mode directive, e = .push mode directive → P (n.push place mode directive))
    (hpop : P n.pop) (hsame : P n) : P (n.edit place e) := by
  cases e with
  | push mode directive => exact hpush mode directive rfl
  | pop => exact hpop
  | endLine =>
    simp only [edit, endLine]
    split
    · exact hpop
    · exact hsame
  | closeBlock =>
    simp only [edit, closeBlock]
    split
    · exact hpop
    · exact hsame

/-! ## The bound -/

/-- The stack is within its bound, and pushes are refused only while it is full. -/
structure Bounded (n : Nesting) : Prop where
  depth_le : n.depth ≤ n.limit
  full : n.refused ≠ 0 → n.limit ≤ n.depth

theorem bounded_ofLimit (limit : Int) : (ofLimit limit).Bounded := by
  refine ⟨?_, fun h => absurd rfl h⟩
  show 0 + 1 ≤ (max limit 1).toNat
  omega

theorem Bounded.push (h : n.Bounded) (place : Place) (mode : Mode) (directive : String) :
    (n.push place mode directive).Bounded := by
  unfold Nesting.push
  split
  · rename_i hf
    exact ⟨h.depth_le, fun _ => of_decide_eq_true hf⟩
  · rename_i hf
    have hlt : n.depth < n.limit := by simpa [isFull] using hf
    refine ⟨hlt, fun hr => ?_⟩
    exact absurd (h.full hr) (Nat.not_le_of_lt hlt)

theorem Bounded.pop (h : n.Bounded) : n.pop.Bounded := by
  have hd := h.depth_le
  unfold Nesting.pop
  split
  · rename_i hr
    refine ⟨?_, fun hr' => absurd hr hr'⟩
    simp only [depth, List.length_tail] at hd ⊢
    omega
  · rename_i hr
    exact ⟨h.depth_le, fun _ => h.full hr⟩

theorem length_contextsOf (frames : List Frame) :
    (contextsOf frames).length = frames.length + 1 := by
  induction frames with
  | nil => rfl
  | cons f below ih => simp [contextsOf, ih]

/-! ## What changes leave alone -/

section Kept

variable (n) (place : Place)

theorem overflow_pop : n.pop.overflow = n.overflow := by
  unfold pop
  split <;> rfl

theorem pop_limit : n.pop.limit = n.limit := by
  unfold pop
  split
  · rfl
  · rfl

theorem push_limit (mode : Mode) (directive : String) :
    (n.push place mode directive).limit = n.limit := by
  unfold push
  split
  · rfl
  · rfl

theorem edit_limit (x : Edit) : (n.edit place x).limit = n.limit :=
  edit_rec (P := fun m => m.limit = n.limit)
    (fun mode directive _ => push_limit n place mode directive) (pop_limit n) rfl

theorem apply_limit (edits : List Edit) : (n.apply place edits).limit = n.limit := by
  induction edits generalizing n with
  | nil => rfl
  | cons x edits ih => exact (ih (n.edit place x)).trans (edit_limit n place x)

end Kept

/-! ## Mnemonics on the stack -/

/-- A mnemonic is only at the top of the stack, and never while a push is refused. -/
structure Orderly (n : Nesting) : Prop extends n.Bounded where
  below : ∀ f ∈ n.frames.tail, f.mode ≠ .instruction
  at_top : n.top.mode = .instruction → n.refused = 0

theorem orderly_ofLimit (limit : Int) : (ofLimit limit).Orderly :=
  ⟨bounded_ofLimit limit, by simp [ofLimit], fun _ => rfl⟩

theorem top_mode_cons {f : Frame} {below : List Frame} (h : n.frames = f :: below) :
    n.top.mode = f.mode := by
  unfold top
  rw [h]
  rfl

theorem exists_frame {mode : Mode} (h : n.top.mode = mode) (hm : mode ≠ .normal) :
    ∃ f below, n.frames = f :: below ∧ f.mode = mode := by
  cases hf : n.frames with
  | nil =>
    have : n.top.mode = .normal := by unfold top; rw [hf]; rfl
    exact absurd (this.symm.trans h).symm hm
  | cons f below =>
    rw [top_mode_cons hf] at h
    exact ⟨f, below, rfl, h⟩

/-- Leaving keeps the order, and there is no mnemonic on top behind it. -/
theorem Orderly.pop (h : n.Orderly) : n.pop.Orderly ∧ n.pop.top.mode ≠ .instruction := by
  by_cases hr : n.refused = 0
  · have hp : n.pop = { n with frames := n.frames.tail } := if_pos hr
    have htop : n.pop.top.mode ≠ .instruction := by
      intro ht
      obtain ⟨f, below, hf, hm⟩ := exists_frame ht (by decide)
      rw [hp] at hf
      exact h.below f (by rw [show n.frames.tail = f :: below from hf]; simp) hm
    refine ⟨⟨h.toBounded.pop, ?_, fun ht => absurd ht htop⟩, htop⟩
    rw [hp]
    exact fun f hf => h.below f (List.mem_of_mem_tail hf)
  · have hp : n.pop = { n with refused := n.refused - 1 } := if_neg hr
    have htop : n.pop.top.mode ≠ .instruction := by
      rw [hp]
      exact fun ht => hr (h.at_top ht)
    refine ⟨⟨h.toBounded.pop, ?_, fun ht => absurd ht htop⟩, htop⟩
    rw [hp]
    exact h.below

/-- Entering keeps the order where no mnemonic is on top. -/
theorem Orderly.push (h : n.Orderly) (ht : n.top.mode ≠ .instruction) (place : Place) (mode : Mode)
    (directive : String) : (n.push place mode directive).Orderly := by
  refine ⟨h.toBounded.push place mode directive, ?_, ?_⟩
  · unfold Nesting.push
    split
    · exact h.below
    · intro f hf
      -- the entries below the new top are the old ones, with the old top among them
      cases hfs : n.frames with
      | nil =>
        rw [hfs] at hf
        exact absurd hf List.not_mem_nil
      | cons g below =>
        rw [hfs] at hf
        rcases List.mem_cons.1 hf with rfl | hf
        · rwa [top_mode_cons hfs] at ht
        · exact h.below f (by rw [hfs]; exact hf)
  · unfold Nesting.push
    split
    · exact fun hm => absurd hm ht
    · rename_i hf
      intro _
      by_contra hr
      exact hf (decide_eq_true (h.full hr))

theorem push_top_mode (ht : n.top.mode ≠ .instruction) {mode : Mode} (hm : mode ≠ .instruction)
    (place : Place) (directive : String) :
    (n.push place mode directive).top.mode ≠ .instruction := by
  unfold Nesting.push
  split
  · exact ht
  · exact hm

theorem Orderly.edit (h : n.Orderly) (ht : n.top.mode ≠ .instruction) (place : Place) {e : Edit}
    (he : e.isCalm = true) :
    (n.edit place e).Orderly ∧ (n.edit place e).top.mode ≠ .instruction := by
  refine edit_rec (P := fun m => m.Orderly ∧ m.top.mode ≠ .instruction) ?_ h.pop ⟨h, ht⟩
  rintro mode directive rfl
  have hm : mode ≠ .instruction := by simpa [Edit.isCalm] using he
  exact ⟨h.push ht place mode directive, push_top_mode ht hm place directive⟩

theorem Orderly.apply (h : n.Orderly) (ht : n.top.mode ≠ .instruction) (place : Place)
    {edits : List Edit} (he : ∀ e ∈ edits, e.isCalm = true) :
    (n.apply place edits).Orderly ∧ (n.apply place edits).top.mode ≠ .instruction := by
  induction edits generalizing n with
  | nil => exact ⟨h, ht⟩
  | cons e edits ih =>
    obtain ⟨h', ht'⟩ := h.edit ht place (he e List.mem_cons_self)
    exact ih h' ht' fun e' he' => he e' (List.mem_cons_of_mem _ he')

/-- One last change may enter a mnemonic. -/
theorem Orderly.apply_following (h : n.Orderly) (ht : n.top.mode ≠ .instruction) (place : Place)
    {edits : List Edit} (hl : edits.length ≤ 1) : (n.apply place edits).Orderly := by
  match edits, hl with
  | [], _ => exact h
  | [e], _ => exact edit_rec (fun mode directive _ => h.push ht place mode directive) h.pop.1 h

/-! ## What is left to undo -/

/-- Leaving an entry above the bottom leaves less to undo. -/
theorem pending_pop_lt {f : Frame} {below : List Frame} (hf : n.frames = f :: below) :
    n.pop.pending < n.pending := by
  unfold Nesting.pop
  split
  · simp only [pending, hf, List.tail_cons, List.foldr_cons]
    split <;> omega
  · simp only [pending]
    omega

end Nesting

namespace Lexer

open Lexing Nesting

variable {ref : Option Reference}

/-! ## Readings -/

/-- The operand of a mnemonic takes its place on the stack, which leaves less to undo. -/
theorem pending_operandNesting_lt {l : Lexer} (h : l.nesting.Orderly)
    (ht : l.nesting.top.mode = .instruction) : l.operandNesting.pending < l.nesting.pending := by
  obtain ⟨f, below, hf, hm⟩ := exists_frame ht (by decide)
  have hr := h.at_top ht
  have hd := h.depth_le
  have hpop : l.nesting.pop = { l.nesting with frames := below } := by
    rw [show l.nesting.pop = { l.nesting with frames := l.nesting.frames.tail } from if_pos hr, hf]
    rfl
  -- there was room for the mnemonic, so there is room for the operand
  have hroom : ¬ l.nesting.pop.isFull = true := by
    rw [hpop]
    intro hfull
    have hle : l.nesting.limit ≤ below.length + 1 := of_decide_eq_true hfull
    simp only [depth, hf, List.length_cons] at hd
    omega
  unfold operandNesting Nesting.push
  rw [if_neg hroom, hpop]
  simp [pending, hf, hm]

theorem orderly_emit {l : Lexer} {c : Char} {cs : List Char} {x : Lexeme} (h : l.nesting.Orderly)
    (hx : actionAt ref l.nesting.top.mode l.parens c cs = .emit x) :
    (l.emit c cs x).2.nesting.Orderly := by
  have hproper := actionAt_proper hx
  show (((l.nesting.apply _ x.opening).apply _ x.closing).apply _ x.following).Orderly
  by_cases ht : l.nesting.top.mode = .instruction
  · rw [ht] at hx
    obtain ⟨hopen, hclose, hfollow⟩ := actionAt_instruction hx
    rw [hclose, hfollow]
    rcases hopen with hopen | hopen
    · rw [hopen]
      show (l.nesting.endLine).Orderly
      unfold endLine
      split
      · exact h.pop.1
      · exact h
    · rw [hopen]
      exact h
  · obtain ⟨h₁, ht₁⟩ := h.apply ht _ hproper.opening_calm
    obtain ⟨h₂, ht₂⟩ := h₁.apply ht₁ _ hproper.closing_calm
    exact h₂.apply_following ht₂ _ hproper.following_le

/-- **In an orderly state every reading returns**, and it leaves an orderly state. -/
theorem next?_returns (ref : Option Reference) {l : Lexer} (h : l.nesting.Orderly) :
    ∃ t l', l.next? ref = some (t, l') ∧ l'.nesting.Orderly := by
  fun_induction next? ref l with
  | case1 l s hr => exact ⟨_, _, rfl, h⟩
  | case2 l s c cs hr x hx => exact ⟨_, _, rfl, orderly_emit h hx⟩
  | case3 l s c cs hr hx ih => exact ih h.pop.1
  | case4 l s c cs hr hx hp ih => exact ih h.pop.1
  | case5 l s c cs hr hx hp =>
    -- a mode that can be left is an entry above the bottom
    rcases actionAt_quiet.2.1 hx with hm | hm
    · obtain ⟨f, below, hf, _⟩ := exists_frame hm (by decide)
      exact absurd (pending_pop_lt hf) hp
    · obtain ⟨f, below, hf, _⟩ := exists_frame hm (by decide)
      exact absurd (pending_pop_lt hf) hp
  | case6 l s c cs hr hx hp ih => exact ih (h.pop.1.push h.pop.2 _ _ _)
  | case7 l s c cs hr hx hp =>
    have hs : s.nesting.Orderly := h
    exact absurd (pending_operandNesting_lt hs (actionAt_quiet.2.2 hx)) hp

theorem next?_ne_none {l : Lexer} (h : l.nesting.Orderly) : l.next? ref ≠ none := by
  obtain ⟨t, l', hnext, -⟩ := next?_returns ref h
  rw [hnext]
  exact Option.some_ne_none _

theorem next?_orderly {l l' : Lexer} {t : Token} (h : l.next? ref = some (t, l'))
    (hl : l.nesting.Orderly) : l'.nesting.Orderly := by
  obtain ⟨u, m, hm, horderly⟩ := next?_returns ref hl
  rw [h] at hm
  cases hm
  exact horderly

theorem next?_consumes {l l' : Lexer} {t : Token} (h : l.next? ref = some (t, l'))
    (ht : t.kind ≠ .endOfText) : ∃ cs, cs ≠ [] ∧ l.rest = cs ++ l'.rest := by
  obtain ⟨gap, tail, hr⟩ := next?_reads h
  refine ⟨gap ++ (t.spelling.toList ++ tail), ?_, ?_⟩
  · intro he
    obtain ⟨_, he⟩ := List.append_eq_nil_iff.1 he
    exact ht (hr.spelling_eq.2 (String.toList_eq_nil_iff.1 (List.append_eq_nil_iff.1 he).1))
  · rw [hr.rest_eq]
    simp only [List.append_assoc]

/-- Readings alone never fail to return. -/
theorem session?_next_returns (ref : Option Reference) {l : Lexer} (h : l.nesting.Orderly)
    (n : Nat) :
    ∃ ts l', l.session? ref (List.replicate n .next) = some (ts, l') ∧ ts.length = n ∧
      l'.nesting.Orderly := by
  induction n generalizing l with
  | zero => exact ⟨[], l, rfl, rfl, h⟩
  | succ n ih =>
    obtain ⟨t, m, hm, hom⟩ := next?_returns ref h
    obtain ⟨ts, l', hts, hlen, hol⟩ := ih hom
    refine ⟨t :: ts, l', ?_, by rw [List.length_cons, hlen], hol⟩
    rw [List.replicate_succ]
    simp only [session?, call?, hm, Option.map_some, hts, List.singleton_append]

/-- What each reading gives from states with an invariant, all tokens of a run have. -/
theorem forall_mem_run {I : Lexer → Prop} {P : Token → Prop}
    (hstep : ∀ {l l' : Lexer} {t : Token}, l.next? ref = some (t, l') → I l → P t ∧ I l')
    {l : Lexer} (hl : I l) : ∀ t ∈ (l.run ref).1, P t := by
  fun_induction run ref l with
  | case1 => exact fun t ht => absurd ht List.not_mem_nil
  | case2 l t l' hnext hend => exact List.forall_mem_singleton.2 (hstep hnext hl).1
  | case3 l t l' hnext hmore ts last hrun ih =>
    obtain ⟨ht, hl'⟩ := hstep hnext hl
    rw [hrun] at ih
    exact List.forall_mem_cons.2 ⟨ht, ih hl'⟩

/-- All tokens of a run: finitely many readings, the last one the end of the text. -/
theorem run_complete (ref : Option Reference) {l : Lexer} (h : l.nesting.Orderly) :
    ∃ ts last, (l.run ref).1 = ts ++ [last] ∧ last.kind = .endOfText ∧
      (∀ t ∈ ts, t.kind ≠ .endOfText) ∧ ts.length ≤ l.rest.length ∧
      l.session? ref (List.replicate (ts.length + 1) .next) = some (l.run ref) := by
  fun_induction run ref l with
  | case1 l hn => exact absurd hn (next?_ne_none h)
  | case2 l t l' hn ht =>
    refine ⟨[], t, rfl, ht, by simp, Nat.zero_le _, ?_⟩
    simp [session?, call?, hn]
  | case3 l t l' hn ht ts last hrun ih =>
    obtain ⟨us, e, hus, hend, hne, hlen, hses⟩ := ih (next?_orderly hn h)
    rw [hrun] at hus hses
    have hlt := next?_progress hn ht
    refine ⟨t :: us, e, ?_, hend, ?_, ?_, ?_⟩
    · rw [show ts = us ++ [e] from hus, List.cons_append]
    · intro u hu
      rcases List.mem_cons.1 hu with rfl | hu
      · exact ht
      · exact hne u hu
    · rw [List.length_cons]
      omega
    · rw [List.length_cons, List.replicate_succ]
      simp only [session?, call?, hn, Option.map_some, hses, List.singleton_append]

end Lexer

/-- **Reading a text goes on and ends.** Every reading returns; one that is not the end of the text
takes at least one character. The tokens of a text are what so many readings give: at most one for
each character, then the end of the text, which comes once. A chosen depth below one counts as
one. -/
theorem tokenize_complete (ref : Option Reference) (limit : Int) (text : String) :
    (∀ n, ∃ ts l, (Lexer.ofText limit text).session? ref (List.replicate n .next) = some (ts, l) ∧
        ∃ t l', l.next? ref = some (t, l') ∧
          (t.kind ≠ .endOfText → ∃ cs, cs ≠ [] ∧ l.rest = cs ++ l'.rest)) ∧
      (∃ ts last, (tokenize ref limit text).1 = ts ++ [last] ∧ last.kind = .endOfText ∧
        (∀ t ∈ ts, t.kind ≠ .endOfText) ∧ (tokenize ref limit text).1.length ≤ text.length + 1 ∧
        (Lexer.ofText limit text).session? ref (List.replicate (ts.length + 1) .next) =
          some (tokenize ref limit text)) ∧
      Lexer.ofText limit text = Lexer.ofText (max limit 1) text := by
  have h : (Lexer.ofText limit text).nesting.Orderly := Nesting.orderly_ofLimit limit
  refine ⟨?_, ?_, ?_⟩
  · intro n
    obtain ⟨ts, l, hts, _, hl⟩ := Lexer.session?_next_returns ref h n
    obtain ⟨t, l', ht, _⟩ := Lexer.next?_returns ref hl
    exact ⟨ts, l, hts, t, l', ht, Lexer.next?_consumes ht⟩
  · obtain ⟨ts, last, hts, hend, hne, hlen, hses⟩ := Lexer.run_complete ref h
    refine ⟨ts, last, hts, hend, hne, ?_, hses⟩
    rw [show (tokenize ref limit text).1 = ts ++ [last] from hts, List.length_append,
      ← String.length_toList]
    exact Nat.succ_le_succ hlen
  · simp [Lexer.ofText, Nesting.ofLimit, depthBound]

end Asm6510
