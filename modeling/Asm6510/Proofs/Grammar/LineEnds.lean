import Asm6510.Proofs.Grammar.Origins
import Mathlib

/-!
# Values at the end of a line

The tokens of a text do not tell where its lines end, and a value goes on with the next line where
the tokens around the end of the line ask for it.

* `Expr.tokens`: the tokens of an expression; `Expr.addresses`: those that stand for the current
  address.
* `goesOn`: the kinds of tokens that go on with a value or close a part of it.
* `Break`: two neighbours among the tokens with the end of a line between them.
* `Shy`, `Kept`: no value was taken from behind the end of the line, unless an operator stands
  there.

Main statement: `parse_value_line`, a value stays on the line of its statement if that line does not
end in a token that a value has to stand behind, and the next one does not start with a token that
goes on with a value.
-/

namespace Asm6510

variable {t : Token} {e : Expr}

namespace Expr

mutual

def tokens : Expr → List Token
  | missing => []
  | identifier t _ => [t]
  | integer t _ => [t]
  | string t _ => [t]
  | unary op e => op :: tokens e
  | binary op l r => tokens l ++ op :: tokens r
  | indexed comma e register => tokens e ++ [comma, register]
  | group opening e => opening :: tokens e
  | call t f args => tokens f ++ t :: allTokens args
  | array t es => t :: allTokens es
  | programCounter t => [t]

def allTokens : List Expr → List Token
  | [] => []
  | e :: es => tokens e ++ allTokens es

end

mutual

/-- The tokens of an expression that stand for the current address. -/
def addresses : Expr → List Token
  | missing => []
  | identifier _ _ => []
  | integer _ _ => []
  | string _ _ => []
  | unary _ e => addresses e
  | binary _ l r => addresses l ++ addresses r
  | indexed _ e _ => addresses e
  | group _ e => addresses e
  | call _ f args => addresses f ++ allAddresses args
  | array _ es => allAddresses es
  | programCounter t => [t]

/-- The tokens of several expressions that stand for the current address. -/
def allAddresses : List Expr → List Token
  | [] => []
  | e :: es => addresses e ++ allAddresses es

end

theorem mem_allTokens {es : List Expr} : t ∈ allTokens es ↔ ∃ e ∈ es, t ∈ e.tokens := by
  induction es with
  | nil => simp [allTokens]
  | cons e es ih => simp [allTokens, ih]

theorem mem_allAddresses {es : List Expr} : t ∈ allAddresses es ↔ ∃ e ∈ es, t ∈ e.addresses := by
  induction es with
  | nil => simp [allAddresses]
  | cons e es ih => simp [allAddresses, ih]

theorem From.tokens_subset {ts : List Token} (h : e.From ts) : e.tokens ⊆ ts := by
  induction h with
  | missing => exact List.nil_subset _
  | identifier ht => simpa [tokens] using ht.1
  | integer ht | string ht | programCounter ht => simpa [tokens] using ht
  | unary ht _ ih | group ht _ ih => exact List.cons_subset.2 ⟨ht, ih⟩
  | binary ht _ _ ihl ihr => exact List.append_subset.2 ⟨ihl, List.cons_subset.2 ⟨ht, ihr⟩⟩
  | indexed ht _ hr ih =>
    exact List.append_subset.2 ⟨ih, List.cons_subset.2 ⟨ht, List.cons_subset.2 ⟨hr.1,
      List.nil_subset _⟩⟩⟩
  | call ht _ _ ihf ihargs =>
    refine List.append_subset.2 ⟨ihf, List.cons_subset.2 ⟨ht, fun t h => ?_⟩⟩
    obtain ⟨e, he, h⟩ := mem_allTokens.1 h
    exact ihargs e he h
  | array ht _ ihes =>
    refine List.cons_subset.2 ⟨ht, fun t h => ?_⟩
    obtain ⟨e, he, h⟩ := mem_allTokens.1 h
    exact ihes e he h

end Expr

namespace Grammar

/-- Kinds of tokens that go on with a value or close a part of it. -/
def goesOn (kind : TokenKind) : Bool :=
  lowest < level kind || kind == .comma || kind == .rightParen || kind == .rightBracket

theorem goesOn_of_lowest_lt_level {kind : TokenKind} (h : lowest < level kind) :
    goesOn kind = true := by
  simp [goesOn, h]

/-- Among the tokens of the source, `a` ends a line, and `b` is next and does not go on with a
value. -/
structure Break (src : Source) (front : List Token) (a b : Token) (rest : List Token) : Prop where
  tokens_eq : src.tokens = front ++ a :: b :: rest
  nodup : src.tokens.Nodup
  line_ne : b.place.line ≠ a.place.line
  stops : goesOn b.kind = false

section Break

variable {src : Source} {front rest : List Token} {a b : Token} {s : State}

/-- A state that has not left the line behind. -/
theorem Break.state_cases (hb : Break src front a b rest) (hs : s.Within src)
    (ha : a ∈ s.tokens) : ∃ before, before <:+ front ∧ s.tokens = before ++ a :: b :: rest := by
  have hsuffix : s.tokens <:+ front ++ a :: b :: rest := hb.tokens_eq ▸ hs
  rcases List.suffix_or_suffix_of_suffix hsuffix (List.suffix_append front (a :: b :: rest)) with
    h | h
  · rcases List.suffix_cons_iff.1 h with h | h
    · exact ⟨[], List.nil_suffix, h⟩
    · -- behind the break the token does not occur again
      have hnodup : (a :: b :: rest).Nodup :=
        (hb.tokens_eq ▸ hb.nodup).sublist (List.sublist_append_right front _)
      exact absurd (h.subset ha) (List.nodup_cons.1 hnodup).1
  · obtain ⟨before, hbefore⟩ := h
    refine ⟨before, ?_, hbefore.symm⟩
    rw [← hbefore] at hsuffix
    exact List.suffix_append_self_iff.1 hsuffix

theorem Break.current_mem (hb : Break src front a b rest) (hs : s.Within src)
    (ha : a ∈ s.tokens) : s.current ∈ front ++ [a] := by
  obtain ⟨before, hbefore, htokens⟩ := hb.state_cases hs ha
  cases before with
  | nil =>
    have hcurrent : s.current = a := (List.cons.inj htokens).1
    simp [hcurrent]
  | cons t ts =>
    have hcurrent : s.current = t := (List.cons.inj htokens).1
    exact List.mem_append_left _ (hcurrent ▸ hbefore.subset List.mem_cons_self)

theorem Break.peek_eq (hb : Break src front a b rest) (hs : s.Within src) (ha : s.current = a) :
    s.peek = b := by
  have hmem : a ∈ s.tokens := ha ▸ List.mem_cons_self
  obtain ⟨before, hbefore, htokens⟩ := hb.state_cases hs hmem
  cases before with
  | nil => exact State.peek_of_cons (List.cons.inj htokens).2
  | cons t ts =>
    have ht : t = a := (List.cons.inj htokens).1.symm.trans ha
    have hnodup : (t :: ts ++ a :: b :: rest).Nodup := htokens ▸ hb.nodup.sublist hs.sublist
    exact absurd (by simp [ht]) (List.nodup_cons.1 hnodup).1

/-- Behind the end of the line no token is one before it. -/
theorem Break.not_mem (hb : Break src front a b rest) (hs : s.Within src) (ha : a ∉ s.tokens)
    (ht : t ∈ s.tokens) : t ∉ front ++ [a] := by
  have hsuffix : s.tokens <:+ (front ++ [a]) ++ b :: rest := by
    rw [List.append_assoc, List.singleton_append, ← hb.tokens_eq]
    exact hs
  have hbehind : s.tokens <:+ b :: rest := by
    rcases List.suffix_or_suffix_of_suffix hsuffix (List.suffix_append _ (b :: rest)) with h | h
    · exact h
    · obtain ⟨before, hbefore⟩ := h
      rw [← hbefore, List.suffix_append_self_iff] at hsuffix
      rcases List.eq_nil_or_concat before with rfl | ⟨xs, x, rfl⟩
      · exact hbefore ▸ List.suffix_rfl
      · obtain ⟨ys, hys⟩ := hsuffix
        have hx : x = a := by simpa using congrArg List.getLast? hys
        exact absurd (by rw [← hbefore, hx]; simp) ha
  have hnodup : ((front ++ [a]) ++ b :: rest).Nodup := by
    rw [List.append_assoc, List.singleton_append, ← hb.tokens_eq]
    exact hb.nodup
  exact fun hfront => (List.nodup_append.1 hnodup).2.2 t hfront t (hbehind.subset ht) rfl

theorem Break.not_mem_advance (hb : Break src front a b rest) (hs : s.Within src)
    (ha : s.current = a) : a ∉ s.advance.tokens := by
  have hnodup : (s.current :: s.ahead).Nodup := hb.nodup.sublist hs.sublist
  have hpeek := hb.peek_eq hs ha
  cases hahead : s.ahead with
  | nil =>
    rw [State.peek_of_nil hahead, ha] at hpeek
    exact absurd (congrArg (·.place.line) hpeek.symm) hb.line_ne
  | cons u us =>
    have hbehind := (List.nodup_cons.1 hnodup).1
    rw [hahead, ha] at hbehind
    rw [State.advance_of_cons hahead]
    exact hbehind

theorem State.mem_advance (ht : t ∈ s.tokens) (hne : s.current ≠ t) : t ∈ s.advance.tokens := by
  cases ha : s.ahead with
  | nil => rwa [State.advance_of_nil ha]
  | cons u us =>
    rw [State.advance_of_cons ha]
    have hmem := (List.mem_cons.1 ht).resolve_left fun h => hne h.symm
    rwa [ha] at hmem

theorem State.tokens_advance_suffix (s : State) : s.advance.tokens <:+ s.tokens := by
  have hrun : Run ⟨s.tokens, none⟩ true s s.advance := run_advance s
  exact hrun.suffix

end Break

/-! ## Values before the end of a line -/

/-- The parse goes over the end of the line only behind a token that a value has to stand behind,
and `G` holds as long as it has not. -/
structure Shy (src : Source) (a : Token) (G : Prop) (s : State) : Prop where
  within : s.Within src
  before : expectsValue a.kind = false → a ∈ s.tokens
  held : a ∈ s.tokens → G

/-- The expressions were read: as long as the end of the line is ahead they are made of tokens
before it, and behind it none of them has its last token for the current address. -/
structure Kept (src : Source) (front : List Token) (a : Token) (G : Prop) (es : List Expr)
    (s : State) : Prop where
  shy : Shy src a (G ∧ ∀ e ∈ es, e.From (front ++ [a])) s
  clear : s.current ≠ a → ∀ e ∈ es, a ∉ e.addresses

/-- The parser of a value keeps before the end of the line. -/
def KeepsLine (src : Source) (front : List Token) (a : Token) (p : Parser Expr) : Prop :=
  ∀ G, Ensures (Shy src a G) p fun e => Kept src front a G [e]

section Values

variable {src : Source} {front rest : List Token} {a b : Token} {s s' : State} {G P : Prop}
  {es : List Expr} {e : Expr}

theorem Shy.mono (h : Shy src a G s) (hGP : G → P) : Shy src a P s :=
  ⟨h.within, h.before, fun ha => hGP (h.held ha)⟩

theorem Shy.of_tokens (h : Shy src a G s) (htokens : s'.tokens = s.tokens) : Shy src a G s' :=
  ⟨by rw [State.Within, htokens]; exact h.within, by rw [htokens]; exact h.before,
    by rw [htokens]; exact h.held⟩

theorem Shy.current (hb : Break src front a b rest) (h : Shy src a G s) :
    Shy src a (G ∧ s.current ∈ front ++ [a]) s :=
  ⟨h.within, h.before, fun ha => ⟨h.held ha, hb.current_mem h.within ha⟩⟩

theorem Shy.advance_of_ne (h : Shy src a G s) (hne : expectsValue a.kind = false → s.current ≠ a) :
    Shy src a G s.advance :=
  ⟨h.within.advance, fun ha => State.mem_advance (h.before ha) (hne ha),
    fun ha => h.held (s.tokens_advance_suffix.subset ha)⟩

/-- Moving on from a token that a value has to stand behind. -/
theorem Shy.past (h : Shy src a G s) (hk : expectsValue s.current.kind = true) :
    Shy src a G s.advance := by
  refine h.advance_of_ne fun ha hcurrent => ?_
  rw [hcurrent, ha] at hk
  cases hk

theorem Kept.nil (h : Shy src a G s) : Kept src front a G [] s :=
  ⟨h.mono fun hG => ⟨hG, fun _ he => absurd he List.not_mem_nil⟩,
    fun _ _ he => absurd he List.not_mem_nil⟩

theorem Kept.start (h : Kept src front a G es s) : Shy src a G s :=
  h.shy.mono And.left

/-- Moving onto a token that goes on: it is not behind the end of the line, so all that was read is
settled. -/
theorem Kept.onto (hb : Break src front a b rest) (h : Kept src front a G es s)
    (hk : goesOn s.peek.kind = true) :
    Shy src a (G ∧ ∀ e ∈ es, e.From (front ++ [a])) s.advance ∧ ∀ e ∈ es, a ∉ e.addresses := by
  have hne : s.current ≠ a := by
    intro hcurrent
    rw [hb.peek_eq h.shy.within hcurrent, hb.stops] at hk
    cases hk
  exact ⟨h.shy.advance_of_ne fun _ => hne, h.clear hne⟩

theorem Kept.advance (hb : Break src front a b rest) (h : Kept src front a G es s)
    (hk : goesOn s.peek.kind = true) : Kept src front a G es s.advance :=
  ⟨(h.onto hb hk).1, fun _ => (h.onto hb hk).2⟩

/-- A node of what was read and of tokens before the end of the line. -/
theorem Kept.node (h : Kept src front a (G ∧ P) es s)
    (hfrom : P → (∀ e ∈ es, e.From (front ++ [a])) → e.From (front ++ [a]))
    (haddresses : a ∈ e.addresses → ∃ x ∈ es, a ∈ x.addresses) : Kept src front a G [e] s := by
  refine ⟨h.shy.mono fun hG => ⟨hG.1.1, List.forall_mem_singleton.2 (hfrom hG.1.2 hG.2)⟩, ?_⟩
  intro hne x hx hmem
  rw [List.mem_singleton.1 hx] at hmem
  obtain ⟨y, hy, hmem⟩ := haddresses hmem
  exact h.clear hne y hy hmem

theorem Kept.missing (h : Shy src a G s) : Kept src front a G [.missing] s :=
  ⟨h.mono fun hG => ⟨hG, List.forall_mem_singleton.2 .missing⟩,
    fun _ => List.forall_mem_singleton.2 List.not_mem_nil⟩

/-- One more expression, behind those that are settled. -/
theorem KeepsLine.more {p : Parser Expr} (hp : KeepsLine src front a p) :
    Ensures (fun s => Shy src a (G ∧ ∀ e ∈ es, e.From (front ++ [a])) s ∧
      ∀ e ∈ es, a ∉ e.addresses) p fun e => Kept src front a G (es ++ [e]) := by
  rintro s ⟨hs, hclear⟩
  have h := hp _ s hs
  refine ⟨h.shy.mono fun hG => ⟨hG.1.1, List.forall_mem_append.2 ⟨hG.1.2, hG.2⟩⟩, fun hne => ?_⟩
  exact List.forall_mem_append.2 ⟨hclear, h.clear hne⟩

theorem Kept.toList (h : Kept src front a G (es ++ [e]) s) :
    Kept src front a G (es ++ e.toList) s := by
  have hsubset : es ++ e.toList ⊆ es ++ [e] := by
    refine List.append_subset.2 ⟨List.subset_append_left _ _, fun x hx => ?_⟩
    unfold Expr.toList at hx
    split at hx
    · exact absurd hx List.not_mem_nil
    · exact List.mem_append_right _ hx
  exact ⟨h.shy.mono fun hG => ⟨hG.1, fun x hx => hG.2 x (hsubset hx)⟩,
    fun hne x hx => h.clear hne x (hsubset hx)⟩

end Values

/-! ## The parsers of values -/

section Parsers

variable {src : Source} {front rest : List Token} {a b : Token} {G : Prop} {es : List Expr}
  {sub : Parser Expr} {s : State}

/-- What cannot be read is reported, which moves nothing. -/
theorem keepsLine_unread (message : String) :
    KeepsLine src front a (do reportHere message; return Expr.missing) :=
  fun _ s hs => Kept.missing (hs.of_tokens (s.grows_reportAt s.current message).tokens_eq)

variable (hb : Break src front a b rest)
include hb

theorem shy_skipLine (line : Nat) (s : State) (hs : Shy src a G s)
    (hline : s.current.place.line = line) : Shy src a G (skipLineRun line s).1 := by
  induction s using State.left_induction with
  | _ s ih =>
    cases ha : s.ahead with
    | nil => rwa [skipLineRun_nil ha]
    | cons t ts =>
      rw [skipLineRun_cons ha]
      split
      · rename_i hnext
        have hpeek : s.advance.current.place.line = line := by
          rw [s.current_advance_eq, State.peek_of_cons ha, hnext.1]
        have hne : s.current ≠ a := by
          intro hcurrent
          have hnextline := hb.peek_eq hs.within hcurrent
          rw [← s.current_advance_eq] at hnextline
          exact hb.line_ne (by rw [← hnextline, hpeek, ← hline, hcurrent])
        exact ih _ (State.left_advance_lt ha) (hs.advance_of_ne fun _ => hne) hpeek
      · exact hs

theorem keepsLine_depthExceeded (rules : Rules) :
    KeepsLine src front a (depthExceeded rules) := by
  intro G s hs
  have hreported := hs.of_tokens (s.grows_reportDepth rules s.current.place).tokens_eq
  refine Kept.missing (shy_skipLine hb s.current.place.line _ (hreported.of_tokens rfl) ?_)
  exact congrArg (·.place.line) (s.grows_reportDepth rules s.current.place).current_eq

theorem kept_leaf (hs : Shy src a G s) (hfrom : s.current ∈ front ++ [a] → e.From (front ++ [a]))
    (haddresses : a ∈ e.addresses → s.current = a) : Kept src front a G [e] s := by
  refine ⟨(hs.current hb).mono fun hG => ⟨hG.1, List.forall_mem_singleton.2 (hfrom hG.2)⟩, ?_⟩
  exact fun hne => List.forall_mem_singleton.2 fun hmem => hne (haddresses hmem)

theorem keepsLine_integerLiteral (radix : Radix) (t : Token) :
    Ensures (fun s => s.current = t ∧ Shy src a G s) (integerLiteral radix t)
      fun e => Kept src front a G [e] := by
  unfold integerLiteral
  split
  · exact Ensures.pure fun s hs =>
      kept_leaf hb hs.2 (fun ht => .integer (hs.1 ▸ ht) _) fun h => absurd h List.not_mem_nil
  · exact (keepsLine_unread _ G).pre fun _ hs => hs.2
  · exact fun s hs => Kept.missing (hs.2.of_tokens s.grows_noteUnbounded.tokens_eq)

/-- The closing mark of a value, whose absence is reported. -/
theorem kept_closing {kind : TokenKind} (hk : goesOn kind = true) (message : String) (e : Expr) :
    Ensures (Kept src front a G [e]) (do
      if ← nextIs kind then
        let _ ← advance
        return e
      else
        reportHere message
        return Expr.missing) fun e => Kept src front a G [e] := by
  refine Ensures.ifNext ?_ ?_
  · exact Ensures.advance_pure fun s hs => hs.2.advance hb (by rw [hs.1]; exact hk)
  · exact (keepsLine_unread message G).pre fun _ hs => hs.start

/-- One more value, behind the comma that is the current token, unless the list stops there. -/
theorem kept_listed (hsub : KeepsLine src front a sub) (stop : Token → Prop) [DecidablePred stop]
    (acc : List Expr) :
    Ensures (fun s' => ∃ s, Kept src front a G acc s ∧ s.ahead ≠ [] ∧ s.peek.kind = .comma ∧
        s' = s.advance)
      (do
        let t ← advance
        if stop t then return none
        else
          let e ← sub
          return some e.toList)
      (Turn (Kept src front a G) (Kept src front a G) acc) := by
  refine Ensures.advance (M := fun _ s =>
    Shy src a (G ∧ ∀ e ∈ acc, e.From (front ++ [a])) s ∧ ∀ e ∈ acc, a ∉ e.addresses) ?_
    fun t => ?_
  · rintro _ ⟨s, hs, -, hcomma, rfl⟩
    obtain ⟨hshy, hclear⟩ := hs.onto hb (by rw [hcomma]; rfl)
    exact ⟨hshy.past (by rw [s.current_advance_eq, hcomma]; rfl), hclear⟩
  · split
    · exact Ensures.pure fun s hs => ⟨hs.1, fun _ => hs.2⟩
    · exact hsub.more.bind fun e => Ensures.pure fun s hs => hs.toList

theorem kept_arguments (hsub : KeepsLine src front a sub) :
    Ensures (fun s => s.current.kind = .leftParen ∧
      Shy src a (G ∧ ∀ e ∈ es, e.From (front ++ [a])) s ∧ ∀ e ∈ es, a ∉ e.addresses)
      (arguments sub) fun args => Kept src front a G (es ++ args) := by
  refine Ensures.ifNext ?_ ?_
  · refine Ensures.advance_pure fun s hs => ?_
    rw [List.append_nil]
    exact Kept.advance hb ⟨hs.2.2.1, fun _ => hs.2.2.2⟩ (by rw [hs.1]; rfl)
  · refine Ensures.advance (M := fun _ s =>
      Shy src a (G ∧ ∀ e ∈ es, e.From (front ++ [a])) s ∧ ∀ e ∈ es, a ∉ e.addresses) ?_
      fun _ => ?_
    · exact fun s hs => ⟨hs.2.1.past (by rw [hs.1]; rfl), hs.2.2⟩
    · refine hsub.more.bind fun first => ?_
      have hloop := ensures_whileNext
        (fun acc => kept_listed (G := G) hb hsub (·.kind = .rightParen) acc) (es ++ first.toList)
      refine (hloop.pre fun s hs => hs.toList).bind fun r => ?_
      have hall : Ensures (Kept src front a G (es ++ first.toList ++ r.1)) (do
          if r.2 then return first.toList ++ r.1
          else
            if ← nextIs .rightParen then
              let _ ← advance
              return first.toList ++ r.1
            else
              return first.toList ++ r.1)
          fun args => Kept src front a G (es ++ args) := by
        split
        · exact Ensures.pure fun s hs => List.append_assoc es _ _ ▸ hs
        · refine Ensures.ifNext ?_ ?_
          · exact Ensures.advance_pure fun s hs =>
              List.append_assoc es _ _ ▸ hs.2.advance hb (by rw [hs.1]; rfl)
          · exact Ensures.pure fun s hs => List.append_assoc es _ _ ▸ hs
      exact hall.pre fun s hs => by simpa using hs

/-- An expression behind an opening mark or an operator that is the current token. -/
theorem kept_inner (hsub : KeepsLine src front a sub) {β : Type} {f : Expr → Parser β}
    {Q : β → State → Prop} (hk : expectsValue t.kind = true)
    (hf : ∀ e, Ensures (Kept src front a (G ∧ t ∈ front ++ [a]) [e]) (f e) Q) :
    Ensures (fun s => s.current = t ∧ Shy src a G s) (do let _ ← advance; let e ← sub; f e) Q := by
  refine Ensures.advance (M := fun _ => Shy src a (G ∧ t ∈ front ++ [a])) ?_ fun _ => ?_
  · rintro s ⟨rfl, hs⟩
    exact (hs.current hb).past hk
  · exact (hsub _).bind hf

theorem kept_bracketed (hsub : KeepsLine src front a sub) {opening : Token}
    (hk : opening.kind = .leftBracket) :
    Ensures (fun s => s.current = opening ∧ Shy src a G s) (bracketed sub opening)
      fun e => Kept src front a G [e] := by
  refine kept_inner hb hsub (by rw [hk]; rfl) fun inner => ?_
  refine (kept_closing hb rfl _ _).pre fun s hs => hs.node (fun ht he => ?_) fun h => ?_
  · exact .group ht (he inner (List.mem_singleton_self _))
  · exact ⟨inner, List.mem_singleton_self _, h⟩

theorem kept_grouped (hsub : KeepsLine src front a sub) {opening : Token}
    (hk : opening.kind = .leftParen) :
    Ensures (fun s => s.current = opening ∧ Shy src a G s) (grouped sub opening)
      fun e => Kept src front a G [e] := by
  refine kept_inner hb hsub (by rw [hk]; rfl) fun inner => ?_
  have hinner : inner ∈ [inner] := List.mem_singleton_self _
  refine Ensures.ifNext ?_ ?_
  · -- behind the comma the inner expression is settled
    refine Ensures.advance (M := fun comma s => s.current = comma ∧ comma.kind = .comma ∧
      Shy src a ((G ∧ opening ∈ front ++ [a]) ∧ ∀ e ∈ [inner], e.From (front ++ [a])) s ∧
      ∀ e ∈ [inner], a ∉ e.addresses) ?_ fun comma => ?_
    · rintro s ⟨hcomma, hs⟩
      exact ⟨rfl, by rw [s.current_advance_eq, hcomma], hs.onto hb (by rw [hcomma]; rfl)⟩
    · refine Ensures.peek fun next => ?_
      split
      · rename_i hregister
        refine Ensures.advance (M := fun register => Kept src front a G
          [.group opening (.indexed comma inner register)]) ?_ fun register => ?_
        · rintro s ⟨hnext, hcurrent, hcomma, hshy, hclear⟩
          have hexpects : expectsValue s.current.kind = true := by
            rw [hcurrent, hcomma]
            rfl
          have hname : s.advance.current.kind.isName = true := by
            rw [s.current_advance_eq, hnext]
            exact isName_of_isIndexRegister hregister
          have hpast := ((hshy.current hb).past hexpects).current hb
          refine ⟨hpast.mono fun hG => ⟨hG.1.1.1.1, ?_⟩, fun _ => ?_⟩
          · refine List.forall_mem_singleton.2 (.group hG.1.1.1.2 (.indexed ?_ ?_ ⟨hG.2, hname⟩))
            · exact hcurrent ▸ hG.1.2
            · exact hG.1.1.2 inner hinner
          · exact List.forall_mem_singleton.2 (hclear inner hinner)
        · exact kept_closing hb rfl _ _
      · dsimp only
        split
        · exact (Ensures.pure (b := comma) (Q := fun _ => Shy src a G) fun s hs =>
            hs.2.2.2.1.mono fun hG => hG.1.1).bind fun _ => keepsLine_unread _ G
        · refine Ensures.advance (M := fun _ => Shy src a G) ?_ fun _ => keepsLine_unread _ G
          rintro s ⟨-, hcurrent, hcomma, hshy, -⟩
          exact (hshy.mono fun hG => hG.1.1).past (by rw [hcurrent, hcomma]; rfl)
  · refine (kept_closing hb rfl _ _).pre fun s hs => hs.node (fun ht he => ?_) fun h => ?_
    · exact .group ht (he inner hinner)
    · exact ⟨inner, hinner, h⟩

theorem kept_builtinCall (hsub : KeepsLine src front a sub) {name : Token}
    (hk : name.kind.isName = true) :
    Ensures (fun s => s.current = name ∧ Shy src a G s) (builtinCall sub name)
      fun e => Kept src front a G [e] := by
  refine Ensures.ifNext ?_ ((keepsLine_unread _ G).pre fun _ hs => hs.2)
  refine Ensures.advance (M := fun _ s => s.current.kind = .leftParen ∧
    Shy src a ((G ∧ name ∈ front ++ [a]) ∧ ∀ e ∈ [], Expr.From (front ++ [a]) e) s ∧
    ∀ e ∈ [], a ∉ Expr.addresses e) ?_ fun _ => ?_
  · rintro s ⟨hopened, rfl, hs⟩
    exact ⟨by rw [s.current_advance_eq, hopened],
      (Kept.nil (hs.current hb)).onto hb (by rw [hopened]; rfl)⟩
  · refine (kept_arguments hb hsub).bind fun args => Ensures.pure fun s hs => ?_
    refine Kept.node hs (fun ht hargs => .call ht (.ofName ⟨ht, hk⟩) hargs) fun h => ?_
    exact Expr.mem_allAddresses.1 h

theorem keepsLine_operand {sub : Nat → Parser Expr}
    (hsub : ∀ n, lowest ≤ n → KeepsLine src front a (sub n)) :
    KeepsLine src front a (operand sub) := by
  intro G
  have hlowest := hsub lowest (Nat.le_refl _)
  refine Ensures.current fun t => ?_
  have hnone : ∀ {e : Expr} {s : State}, e.addresses = [] → a ∈ e.addresses → s.current = a :=
    fun h hmem => absurd (h ▸ hmem) List.not_mem_nil
  split
  · rename_i hk
    exact Ensures.pure fun s hs =>
      kept_leaf hb hs.2 (fun ht => .ofName ⟨hs.1 ▸ ht, by rw [hk]; rfl⟩) (hnone rfl)
  · rename_i hk
    exact Ensures.pure fun s hs =>
      kept_leaf hb hs.2 (fun ht => .ofName ⟨hs.1 ▸ ht, by rw [hk]; rfl⟩) (hnone rfl)
  · exact keepsLine_integerLiteral hb _ t
  · exact Ensures.pure fun s hs => kept_leaf hb hs.2 (fun ht => .string (hs.1 ▸ ht) _) (hnone rfl)
  · refine Ensures.pure fun s hs => kept_leaf hb hs.2 (fun ht => .programCounter (hs.1 ▸ ht)) ?_
    exact fun h => hs.1.trans (List.mem_singleton.1 h).symm
  · rename_i hk
    exact kept_grouped hb hlowest hk
  · rename_i hk
    exact kept_bracketed hb hlowest hk
  · rename_i hk
    exact kept_builtinCall hb hlowest (by rw [hk]; rfl)
  · exact (keepsLine_unread _ G).pre fun _ hs => hs.2
  · split
    · rename_i hprefix
      refine kept_inner hb (hsub prefixLevel (by decide))
        (prefix_of_isPrefixOperator hprefix).2 fun e => ?_
      refine Ensures.pure fun s hs => hs.node (fun ht he => ?_) fun h => ?_
      · exact .unary ht (he e (List.mem_singleton_self _))
      · exact ⟨e, List.mem_singleton_self _, h⟩
    · exact (keepsLine_unread _ G).pre fun _ hs => hs.2

/-- An operator and what is behind it: only here the parse may go over the end of the line, and then
what was read before is settled. -/
theorem kept_operatorTail {sub : Nat → Parser Expr}
    (hsub : ∀ n, lowest ≤ n → KeepsLine src front a (sub n)) (left : Expr) :
    Ensures (fun s => lowest < level s.current.kind ∧
      Shy src a (G ∧ ∀ e ∈ [left], e.From (front ++ [a])) s ∧ ∀ e ∈ [left], a ∉ e.addresses)
      (operatorTail sub left) fun e => Kept src front a G [e] := by
  refine Ensures.current fun op => ?_
  have hop : ∀ s, s.current = op → Shy src a (G ∧ ∀ e ∈ [left], e.From (front ++ [a])) s →
      Shy src a ((G ∧ op ∈ front ++ [a]) ∧ ∀ e ∈ [left], e.From (front ++ [a])) s := by
    rintro s rfl hs
    exact (hs.current hb).mono fun hG => ⟨⟨hG.1.1, hG.2⟩, hG.1.2⟩
  split
  · rename_i hk
    refine ((kept_arguments hb (hsub lowest (Nat.le_refl _))).pre fun s hs =>
      ⟨by rw [hs.1, hk], hop s hs.1 hs.2.2.1, hs.2.2.2⟩).bind fun args => ?_
    refine Ensures.pure fun s hs => Kept.node hs (fun ht hall => ?_) fun h => ?_
    · obtain ⟨hleft, hargs⟩ := List.forall_mem_cons.1 hall
      exact .call ht hleft hargs
    · rcases List.mem_append.1 h with h | h
      · exact ⟨left, List.mem_cons_self, h⟩
      · obtain ⟨x, hx, h⟩ := Expr.mem_allAddresses.1 h
        exact ⟨x, List.mem_cons_of_mem _ hx, h⟩
  · refine Ensures.advance (M := fun _ s =>
      Shy src a ((G ∧ op ∈ front ++ [a]) ∧ ∀ e ∈ [left], e.From (front ++ [a])) s ∧
      ∀ e ∈ [left], a ∉ e.addresses) ?_ fun _ => ?_
    · exact fun s hs => ⟨(hop s hs.1 hs.2.2.1).past (operator_of_lowest_lt_level hs.2.1).2,
        hs.2.2.2⟩
    · refine (hsub _ (lowest_le_level op.kind)).more.bind fun right => Ensures.pure fun s hs => ?_
      refine Kept.node hs (fun ht hall => ?_) fun h => ?_
      · obtain ⟨hleft, hright⟩ := List.forall_mem_cons.1 hall
        exact .binary ht hleft (hright right (List.mem_singleton_self _))
      · rcases List.mem_append.1 h with h | h
        · exact ⟨left, List.mem_cons_self, h⟩
        · exact ⟨right, List.mem_cons_of_mem _ (List.mem_singleton_self _), h⟩

theorem kept_operators {sub : Nat → Parser Expr}
    (hsub : ∀ n, lowest ≤ n → KeepsLine src front a (sub n)) {least : Nat}
    (hleast : lowest ≤ least) (left : Expr) :
    Ensures (Kept src front a G [left]) (operators sub least left)
      fun e => Kept src front a G [e] := by
  refine (ensures_operators (I := fun e => Kept src front a G [e]) (fun e => ?_) left).post
    fun _ _ h => h.1
  refine (kept_operatorTail hb hsub e).pre ?_
  rintro _ ⟨s, hs, -, -, hlevel, rfl⟩
  have hlevel := Nat.lt_of_le_of_lt hleast hlevel
  exact ⟨s.current_advance_eq ▸ hlevel, hs.onto hb (goesOn_of_lowest_lt_level hlevel)⟩

/-- **Expressions keep before the end of the line.** -/
theorem keepsLine_expression (rules : Rules) (room : Nat) {least : Nat} (hleast : lowest ≤ least) :
    KeepsLine src front a (expression rules room least) := by
  induction room generalizing least with
  | zero => exact keepsLine_depthExceeded hb rules
  | succ room ih =>
    intro G
    refine (keepsLine_operand hb (fun n => ih) G).bind fun left => ?_
    exact kept_operators hb (fun n => ih) hleast left

theorem kept_indexedOperand (operand : Expr) :
    Ensures (Kept src front a G [operand]) (indexedOperand operand)
      fun e => Kept src front a G [e] := by
  intro s hs
  let indexed : Parser Expr := advance >>= fun comma => advance >>= fun register =>
    pure (.indexed comma operand register)
  have hcases : (indexedOperand operand).run s =
      (if s.peek.kind = .comma && isIndexRegister s.peekSecond then indexed
      else pure operand).run s := rfl
  rw [hcases]
  split
  · rename_i hindex
    obtain ⟨hcomma, hregister⟩ := Bool.and_eq_true_iff.1 hindex
    have hcomma : s.peek.kind = .comma := of_decide_eq_true hcomma
    have hname := isName_of_isIndexRegister hregister
    rw [← State.advance_advance_current] at hname
    have hmember : operand ∈ [operand] := List.mem_singleton_self _
    obtain ⟨hshy, hclear⟩ := hs.onto hb (by rw [hcomma]; rfl)
    have hexpects : expectsValue s.advance.current.kind = true := by
      rw [s.current_advance_eq, hcomma]
      rfl
    have hpast := ((hshy.current hb).past hexpects).current hb
    refine ⟨hpast.mono fun hG => ⟨hG.1.1.1, ?_⟩, fun _ => ?_⟩
    · exact List.forall_mem_singleton.2
        (.indexed hG.1.2 (hG.1.1.2 operand hmember) ⟨hG.2, hname⟩)
    · exact List.forall_mem_singleton.2 (hclear operand hmember)
  · exact hs

theorem Shy.onto (h : Shy src a G s) (hk : goesOn s.peek.kind = true) : Shy src a G s.advance := by
  have hnone : Kept src front a G [] s := Kept.nil h
  exact (hnone.advance hb hk).start

theorem Shy.along (h : Shy src a G s) (hline : s.peek.place.line = s.current.place.line) :
    Shy src a G s.advance := by
  refine h.advance_of_ne fun _ hcurrent => hb.line_ne ?_
  rw [← hb.peek_eq h.within hcurrent, hline, hcurrent]

end Parsers

end Grammar

/-! ## Statements -/

/-- The value of a directive that may stand on its line. -/
def Directive.lineValue? (d : Directive) : Option Expr :=
  match d.form with
  | .named => some d.value
  | .generic => some d.value
  | .data => some d.value
  | _ => none

/-- The operand or the value of a statement that may stand on its line. -/
def Statement.lineValue? : Statement → Option Expr
  | instruction _ operand => some operand
  | directive d => d.lineValue?
  | directiveBlock d _ _ _ => d.lineValue?
  | _ => none

theorem Statement.lineValue?_ofDirective (d : Directive) (b : Option Braces) :
    (ofDirective d b).lineValue? = d.lineValue? := by
  cases b <;> rfl

theorem Directive.eq_of_lineValue? {d : Directive} (h : d.lineValue? = some e) : e = d.value := by
  unfold lineValue? at h
  split at h
  · exact (Option.some.inj h).symm
  · exact (Option.some.inj h).symm
  · exact (Option.some.inj h).symm
  · cases h

theorem Statement.From.lineValue {ts : List Token} {st : Statement} (h : st.From ts)
    (he : st.lineValue? = some e) : e.From ts := by
  cases st with
  | instruction t operand => exact Option.some.inj he ▸ h.2
  | directive d => exact Directive.eq_of_lineValue? he ▸ Directive.From.value h
  | directiveBlock d opening body closing =>
    exact Directive.eq_of_lineValue? he ▸ Directive.From.value h.1
  | label | block | expression => cases he

namespace Grammar

/-- Where the end of the line is not behind a token that a value has to stand behind, the value is
made of tokens before it. -/
def Stays (front : List Token) (a : Token) (e : Expr) : Prop :=
  expectsValue a.kind = false ∨ a ∈ e.addresses → e.From (front ++ [a])

/-- A statement whose value, if it starts before the end of the line, stays there. -/
def Settled (front : List Token) (a : Token) (st : Statement) : Prop :=
  ∀ e ∈ st.lineValue?, (∃ u ∈ e.tokens, u ∈ front ++ [a]) → Stays front a e

section Statements

variable {src : Source} {front rest : List Token} {a b t : Token} {G : Prop} {s : State}
  {expr : Parser Expr} {block : Token → Parser Braces}

theorem Kept.stays (h : Kept src front a G [e] s) : Stays front a e := by
  intro hend
  have hmem : a ∈ s.tokens := by
    rcases hend with hk | haddress
    · exact h.shy.before hk
    · by_contra hmem
      have hne : s.current ≠ a := fun hcurrent => hmem (hcurrent ▸ List.mem_cons_self)
      exact h.clear hne e (List.mem_singleton_self _) haddress
  exact (h.shy.held hmem).2 e (List.mem_singleton_self _)

theorem stays_missing : Stays front a .missing :=
  fun _ => .missing

theorem settled_instruction {operand : Expr} (h : Stays front a operand) :
    Settled front a (.instruction t operand) :=
  fun _ he _ => Option.mem_some.1 he ▸ h

theorem settled_ofDirective {d : Directive}
    (h : (∃ u ∈ d.value.tokens, u ∈ front ++ [a]) → Stays front a d.value) (b : Option Braces) :
    Settled front a (.ofDirective d b) := by
  intro e he
  rw [Statement.lineValue?_ofDirective] at he
  rw [Directive.eq_of_lineValue? he]
  exact h

/-- A directive of a form whose value may stand elsewhere. -/
theorem OfToken.settled {st : Statement} (h : OfToken t st)
    (hform : DirectiveForm.ofWord (directiveWord t) ≠ .named ∧
      DirectiveForm.ofWord (directiveWord t) ≠ .generic ∧
      DirectiveForm.ofWord (directiveWord t) ≠ .data) : Settled front a st := by
  obtain ⟨d, b, rfl, rfl⟩ := h
  intro e he
  rw [Statement.lineValue?_ofDirective] at he
  unfold Directive.lineValue? at he
  split at he
  · rename_i hk
    exact absurd hk hform.1
  · rename_i hk
    exact absurd hk hform.2.1
  · rename_i hk
    exact absurd hk hform.2.2
  · cases he

/-! ### Tokens of statements -/

theorem token_instruction (rules : Rules) :
    Ensures (fun _ => True) (instruction rules expr t) fun st _ => st.token = t := by
  intro s hs
  obtain ⟨operand, hst⟩ := exists_instruction rules s hs
  rw [hst]
  rfl

theorem token_programCounter :
    Ensures (fun _ => True) (programCounter expr t) fun st _ => st.token = t := by
  intro s hs
  obtain ⟨value, hst⟩ := exists_programCounter s hs
  rw [hst]
  rfl

/-- A statement with a value is one of the token that it was read from. -/
theorem token_statement (rules : Rules) :
    Ensures (fun s => s.current = t) (statement rules expr block)
      fun r _ => ∀ st ∈ r, st.lineValue?.isSome → st.token = t := by
  have hsome : ∀ {p : Parser Statement}, (∀ s, (p.run s).1.token = t) →
      ∀ s, ∀ st ∈ ((do return some (← p) : Parser (Option Statement)).run s).1,
        st.lineValue?.isSome → st.token = t :=
    fun hp s st hst _ => Option.mem_some.1 hst ▸ hp s
  have hplain : ∀ {st u : Statement}, st.lineValue? = none → u ∈ some st →
      u.lineValue?.isSome → u.token = t := by
    rintro st u hnone hu hvalue
    rw [← Option.mem_some.1 hu, hnone] at hvalue
    cases hvalue
  have hnone : ∀ st ∈ (none : Option Statement), st.lineValue?.isSome → st.token = t :=
    fun st hst => absurd hst (Option.not_mem_none st)
  refine Ensures.current fun u => ?_
  rintro s ⟨hu, ht⟩
  obtain rfl : u = t := hu.symm.trans ht
  split
  · exact fun st hst => hplain rfl hst
  · exact hsome (fun s => token_instruction rules s trivial) s
  · exact hsome (fun s => token_programCounter s trivial) s
  · rw [Parser.run_bind]
    split
    · exact hsome (fun s => token_programCounter s trivial) s.advance
    · exact hnone
  · exact hsome (fun s => (ofToken_directive s trivial).token) s
  · rw [Parser.run_bind]
    split
    · exact fun st hst => hplain rfl hst
    · rw [Parser.run_bind]
      split
      · exact fun st hst => hplain rfl hst
      · exact hnone
  · intro st hst
    have hcall : st ∈ (if ((builtinCall expr u).run s).1.isMissing then none
        else some (.expression u ((builtinCall expr u).run s).1)) := hst
    split at hcall
    · exact hnone st hcall
    · exact hplain rfl hcall
  · exact fun st hst => hplain rfl hst
  · exact hnone
  · exact hnone

/-! ### Statements with a value on their line -/

variable (hb : Break src front a b rest) (hexpr : KeepsLine src front a expr)
include hb hexpr

theorem settled_instructionStatement (rules : Rules) :
    Ensures (Shy src a True) (instruction rules expr t) fun st _ => Settled front a st := by
  refine Ensures.ifValue ?_ ?_
  · refine Ensures.state fun before => ?_
    refine Ensures.advance (M := fun _ => Shy src a True) (fun s hs => hs.2.2.along hb hs.2.1)
      fun _ => (hexpr True).bind fun operand => ?_
    refine (kept_indexedOperand hb operand).bind fun operand => ?_
    refine Ensures.pre (P := fun _ => Stays front a operand) ?_ fun s hs => hs.stays
    refine Ensures.behind fun after => ?_
    split
    · exact Ensures.behind fun _ => Ensures.pure fun _ hs => settled_instruction hs
    · exact Ensures.pure fun _ hs => settled_instruction hs
  · exact fun _ _ => settled_instruction stays_missing

theorem settled_programCounter :
    Ensures (Shy src a True) (programCounter expr t) fun st _ => Settled front a st := by
  refine Ensures.ifValue ?_ ?_
  · refine Ensures.advance (M := fun _ => Shy src a True) (fun s hs => hs.2.along hb hs.1)
      fun _ => (hexpr True).bind fun value => ?_
    exact Ensures.pure fun s hs => settled_ofDirective (fun _ => hs.stays) none
  · exact Ensures.pure fun _ _ => settled_ofDirective (fun _ => stays_missing) none

theorem settled_genericDirective :
    Ensures (Shy src a True) (genericDirective expr block t)
      fun st _ => Settled front a st := by
  have hend : ∀ {value : Expr}, Ensures (fun _ => Stays front a value) (do
      let body ← optionalBlock block
      return Statement.ofDirective ⟨t, none, [], value⟩ body)
      fun st _ => Settled front a st := fun {value} =>
    Ensures.behind fun body => Ensures.pure fun _ hs =>
      settled_ofDirective (fun _ => hs) body
  refine Ensures.ifValue ?_ ?_
  · dsimp only
    refine Ensures.advance (M := fun first s => s.current = first ∧ Shy src a True s)
      (fun s hs => ⟨rfl, hs.2.along hb hs.1⟩) fun first => ?_
    split
    · rename_i hequal
      refine Ensures.advance (M := fun _ => Shy src a True) (fun s hs => ?_) fun _ => ?_
      · exact hs.2.past (by rw [hs.1, hequal]; rfl)
      · exact (hexpr True).bind fun value => hend.pre fun s hs => hs.stays
    · exact ((hexpr True).pre fun s hs => hs.2).bind fun value => hend.pre fun s hs => hs.stays
  · exact (Ensures.pure (b := Expr.missing) (Q := fun e _ => Stays front a e)
      fun _ _ => stays_missing).bind fun value => hend

theorem settled_dataDirective :
    Ensures (fun s => s.current = t ∧ Shy src a True s) (dataDirective expr t)
      fun st _ => Settled front a st := by
  have hvalues : ∀ {values : List Expr} {s : State},
      Kept src front a (True ∧ t ∈ front ++ [a]) values s →
      Stays front a (if values.isEmpty then .missing else .array t values) := by
    intro values s hs
    split
    · exact stays_missing
    · exact (hs.node (fun ht hall => .array ht hall) fun h => Expr.mem_allAddresses.1 h).stays
  refine Ensures.ifValue ?_ ?_
  · refine Ensures.advance (M := fun _ => Shy src a (True ∧ t ∈ front ++ [a])) ?_ fun _ => ?_
    · rintro s ⟨hline, rfl, hs⟩
      exact (hs.current hb).along hb hline
    · refine (hexpr _).bind fun first => ?_
      have hloop := ensures_whileNext (fun acc => kept_listed (G := True ∧ t ∈ front ++ [a]) hb
        hexpr (endsStatement · = true) acc) first.toList
      have hfirst : ∀ s, Kept src front a (True ∧ t ∈ front ++ [a]) ([] ++ [first]) s →
          Kept src front a (True ∧ t ∈ front ++ [a]) first.toList s := fun s hs => hs.toList
      refine (hloop.pre hfirst).bind fun r => ?_
      refine Ensures.pure fun s hs => settled_ofDirective (fun _ => ?_) none
      have hall : Kept src front a (True ∧ t ∈ front ++ [a]) (first.toList ++ r.1) s := by
        simpa using hs
      exact hvalues hall
  · exact Ensures.pure fun _ _ => settled_ofDirective (fun _ => stays_missing) none

/-- The name of a directive may stand behind the end of the line, and then its value does not start
before it. -/
theorem settled_namedDirective (hfrom : ∀ src, Along src true expr (Expr.From src.tokens)) :
    Ensures (Shy src a True) (namedDirective expr t) fun st _ => Settled front a st := by
  have hmissing : ∀ name : Option Token,
      Settled front a (.directive ⟨t, name, [], .missing⟩) := fun name =>
    settled_ofDirective (fun _ => stays_missing) none
  refine Ensures.peek fun next => ?_
  split
  · -- the line may have ended before the name
    refine Ensures.advance
      (M := fun _ s => Shy src a True s ∨ s.Within src ∧ a ∉ s.tokens) ?_ fun name => ?_
    · rintro s ⟨-, hs⟩
      by_cases hcurrent : s.current = a
      · exact .inr ⟨hs.within.advance, hb.not_mem_advance hs.within hcurrent⟩
      · exact .inl (hs.advance_of_ne fun _ => hcurrent)
    · refine Ensures.ifNext ?_ (Ensures.pure fun _ _ => hmissing _)
      refine Ensures.advance (M := fun _ s => s.current.kind = .equal ∧
        (Shy src a True s ∨ s.Within src ∧ a ∉ s.tokens)) ?_ fun _ => Ensures.peek fun first => ?_
      · rintro s ⟨hequal, hs⟩
        refine ⟨by rw [s.current_advance_eq, hequal], hs.imp (fun hs => ?_) fun hs => ?_⟩
        · exact hs.onto hb (by rw [hequal]; rfl)
        · exact ⟨hs.1.advance, fun h => hs.2 (s.tokens_advance_suffix.subset h)⟩
      · split
        · exact Ensures.pure fun _ _ => hmissing _
        · refine Ensures.advance (M := fun _ s => Shy src a True s ∨ s.Within src ∧ a ∉ s.tokens)
            ?_ fun _ => ?_
          · rintro s ⟨-, hequal, hs⟩
            refine hs.imp (fun hs => hs.past (by rw [hequal]; rfl)) fun hs => ?_
            exact ⟨hs.1.advance, fun h => hs.2 (s.tokens_advance_suffix.subset h)⟩
          · refine Ensures.bind (M := fun e _ =>
              (∃ u ∈ e.tokens, u ∈ front ++ [a]) → Stays front a e) ?_ fun value =>
              Ensures.pure fun _ hs => settled_ofDirective hs none
            rintro s (hs | ⟨hs, ha⟩)
            · exact fun _ => (hexpr True s hs).stays
            · rintro ⟨u, hu, hfront⟩
              have hvalue := (hfrom ⟨s.tokens, none⟩ s List.suffix_rfl).2
              exact absurd hfront (hb.not_mem hs ha (hvalue.tokens_subset hu))
  · exact fun _ _ => hmissing _

theorem settled_directive (hfrom : ∀ src, Along src true expr (Expr.From src.tokens)) :
    Ensures (fun s => s.current = t ∧ Shy src a True s) (directive expr block t)
      fun st _ => Settled front a st := by
  by_cases hnamed : DirectiveForm.ofWord (directiveWord t) = .named
  · rw [directive, hnamed]
    exact (settled_namedDirective hb hexpr hfrom).pre fun s hs => hs.2
  by_cases hgeneric : DirectiveForm.ofWord (directiveWord t) = .generic
  · rw [directive, hgeneric]
    exact (settled_genericDirective hb hexpr).pre fun s hs => hs.2
  by_cases hdata : DirectiveForm.ofWord (directiveWord t) = .data
  · rw [directive, hdata]
    exact settled_dataDirective hb hexpr
  · exact fun s _ => (ofToken_directive s trivial).settled ⟨hnamed, hgeneric, hdata⟩

/-- The statement at the current token, if its line has not ended before it. -/
theorem settled_statement (rules : Rules)
    (hfrom : ∀ src, Along src true expr (Expr.From src.tokens)) :
    Ensures (fun s => s.current = t ∧ Shy src a True s) (statement rules expr block)
      fun r _ => ∀ st ∈ r, Settled front a st := by
  have hsome : ∀ {p : Parser Statement} {P : State → Prop},
      (Ensures P p fun st _ => Settled front a st) →
      Ensures P (do return some (← p)) fun r _ => ∀ st ∈ r, Settled front a st :=
    fun hp => hp.bind fun _ => Ensures.pure fun _ hst u hu => Option.mem_some.1 hu ▸ hst
  have hplain : ∀ {st : Statement}, st.lineValue? = none → Settled front a st :=
    fun h e he => absurd (h ▸ he) (Option.not_mem_none e)
  have hnone : ∀ st ∈ (none : Option Statement), Settled front a st :=
    fun st hst => absurd hst (Option.not_mem_none st)
  refine Ensures.current fun u => ?_
  by_cases hu : u = t
  swap
  · exact fun s hs => absurd (hs.1.symm.trans hs.2.1) hu
  subst hu
  refine Ensures.pre (P := fun s => s.current = u ∧ Shy src a True s) ?_ fun s hs => hs.2
  split
  · exact Ensures.pure fun s _ st hst => Option.mem_some.1 hst ▸ hplain rfl
  · exact hsome ((settled_instructionStatement hb hexpr rules).pre fun s hs => hs.2)
  · exact hsome ((settled_programCounter hb hexpr).pre fun s hs => hs.2)
  · refine Ensures.ifNext ?_ (Ensures.pure fun _ _ => hnone)
    refine Ensures.advance (M := fun _ => Shy src a True) (fun s hs => ?_) fun _ =>
      hsome (settled_programCounter hb hexpr)
    exact hs.2.2.onto hb (by rw [hs.1]; rfl)
  · exact hsome (settled_directive hb hexpr hfrom)
  · refine Ensures.ifNext ?_ (Ensures.ifValue ?_ (Ensures.pure fun _ _ => hnone))
    · exact hsome fun _ _ => hplain rfl
    · exact hsome fun _ _ => hplain rfl
  · intro s _ st hst
    have hcall : st ∈ (if ((builtinCall expr u).run s).1.isMissing then none
        else some (.expression u ((builtinCall expr u).run s).1)) := hst
    split at hcall
    · exact hnone st hcall
    · exact Option.mem_some.1 hcall ▸ hplain rfl
  · exact fun s _ st hst => Option.mem_some.1 hst ▸ hplain rfl
  · exact fun _ _ => hnone
  · exact fun _ _ => hnone

end Statements

end Grammar

open Grammar

/-! ## Texts -/

section Texts

variable {ref : Option Reference} {lexLimit limit : Int} {text : String} {parsed : Parsed}

theorem parse_lines (h : parse ref lexLimit limit text = .ok parsed) :
    parsed.stream.Pairwise fun t u => t.place.line ≤ u.place.line := by
  refine (parse_increasing h).imp fun hbefore => ?_
  rw [Place.before_iff] at hbefore
  omega

/-- The tokens from one on: those on its line, and those behind its end, if there are some. -/
theorem line_cases {tokens : List Token} {ahead : List Token}
    (hlines : tokens.Pairwise fun t u => t.place.line ≤ u.place.line)
    (hsuffix : t :: ahead <:+ tokens) :
    (∀ u ∈ t :: ahead, u.place.line = t.place.line) ∨
      ∃ front before a b rest, tokens = front ++ a :: b :: rest ∧
        t :: ahead = before ++ a :: b :: rest ∧
        (∀ u ∈ before ++ [a], u.place.line = t.place.line) ∧
        ∀ u ∈ b :: rest, u.place.line ≠ t.place.line := by
  let onLine : Token → Bool := fun u => u.place.line == t.place.line
  have hsplit : (t :: ahead).takeWhile onLine ++ (t :: ahead).dropWhile onLine = t :: ahead :=
    List.takeWhile_append_dropWhile
  have hon : ∀ u ∈ (t :: ahead).takeWhile onLine, u.place.line = t.place.line :=
    fun u hu => eq_of_beq (List.mem_takeWhile_imp hu : onLine u = true)
  cases hbehind : (t :: ahead).dropWhile onLine with
  | nil =>
    rw [hbehind, List.append_nil] at hsplit
    exact .inl (hsplit ▸ hon)
  | cons b rest =>
    have hoff : b.place.line ≠ t.place.line := by
      have hb := List.head_dropWhile_not onLine (l := t :: ahead) (by simp [hbehind])
      simpa [hbehind, onLine] using hb
    have hsome : (t :: ahead).takeWhile onLine ≠ [] := by
      rw [List.takeWhile_cons_of_pos (by simp [onLine])]
      exact List.cons_ne_nil _ _
    obtain ⟨before, a, hbefore⟩ := List.eq_nil_or_concat _ |>.resolve_left hsome
    rw [List.concat_eq_append] at hbefore
    rw [hbefore, hbehind, List.append_assoc, List.singleton_append] at hsplit
    obtain ⟨front, hfront⟩ := hsuffix
    refine .inr ⟨front ++ before, before, a, b, rest, ?_, hsplit.symm, hbefore ▸ hon, ?_⟩
    · rw [← hfront, ← hsplit, List.append_assoc]
    · -- the first token behind the line is on a later one, and so are all behind it
      have hall : (t :: ahead).Pairwise fun t u => t.place.line ≤ u.place.line :=
        hlines.sublist (List.IsSuffix.sublist ⟨front, hfront⟩)
      have hfirst : t.place.line ≤ b.place.line := by
        rcases List.mem_cons.1 (hsplit ▸ by simp : b ∈ t :: ahead) with rfl | hmem
        · exact Nat.le_refl _
        · exact (List.pairwise_cons.1 hall).1 b hmem
      rw [← hsplit, List.pairwise_append, List.pairwise_cons, List.pairwise_cons] at hall
      intro u hu
      rcases List.mem_cons.1 hu with rfl | hu
      · exact hoff
      · have hlater := hall.2.1.2.1 u hu
        omega

/-- **A value stays on the line of its statement**, if it starts there, the line does not end in a
token that a value has to stand behind, and the next line does not start with one that goes on with
a value. An asterisk that stands for the current address is no operator. -/
theorem parse_value_line (h : parse ref lexLimit limit text = .ok parsed) {st : Statement}
    (hst : st ∈ Statement.preorders parsed.program.statements) {e : Expr}
    (he : st.lineValue? = some e)
    (hstart : ∃ t ∈ e.tokens, t.place.line = st.token.place.line)
    (hend : ∀ a b, [a, b] <:+: parsed.stream → a.place.line = st.token.place.line →
      b.place.line ≠ st.token.place.line →
      (expectsValue a.kind = false ∨ a ∈ e.addresses) ∧ goesOn b.kind = false) :
    ∀ t ∈ e.tokens, t.place.line = st.token.place.line := by
  obtain ⟨overflow, last, -, -, horigins⟩ := parse_origin h
  obtain ⟨room, start, -, ⟨hwithin, -⟩, -, hrun, -⟩ := horigins st hst
  have htoken : st.token = start.current :=
    token_statement _ start rfl st hrun (by rw [he]; rfl)
  have hfrom : e.From start.tokens := by
    have halong : Along ⟨start.tokens, none⟩ true (statementAt ⟨depthBound limit, ref⟩ room)
        fun item => ∀ s ∈ item, s.AllFrom start.tokens := along_statementAt _ room
    exact ((halong start List.suffix_rfl).2 st hrun).self.lineValue he
  rcases line_cases (parse_lines h) hwithin with
    hline | ⟨front, before, a, b, rest, hstream, hahead, hon, hoff⟩
  · exact fun t ht => htoken ▸ hline t (hfrom.tokens_subset ht)
  · rw [htoken] at hstart hend ⊢
    have ha : a.place.line = start.current.place.line := hon a (by simp)
    have hnext : b.place.line ≠ start.current.place.line := hoff b List.mem_cons_self
    have hinfix : [a, b] <:+: parsed.stream := ⟨front, rest, by rw [hstream]; simp⟩
    obtain ⟨hexpects, hstops⟩ := hend a b hinfix ha hnext
    have hb : Break ⟨parsed.stream, overflow⟩ front a b rest :=
      ⟨hstream, parse_nodup h, ha ▸ hnext, hstops⟩
    have hmem : a ∈ start.tokens := by
      rw [State.tokens, hahead]
      simp
    have hstatement : Ensures (fun s => s.current = start.current ∧ Shy _ a True s)
        (statementAt ⟨depthBound limit, ref⟩ room) fun r _ => ∀ st ∈ r, Settled front a st :=
      settled_statement hb (keepsLine_expression hb _ room (Nat.le_refl lowest)) _
        fun src => along_expression _ room (Nat.le_refl _)
    have hsettled := hstatement start ⟨rfl, hwithin, fun _ => hmem, fun _ => trivial⟩ st hrun e he
    -- what stands on the line stands before its end
    have hfront : ∃ u ∈ e.tokens, u ∈ front ++ [a] := by
      obtain ⟨u, hu, hline⟩ := hstart
      have hu' : u ∈ (front ++ [a]) ++ b :: rest := by
        rw [List.append_assoc, List.singleton_append, ← hstream]
        exact hwithin.subset (hfrom.tokens_subset hu)
      exact ⟨u, hu, (List.mem_append.1 hu').resolve_right fun h => hoff u h hline⟩
    intro t ht
    have hbefore : t ∈ (before ++ [a]) ++ b :: rest := by
      rw [List.append_assoc, List.singleton_append, ← hahead]
      exact hfrom.tokens_subset ht
    refine hon t ((List.mem_append.1 hbefore).resolve_right fun hrest => ?_)
    have hnodup : ((front ++ [a]) ++ b :: rest).Nodup := by
      rw [List.append_assoc, List.singleton_append, ← hstream]
      exact parse_nodup h
    have hstay := (hsettled hfront hexpects).tokens_subset ht
    exact (List.nodup_append.1 hnodup).2.2 t hstay t hrest rfl

end Texts

/-- A line that ends in the current address, before a label. -/
def addressLineText : String :=
  "*=2+*\nx:"

def addressLineTokens : List Token :=
  [plainToken .programCounter "*=" 1 1, plainToken (.number .decimal) "2" 1 3,
    plainToken .plus "+" 1 4, plainToken .asterisk "*" 1 5, plainToken .label "x:" 2 1,
    plainToken .endOfText "" 2 3]

/-- The address at the end of the first line of `addressLineText` is no operator, and so its value
stays on that line. -/
theorem parse_value_line_address :
    ∃ parsed st e, parse none 128 128 addressLineText = .ok parsed ∧
      st ∈ Statement.preorders parsed.program.statements ∧ st.lineValue? = some e ∧
      e.tokens = (addressLineTokens.drop 1).take 3 ∧
      plainToken .asterisk "*" 1 5 ∈ e.addresses ∧
      expectsValue (plainToken .asterisk "*" 1 5).kind = true ∧
      ∀ t ∈ e.tokens, t.place.line = st.token.place.line := by
  obtain ⟨parsed, hparsed, hstream, hvalue⟩ : ∃ parsed,
      parse none 128 128 addressLineText = .ok parsed ∧ parsed.stream = addressLineTokens ∧
      (Statement.preorders parsed.program.statements).head?.map
        (fun st => (st.token.place.line, st.lineValue?.map fun e => (e.tokens, e.addresses))) =
        some (1, some ((addressLineTokens.drop 1).take 3, [plainToken .asterisk "*" 1 5])) :=
    exists_parsed_of_session 6 (by cbv) (by decide) (by decide +kernel)
  obtain ⟨st, hst, hvalue⟩ := Option.map_eq_some_iff.1 hvalue
  obtain ⟨hline, hvalue⟩ := Prod.mk.inj hvalue
  obtain ⟨e, he, hvalue⟩ := Option.map_eq_some_iff.1 hvalue
  obtain ⟨htokens, haddresses⟩ := Prod.mk.inj hvalue
  have hmem : st ∈ Statement.preorders parsed.program.statements := List.mem_of_head? hst
  have hchain : addressLineTokens.IsChain fun a b => a.place.line = 1 → b.place.line ≠ 1 →
      a = plainToken .asterisk "*" 1 5 ∧ goesOn b.kind = false := by
    decide
  refine ⟨parsed, st, e, hparsed, hmem, he, htokens, by rw [haddresses]; simp, rfl, ?_⟩
  refine parse_value_line hparsed hmem he ⟨plainToken .plus "+" 1 4, ?_, hline.symm⟩ ?_
  · rw [htokens]
    decide
  · rintro a b ⟨front, rest, hsplit⟩ ha hb
    rw [hstream] at hsplit
    have hpair := List.isChain_iff_forall_rel_of_append_cons_cons.1 hchain
      (show addressLineTokens = front ++ a :: b :: rest by rw [← hsplit]; simp)
      (ha.trans hline) (hline ▸ hb)
    exact ⟨.inr (by rw [haddresses, hpair.1]; simp), hpair.2⟩

/-- Two settings of the program counter, the second with a blank before its equals sign. -/
def settingsText : String :=
  "*=1\n* = 2"

/-- The value of the first line of `settingsText` starts there, is no group and no call, and takes
the asterisk of the second line. -/
theorem parse_value_next_line :
    ∃ parsed st e, parse none 128 128 settingsText = .ok parsed ∧
      parsed.program.statements.length = 1 ∧
      st ∈ Statement.preorders parsed.program.statements ∧ st.lineValue? = some e ∧
      st.token.place.line = 1 ∧
      e.tokens = [plainToken (.number .decimal) "1" 1 3, plainToken .asterisk "*" 2 1] := by
  obtain ⟨parsed, hparsed, hlength, hvalue⟩ : ∃ parsed,
      parse none 128 128 settingsText = .ok parsed ∧ parsed.program.statements.length = 1 ∧
      (Statement.preorders parsed.program.statements).head?.map
        (fun st => (st.token.place.line, st.lineValue?.map Expr.tokens)) =
        some (1, some [plainToken (.number .decimal) "1" 1 3, plainToken .asterisk "*" 2 1]) :=
    exists_parsed_of_session 6 (by cbv) (by decide) (by decide +kernel)
  obtain ⟨st, hst, hvalue⟩ := Option.map_eq_some_iff.1 hvalue
  obtain ⟨hline, hvalue⟩ := Prod.mk.inj hvalue
  obtain ⟨e, he, htokens⟩ := Option.map_eq_some_iff.1 hvalue
  exact ⟨parsed, st, e, hparsed, hlength, List.mem_of_head? hst, he, hline, htokens⟩

end Asm6510
