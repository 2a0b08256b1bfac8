import Asm6510.Proofs.Grammar.Stream
import Mathlib

/-!
# Statements are not lost in silence

* `Statement.heads`: the tokens that the labels, instructions and directives of a program start
  with, in the order of the text.
* `loopHeader`, `behindLastComma?`: where a token is passed over without a message.
* `Accounted`: a token that could start a statement does, or stands at one of these places.

Main statement: `parse_count_heads`, without a message every token that can start a statement
starts exactly one, these places apart. The comma at the end of the values of a data directive is
such a place: it takes the statement behind it along (`parse_loses_label`).
-/

namespace Asm6510

/-- The tokens that labels, instructions and directives start with, nested ones included. -/
def Statement.heads (sts : List Statement) : List Token :=
  (Statement.preorders sts).filterMap Statement.head?

theorem Statement.heads_append (xs ys : List Statement) :
    heads (xs ++ ys) = heads xs ++ heads ys := by
  rw [heads, preorders_append, List.filterMap_append, heads, heads]

theorem Statement.heads_braced (dir : Option Directive) (opening closing : Token)
    (body sts : List Statement) :
    heads (braced dir opening body closing :: sts) =
      (dir.map Directive.token).toList ++ (heads body ++ heads sts) := by
  rw [heads, preorders, preorder_braced, List.filterMap_append, ← heads, List.filterMap_cons]
  cases dir with
  | none => rfl
  | some d => rfl

namespace Grammar

/-! ## Places where a statement is passed over -/

/-- The tokens of a stream behind one of them. -/
def tokensBehind (stream : List Token) (d : Token) : List Token :=
  (stream.dropWhile (· != d)).tail

/-- The tokens between the parentheses behind the loop `d`, which are skipped. -/
def loopHeader (stream : List Token) (d : Token) : List Token :=
  match tokensBehind stream d with
  | [] => []
  | opening :: inner =>
    if DirectiveForm.ofWord (directiveWord d) = .loop ∧ opening.kind = .leftParen then
      inner.take (inner.length - (fromMatch .leftParen .rightParen 0 inner).length)
    else []

/-- The token behind the values of the data directive `d`, if these end in a comma. -/
def behindLastComma? (stream : List Token) (d : Token) : Option Token :=
  let values := (tokensBehind stream d).takeWhile fun t => !t.kind.isStructural
  if DirectiveForm.ofWord (directiveWord d) = .data ∧
      values.getLast?.map Token.kind = some .comma then
    (tokensBehind stream d)[values.length]?
  else none

/-- A token that can start a statement is one of `heads`, or one of them passes over it. -/
def Accounted (stream heads : List Token) (t : Token) (_ : List Token) : Prop :=
  t.kind.isHead = true →
    t ∈ heads ∨ ∃ d ∈ heads, t ∈ loopHeader stream d ∨ behindLastComma? stream d = some t

section Places

variable {stream front behind inner values : List Token} {d t opening comma : Token}

theorem tokensBehind_eq (hnodup : stream.Nodup) (h : d :: behind <:+ stream) :
    tokensBehind stream d = behind := by
  obtain ⟨front, rfl⟩ := h
  have hfront : ∀ u ∈ front, (u != d) = true := by
    intro u hu
    have hne : u ≠ d := (List.nodup_append.1 hnodup).2.2 u hu d List.mem_cons_self
    simpa using hne
  rw [tokensBehind, List.dropWhile_append_of_pos hfront]
  simp

theorem mem_loopHeader (hnodup : stream.Nodup) (h : d :: opening :: inner <:+ stream)
    (hform : DirectiveForm.ofWord (directiveWord d) = .loop) (hopening : opening.kind = .leftParen)
    (ht : t :: behind <:+ inner) (hmatch : fromMatch .leftParen .rightParen 0 inner <:+ t :: behind)
    (hhead : t.kind.isHead = true) : t ∈ loopHeader stream d := by
  rw [loopHeader, tokensBehind_eq hnodup h]
  dsimp only
  rw [if_pos ⟨hform, hopening⟩]
  -- the partner of the parenthesis starts no statement, so it stands behind `t`
  have hbehind : fromMatch .leftParen .rightParen 0 inner <:+ behind := by
    rcases List.suffix_cons_iff.1 hmatch with hpartner | hbehind
    · rcases kind_of_fromMatch hpartner with hk | hk <;> rw [hk] at hhead <;> cases hhead
    · exact hbehind
  have hlen := hbehind.length_le
  obtain ⟨front, rfl⟩ := ht
  refine List.mem_take_iff_getElem.2 ⟨front.length, ?_, ?_⟩
  · simp
    omega
  · simp

theorem behindLastComma?_eq (hnodup : stream.Nodup)
    (h : d :: (values ++ comma :: t :: behind) <:+ stream)
    (hform : DirectiveForm.ofWord (directiveWord d) = .data) (hcomma : comma.kind = .comma)
    (hvalues : ∀ v ∈ values, v.kind.isStructural = false) (hhead : t.kind.isHead = true) :
    behindLastComma? stream d = some t := by
  have htake : (values ++ comma :: t :: behind).takeWhile (fun t => !t.kind.isStructural) =
      values ++ [comma] := by
    have hplain : ∀ v ∈ values, (!v.kind.isStructural) = true := by
      intro v hv
      rw [hvalues v hv]
      rfl
    rw [List.takeWhile_append_of_pos hplain, List.takeWhile_cons_of_pos (by rw [hcomma]; rfl),
      List.takeWhile_cons_of_neg (by rw [TokenKind.isStructural_of_isHead hhead]; decide)]
  rw [behindLastComma?, tokensBehind_eq hnodup h, htake]
  simp [hform, hcomma]

end Places

/-! ## Without messages -/

section Silence

variable {src : Source} {t first : Token} {behind heads : List Token}

theorem not_reported_nil {place : Place} : ¬ Reported [] place := by
  rintro ⟨message, hm⟩
  cases hm

theorem not_depthReported_nil : ¬ DepthReported [] := by
  rintro ⟨limit, place, hm⟩
  cases hm

theorem not_amiss_nil : ¬ Amiss src [] t behind := by
  intro h
  cases h with
  | reported h => exact not_reported_nil h
  | cut _ _ h => exact not_depthReported_nil h

theorem Stretch.forall_mem {P : Token → List Token → Prop} {names tokens front rest : List Token}
    (h : Stretch P names tokens rest) (hfront : tokens = front ++ rest) :
    ∀ v ∈ front, ∃ behind, P v behind := by
  intro v hv
  subst hfront
  obtain ⟨before, after, rfl⟩ := List.append_of_mem hv
  refine ⟨after ++ rest, h.each v _ ⟨before, by simp⟩ ⟨after, rfl⟩⟩

/-- Without messages a statement passes over a token in one of two ways. -/
theorem Stray.of_nil (h : Stray src [] first t behind) (hnodup : src.tokens.Nodup)
    (ht : t.kind.isHead = true) :
    first.kind.isHead = true ∧
      (t ∈ loopHeader src.tokens first ∨ behindLastComma? src.tokens first = some t) := by
  cases h with
  | amiss h => exact absurd h not_amiss_nil
  | trailing hhead hsrc hform hcomma hstretch =>
    obtain ⟨values, rfl, -⟩ := hstretch.taken
    refine ⟨hhead, .inr (behindLastComma?_eq hnodup hsrc hform hcomma (fun v hv => ?_) ht)⟩
    obtain ⟨_, hv⟩ := hstretch.forall_mem rfl v hv
    exact Bool.eq_false_iff.2 fun hk => not_amiss_nil (hv hk)
  | header hhead hsrc hform hopening hinner hmatch =>
    exact ⟨hhead, .inl (mem_loopHeader hnodup hsrc hform hopening hinner hmatch ht)⟩
  | member _ _ _ _ _ _ hm =>
    exact (hm.elim not_reported_nil not_depthReported_nil).elim

theorem InStatement.accounted (h : InStatement src [] first t behind) (hnodup : src.tokens.Nodup)
    (hfirst : first.kind.isHead = true → first ∈ heads) :
    Accounted src.tokens heads t behind := by
  intro ht
  obtain ⟨hhead, hplace⟩ := (h (TokenKind.isStructural_of_isHead ht)).of_nil hnodup ht
  exact .inr ⟨first, hfirst hhead, hplace⟩

theorem InMembers.accounted (h : InMembers src [] t behind) :
    Accounted src.tokens heads t behind := by
  intro ht
  rcases h (TokenKind.isStructural_of_isHead ht) with ⟨-, hm⟩ | hm
  · exact (hm.elim not_reported_nil not_depthReported_nil).elim
  · exact absurd hm not_amiss_nil

theorem accounted_of_not_head (h : t.kind.isHead = false) : Accounted src.tokens heads t behind :=
  fun ht => absurd ht (by rw [h]; exact Bool.false_ne_true)

/-- The token of a plain statement is its head, unless it can start none. -/
theorem Plain.heads_eq {st : Option Statement} {names : List Token} (h : Plain t st names) :
    Statement.heads st.toList = [t] ∨ Statement.heads st.toList = [] ∧ t.kind.isHead = false := by
  cases h with
  | nothing hhead _ => exact .inr ⟨rfl, hhead⟩
  | label | instruction => exact .inl rfl
  | directive _ hd =>
    subst hd
    exact .inl rfl
  | expression hk e =>
    refine .inr ⟨rfl, Bool.eq_false_iff.2 fun hhead => ?_⟩
    rw [TokenKind.isStructural_of_isHead hhead] at hk
    cases hk

variable {dir : Option Directive} {opening closing : Token} {tokens inner close : List Token}

theorem Header.accounted (h : Header src [] dir opening tokens inner) (hnodup : src.tokens.Nodup)
    (hdir : (dir.map Directive.token).toList ⊆ heads) :
    Stretch (Accounted src.tokens heads) (dir.map Directive.token).toList tokens inner := by
  have hopening : Stretch (Accounted src.tokens heads) [] (opening :: inner) inner :=
    .single (accounted_of_not_head (by rw [h.opening_kind]; rfl)) (List.nil_sublist _)
  cases h with
  | bare => exact hopening
  | @directive d _ rest _ hd _ hrest =>
    have hmem : d.token ∈ heads := hdir List.mem_cons_self
    have hfirst : Stretch (Accounted src.tokens heads) [d.token] (d.token :: rest) rest :=
      .single (fun _ => .inl hmem) (List.Sublist.refl _)
    have hheader := (hrest.mono fun _ _ ht => ht.accounted hnodup fun _ => hmem).names_of_sublist
      (List.nil_sublist _)
    have hall := (hfirst.trans hheader).trans hopening
    simpa using hall

theorem Closes.accounted (h : Closes closing close behind) :
    Stretch (Accounted src.tokens heads) [] close behind := by
  cases h with
  | brace hk => exact .single (accounted_of_not_head (by rw [hk]; rfl)) (List.nil_sublist _)
  | ended => exact .refl _

theorem Sealed.accounted (h : Sealed src [] dir inner close) :
    Stretch (Accounted src.tokens heads) [] inner close := by
  cases h with
  | refused _ hm => exact absurd hm not_depthReported_nil
  | members _ _ _ h =>
    exact (h.mono fun _ _ ht => ht.accounted).names_of_sublist (List.nil_sublist _)

/-- Without messages, statements account for all tokens that can start one. -/
theorem Items.accounted {ds : List Diagnostic} {stop : TokenKind → Bool} {sts : List Statement}
    {last : List Token} (h : Items src ds stop sts tokens last) (hds : ds = [])
    (hnodup : src.tokens.Nodup) (hheads : Statement.heads sts ⊆ heads) :
    Stretch (Accounted src.tokens heads) (Statement.heads sts) tokens last := by
  subst hds
  induction h with
  | done => exact .refl _
  | @plain stop t st sts names rest behind last _ _ hplain hrest _ ih =>
    rw [Statement.heads_append] at hheads ⊢
    obtain ⟨hst, hsts⟩ := List.append_subset.1 hheads
    have hfirst :
        Stretch (Accounted src.tokens heads) (Statement.heads st.toList) (t :: rest) rest ∧
        (t.kind.isHead = true → t ∈ heads) := by
      rcases hplain.heads_eq with hone | ⟨hnone, hhead⟩
      · have hmem : t ∈ heads := hst (by rw [hone]; exact List.mem_cons_self)
        exact ⟨.single (fun _ => .inl hmem) (by rw [hone]), fun _ => hmem⟩
      · refine ⟨.single (accounted_of_not_head hhead) (by rw [hnone]; exact List.nil_sublist _),
          fun ht => ?_⟩
        rw [hhead] at ht
        cases ht
    have hmiddle := (hrest.mono fun _ _ ht => ht.accounted hnodup hfirst.2).names_of_sublist
      (List.nil_sublist _)
    have hall := (hfirst.1.trans hmiddle).trans (ih hsts)
    rwa [List.append_nil] at hall
  | braced hheader _ _ hclose _ ihbody ih =>
    rw [Statement.heads_braced] at hheads ⊢
    obtain ⟨hdir, hmore⟩ := List.append_subset.1 hheads
    obtain ⟨hbody, hsts⟩ := List.append_subset.1 hmore
    have hall := (hheader.accounted hnodup hdir).trans
      (((ihbody hbody).trans hclose.accounted).trans (ih hsts))
    rwa [List.append_nil] at hall
  | sealed hheader hsealed hclose _ ih =>
    rw [Statement.heads_braced] at hheads ⊢
    obtain ⟨hdir, hsts⟩ := List.append_subset.1 hheads
    exact (hheader.accounted hnodup hdir).trans
      ((hsealed.accounted.trans hclose.accounted).trans (ih hsts))

end Silence

end Grammar

open Grammar

/-- **No statement is lost in silence, but for two places.** If a parse reports nothing, every
label, mnemonic, setting of the program counter and directive among the tokens is the token of
exactly one statement, unless it stands in the skipped header of a loop, or behind a comma at the
end of the values of a data directive. -/
theorem parse_count_heads {ref : Option Reference} {lexLimit limit : Int} {text : String}
    {parsed : Parsed} (h : parse ref lexLimit limit text = .ok parsed)
    (hquiet : parsed.diagnostics = []) {t : Token} (ht : t ∈ parsed.stream)
    (hhead : t.kind.isHead = true)
    (hloop : ∀ d ∈ Statement.heads parsed.program.statements, t ∉ loopHeader parsed.stream d)
    (hcomma : ∀ d ∈ Statement.heads parsed.program.statements,
      behindLastComma? parsed.stream d ≠ some t) :
    (Statement.heads parsed.program.statements).count t = 1 := by
  obtain ⟨overflow, last, hlast, hitems⟩ := parse_items h
  have hstretch := hitems.accounted hquiet (parse_nodup h) (List.Subset.refl _)
  obtain ⟨front, hfront, hsub⟩ := hstretch.taken
  -- a token that starts a statement is not the end of the text
  have hmem : t ∈ front := by
    rw [hfront] at ht
    rcases List.mem_append.1 ht with ht | ht
    · exact ht
    · rw [List.mem_singleton.1 ht, hlast] at hhead
      cases hhead
  obtain ⟨_, haccounted⟩ := hstretch.forall_mem hfront t hmem
  have hnodup : (Statement.heads parsed.program.statements).Nodup := by
    have hstream := parse_nodup h
    rw [hfront] at hstream
    exact hsub.nodup hstream.of_append_left
  refine List.count_eq_one_of_mem hnodup ?_
  rcases haccounted hhead with hstarts | ⟨d, hd, hplace⟩
  · exact hstarts
  · exact (hplace.elim (hloop d hd) (hcomma d hd)).elim

/-- The label in a macro in a namespace. -/
theorem parse_count_heads_nested :
    ∃ parsed, parse none 128 128 nestedText = .ok parsed ∧ parsed.diagnostics = [] ∧
      tokenIn .block "" 2 .label "a:" 1 26 ∈ parsed.stream ∧
      (Statement.heads parsed.program.statements).count (tokenIn .block "" 2 .label "a:" 1 26) =
        1 := by
  obtain ⟨parsed, hparsed, hfacts⟩ : ∃ parsed, parse none 128 128 nestedText = .ok parsed ∧
      parsed.diagnostics = [] ∧ tokenIn .block "" 2 .label "a:" 1 26 ∈ parsed.stream ∧
      (∀ d ∈ Statement.heads parsed.program.statements,
        tokenIn .block "" 2 .label "a:" 1 26 ∉ loopHeader parsed.stream d) ∧
      ∀ d ∈ Statement.heads parsed.program.statements,
        behindLastComma? parsed.stream d ≠ some (tokenIn .block "" 2 .label "a:" 1 26) :=
    exists_parsed_of_session 13 (by cbv) (by decide) (by decide +kernel)
  obtain ⟨hquiet, hmem, hloop, hcomma⟩ := hfacts
  exact ⟨parsed, hparsed, hquiet, hmem, parse_count_heads hparsed hquiet hmem rfl hloop hcomma⟩

/-- A data directive whose values end in a comma, and a label on the next line. -/
def trailingText : String :=
  ".byte 1,\nfoo:\n"

/-- The label behind the comma is lost: nothing is reported, and no statement starts at it. -/
theorem parse_loses_label :
    ∃ parsed, parse none 128 128 trailingText = .ok parsed ∧ parsed.diagnostics = [] ∧
      plainToken .label "foo:" 2 1 ∈ parsed.stream ∧
      (∀ d ∈ parsed.stream, plainToken .label "foo:" 2 1 ∉ loopHeader parsed.stream d) ∧
      (Statement.heads parsed.program.statements).count (plainToken .label "foo:" 2 1) = 0 :=
  exists_parsed_of_session 5 (by cbv) (by decide) (by decide +kernel)

end Asm6510
