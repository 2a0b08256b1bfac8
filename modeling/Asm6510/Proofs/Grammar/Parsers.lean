import Asm6510.Proofs.Grammar.Brackets
import Asm6510.Proofs.Grammar.Ending
import Asm6510.Proofs.Grammar.Trees

/-!
# The parsers of the grammar

One lemma for each parser of the grammar, bottom up: expressions, directives, statements, blocks,
and the whole program. It takes steps, what it gives is made by the grammar, and it goes the same
way when the end of the text is moved, and when there is more room for nesting. The parsers of parts
are assumed to be such where a parser is given them.

* `Framed`: the parsers of directives, from the header to the block that they may end in.
* `Suits`: the rules of two parses.

Main statements: `abreast_program`; and for one parse alone `along_program`.
-/

namespace Asm6510.Grammar

variable {w : Pairing} {again : Bool} {opening t name : Token} {s s' : State} {kind : TokenKind}
  {message : String} {least : Nat} {P : Statement → Prop}

theorem kind_ne_end_of_isName (h : kind.isName = true) : kind ≠ .endOfText := by
  rintro rfl
  cases h

theorem isName_of_isIndexRegister (h : isIndexRegister t = true) : t.kind.isName = true := by
  have hkind : t.kind = .identifier := by
    simp only [isIndexRegister, Bool.and_eq_true, beq_iff_eq] at h
    exact h.1
  rw [hkind]
  rfl

theorem Pairing.token_of_kind (w : Pairing) (h : t.kind = kind) (hkind : kind ≠ .endOfText) :
    w.ending.token t = t :=
  w.ending.token_of_ne (h ▸ hkind)

/-! ## Expressions -/

section Expressions

variable {V W : Expr → Prop}

theorem abreast_unread (hV : V .missing) (hm : Ordinary message) :
    Abreast w again (do reportHere message; return Expr.missing)
      (do reportHere message; return Expr.missing) id V :=
  (abreast_reportHere hm).bind fun _ _ => abreast_same hV

/-- A turn of a loop that ends it. -/
theorem abreast_none {α : Type} {P : α → Prop} :
    Abreast w again (pure none) (pure none) id
      fun r : Option (List α) => ∀ items ∈ r, ∀ a ∈ items, P a :=
  abreast_same fun _ hitems => absurd hitems (Option.not_mem_none _)

/-- A turn of a loop that reads a value. -/
theorem abreast_item {sub sub' : Parser Expr} (hsub : Abreast w again sub sub' id V) :
    Abreast w again (do let e ← sub; return some e.toList) (do let e ← sub'; return some e.toList)
      id fun r => ∀ items ∈ r, ∀ e ∈ items, V e := by
  refine hsub.bind fun e he => abreast_same fun items hitems => ?_
  cases hitems
  exact e.forall_toList he

theorem abreast_depthExceeded (rules : Rules) (hV : V .missing) :
    Abreast w again (depthExceeded rules) (depthExceeded rules) id V := by
  refine abreast_current.bind fun t ht => ?_
  rw [Ending.token_line, show (w.ending.token t).place = _ from w.apart t ht]
  refine abreast_unwind rules (.inl ⟨t, ht, rfl⟩) ?_
  exact (abreast_skipLine _).bind fun _ _ => abreast_same hV

/-- The rest of the line is skipped with messages silenced. -/
theorem run_depthExceeded (rules : Rules) (hs : s.Within w.source) :
    Run w.source false
      { ((reportDepth rules s.current.place).run s).2 with unwinding := true }
      ((depthExceeded rules).run s).2 := by
  refine ((abreast_skipLine s.current.place.line).along _ ?_).1
  show ((reportDepth rules s.current.place).run s).2.tokens <:+ w.source.tokens
  rw [tokens_reportDepth]
  exact hs

theorem abreast_integerLiteral (hforms : Forms w.source.tokens V W) {radix : Radix}
    (ht : t ∈ w.source.tokens) (hk : t.kind = .number radix) :
    Abreast w again (integerLiteral radix t) (integerLiteral radix t) id W := by
  unfold integerLiteral
  split
  · exact abreast_same (hforms.integer ht _)
  · exact abreast_unread hforms.missing (.around (by decide) _ _)
  · rename_i hv
    exact (abreast_noteUnbounded ht hk hv).bind fun _ _ => abreast_same hforms.missing

section Parts

variable {sub sub' : Parser Expr} (hsub : Abreast w again sub sub' id V)
include hsub

theorem abreast_arguments :
    Abreast w again (arguments sub) (arguments sub') id fun es => ∀ e ∈ es, V e := by
  refine (abreast_nextIs _).bind fun none _ => abreast_ite Iff.rfl (fun _ => ?_) fun _ => ?_
  · exact abreast_advance.bind fun _ _ => abreast_same fun e he => absurd he List.not_mem_nil
  · refine abreast_advance.bind fun _ _ => hsub.bind fun first hfirst => ?_
    refine Abreast.bind (P := fun r => ∀ e ∈ r.1, V e) (abreast_whileNext ?_) ?_
    · exact abreast_advance.bind fun t _ =>
        abreast_ite Iff.rfl (fun _ => abreast_none) fun _ => abreast_item hsub
    · rintro ⟨rest, closed⟩ hrest
      have hall : ∀ e ∈ first.toList ++ rest, V e :=
        List.forall_mem_append.2 ⟨first.forall_toList hfirst, hrest⟩
      refine abreast_ite Iff.rfl (fun _ => abreast_same hall) fun _ => ?_
      refine (abreast_nextIs _).bind fun _ _ => abreast_ite Iff.rfl (fun _ => ?_) fun _ => ?_
      · exact abreast_advance.bind fun _ _ => abreast_same hall
      · exact abreast_same hall

theorem abreast_grouped (hforms : Forms w.source.tokens V W) (ht : opening ∈ w.source.tokens)
    (hk : opening.kind = .leftParen) :
    Abreast w again (grouped sub opening) (grouped sub' opening) id W := by
  refine abreast_advance.bind fun _ _ => hsub.bind fun inner hinner => ?_
  refine abreast_ifNextIs (by decide) (fun comma hcomma hkind => ?_) ?_
  · refine abreast_ifNext (fun _ => rfl)
      (fun t h => kind_ne_end_of_isName (isName_of_isIndexRegister h)) ?_ fun next _ => ?_
    · intro register hregister hindex
      refine (abreast_nextIs _).bind fun _ _ => abreast_ite Iff.rfl (fun _ => ?_) fun _ => ?_
      · have hname := isName_of_isIndexRegister hindex
        exact abreast_advance.bind fun _ _ =>
          abreast_same (hforms.indexed ht hk hcomma hinner ⟨hregister, hname⟩)
      · exact abreast_unread hforms.missing (by decide)
    · refine abreast_ite Iff.rfl (fun _ => ?_) fun _ => ?_
      · exact (abreast_pure (w.token_of_kind hkind (by decide)).symm hcomma).bind fun _ _ =>
          abreast_unread hforms.missing (.around (by decide) _ _)
      · exact abreast_advance.bind fun _ _ =>
          abreast_unread hforms.missing (.around (by decide) _ _)
  · refine (abreast_nextIs _).bind fun _ _ => abreast_ite Iff.rfl (fun _ => ?_) fun _ => ?_
    · exact abreast_advance.bind fun _ _ => abreast_same (hforms.group ht hinner)
    · exact abreast_unread hforms.missing (by decide)

theorem abreast_bracketed (hforms : Forms w.source.tokens V W) (ht : opening ∈ w.source.tokens) :
    Abreast w again (bracketed sub opening) (bracketed sub' opening) id W := by
  refine abreast_advance.bind fun _ _ => hsub.bind fun inner hinner => ?_
  refine (abreast_nextIs _).bind fun _ _ => abreast_ite Iff.rfl (fun _ => ?_) fun _ => ?_
  · exact abreast_advance.bind fun _ _ => abreast_same (hforms.group ht hinner)
  · exact abreast_unread hforms.missing (by decide)

/-- The call of a built-in function is not there without its parentheses. -/
theorem abreast_builtinCall (name : Token) :
    Abreast w again (builtinCall sub name) (builtinCall sub' name) id fun e =>
      e = .missing ∨ ∃ args, (∀ a ∈ args, V a) ∧ e = .call name (.ofName name) args := by
  refine (abreast_nextIs _).bind fun _ _ => abreast_ite Iff.rfl (fun _ => ?_) fun _ => ?_
  · exact abreast_advance.bind fun _ _ => (abreast_arguments hsub).bind fun args hargs =>
      abreast_same (.inr ⟨args, hargs, rfl⟩)
  · exact abreast_unread (.inl rfl) (.around (by decide) _ _)

end Parts

theorem ordinary_illegal (literal : String) : Ordinary (illegalMessage literal) := by
  unfold illegalMessage
  split
  · exact .around (by decide) _ _
  · exact .around (by decide) _ _

section Operators

variable {sub sub' : Nat → Parser Expr}
  (hsub : ∀ n, lowest ≤ n → Abreast w again (sub n) (sub' n) id V)
  (hforms : Forms w.source.tokens V W)
include hsub hforms

theorem abreast_operand : Abreast w again (operand sub) (operand sub') id W := by
  have hunread : ∀ {message : String}, Ordinary message → Abreast w again _ _ id W :=
    abreast_unread hforms.missing
  have hlow := hsub lowest (Nat.le_refl _)
  refine abreast_current.bind fun t ht => ?_
  by_cases hend : t.kind = .endOfText
  · -- the end of the text is no operand
    have hmessage : Ordinary ("Unexpected token '" ++ t.literal ++ "' in expression") :=
      .around (by decide) _ _
    obtain ⟨kind, literal, place, context, note⟩ := t
    cases hend
    exact hunread hmessage
  · rw [w.ending.token_of_ne hend]
    split
    · rename_i hk
      exact abreast_same (hforms.name ⟨ht, by rw [hk]; rfl⟩)
    · rename_i hk
      exact abreast_same (hforms.name ⟨ht, by rw [hk]; rfl⟩)
    · rename_i hk
      exact abreast_integerLiteral hforms ht hk
    · exact abreast_same (hforms.string ht)
    · exact abreast_same (hforms.programCounter ht)
    · rename_i hk
      exact abreast_grouped hlow hforms ht hk
    · exact abreast_bracketed hlow hforms ht
    · rename_i hk
      refine (abreast_builtinCall hlow t).mono ?_
      rintro _ (rfl | ⟨args, hargs, rfl⟩)
      · exact hforms.missing
      · exact hforms.call ht (hforms.name ⟨ht, by rw [hk]; rfl⟩) hargs
    · exact hunread (ordinary_illegal t.literal)
    · refine abreast_ite Iff.rfl (fun _ => ?_) fun _ => ?_
      · exact abreast_advance.bind fun _ _ => (hsub prefixLevel (by decide)).bind fun e he =>
          abreast_same (hforms.unary ht he)
      · exact hunread (.around (by decide) _ _)

theorem abreast_operatorTail {left : Expr} (hleft : W left) (hs : s.Within w.source)
    (h : w.Linked s s') (hend : s.current.kind ≠ .endOfText)
    (hlevel : lowest < level s.current.kind) :
    AbreastAt w again (operatorTail sub left) (operatorTail sub' left) id W s s' := by
  refine (abreast_current s s' hs h).bind fun hop r hr => ?_
  rw [w.ending.token_of_ne (t := (current.run s).1) hend]
  refine abreast_ite (P := W) Iff.rfl (fun _ => ?_) (fun hk => ?_) s r hs hr
  · exact (abreast_arguments (hsub _ (Nat.le_refl _))).bind fun args hargs =>
      abreast_same (hforms.call hop hleft hargs)
  · exact abreast_advance.bind fun _ _ => (hsub _ (lowest_le_level _)).bind fun right hright =>
      abreast_same (hforms.binary hop hlevel hk hleft hright)

end Operators

end Expressions

/-! ## Rules of two parses -/

/-- What is left in two parses, of the same rules or with more room in the second one. -/
structure Suits (lossy : Bool) (rules rules' : Rules) : Prop where
  ref_eq : rules'.ref = rules.ref
  limit_le : rules.limit ≤ rules'.limit
  same : lossy = false → rules' = rules

theorem abreast_expression {V : Nat → Expr → Prop} (hmissing : V 0 .missing)
    (hforms : ∀ room, Forms w.source.tokens (V room) (V (room + 1))) {rules rules' : Rules}
    (hrules : Suits w.lossy rules rules') {room room' : Nat} (hle : room ≤ room')
    (hroom : w.lossy = false → room' = room) (hleast : lowest ≤ least) :
    Abreast w again (expression rules room least) (expression rules' room' least) id
      (V room) := by
  induction room generalizing room' least with
  | zero =>
    have hbound : Abreast w again _ _ id (V 0) := abreast_depthExceeded rules hmissing
    cases hlossy : w.lossy with
    | true =>
      intro s s' hs h
      obtain ⟨hrun, hresult, -⟩ := hbound s s' hs h
      exact ⟨hrun, hresult,
        .inl ⟨hlossy, (run_depthExceeded rules hs).reported (reportDepth_reported rules _ s)⟩⟩
    | false =>
      rw [hroom hlossy, hrules.same hlossy]
      exact hbound
  | succ room ih =>
    obtain ⟨more, rfl⟩ : ∃ more, room' = more + 1 := Nat.exists_eq_add_one.2 (by omega)
    have hsub : ∀ n, lowest ≤ n →
        Abreast w again (expression rules room n) (expression rules' more n) id (V room) :=
      fun n hn => ih (Nat.le_of_succ_le_succ hle) (fun h => Nat.succ.inj (hroom h)) hn
    refine (abreast_operand hsub (hforms room)).bind fun left hleft => ?_
    refine abreast_operators (fun left hleft s s' hs h hend hlevel => ?_) hleft
    exact abreast_operatorTail hsub (hforms room) hleft hs h hend
      (Nat.lt_of_le_of_lt hleast hlevel)

/-! ## Parts of directives -/

theorem abreast_headerName (what : String) (t : Token) :
    Abreast w again (headerName what t) (headerName what t) id
      fun name => ∀ n ∈ name, n.NameIn w.source.tokens := by
  refine abreast_ifName (fun name hname hkind => abreast_same fun n hn => ?_) fun next hnext => ?_
  · rw [← Option.mem_some.1 hn]
    exact ⟨hname, hkind⟩
  · refine (abreast_reportAt hnext (.around (.around (by decide) _ _) _ _)).bind ?_
    exact fun _ _ => abreast_same fun n hn => absurd hn (Option.not_mem_none n)

theorem abreast_moreNames (separator : TokenKind) (mark : String) :
    Abreast w again (moreNames separator mark) (moreNames separator mark) id
      fun names => ∀ n ∈ names, n.NameIn w.source.tokens := by
  refine Abreast.bind (P := fun r => ∀ n ∈ r.1, n.NameIn w.source.tokens) (abreast_whileNext ?_)
    fun r hr => abreast_same hr
  refine abreast_ifName (fun name hname hkind => abreast_same fun items hitems => ?_)
    fun next hnext => ?_
  · cases hitems
    exact List.forall_mem_singleton.2 ⟨hname, hkind⟩
  · exact (abreast_reportAt hnext (.around (by decide) _ _)).bind fun _ _ => abreast_none

theorem abreast_separatedNames (separator : TokenKind) (mark : String) :
    Abreast w again (separatedNames separator mark) (separatedNames separator mark) id
      fun names => ∀ n ∈ names, n.NameIn w.source.tokens := by
  refine abreast_ifName (fun first hfirst hkind => ?_) fun _ _ => ?_
  · exact (abreast_moreNames separator mark).bind fun names hnames =>
      abreast_same (List.forall_mem_cons.2 ⟨⟨hfirst, hkind⟩, hnames⟩)
  · exact abreast_same fun n hn => absurd hn List.not_mem_nil

theorem abreast_parameterList :
    Abreast w again parameterList parameterList id
      fun names => ∀ n ∈ names, n.NameIn w.source.tokens := by
  refine (abreast_separatedNames _ _).bind fun names hnames => ?_
  refine (abreast_nextIs _).bind fun _ _ => abreast_ite Iff.rfl (fun _ => ?_) fun _ => ?_
  · exact abreast_advance.bind fun _ _ => abreast_same hnames
  · exact abreast_reportNext (by decide) (abreast_same hnames)

theorem abreast_importKind :
    Abreast w again importKind importKind id fun es => ∀ e ∈ es,
      ∃ n : Token, n.NameIn w.source.tokens ∧ e = .identifier n (Text.lower n.literal) := by
  refine abreast_ifNextIs (by decide) (fun t ht hk => ?_)
    (abreast_same fun e he => absurd he List.not_mem_nil)
  have hkind : ∀ e ∈ [Expr.identifier t (Text.lower t.literal)],
      ∃ n : Token, n.NameIn w.source.tokens ∧ e = .identifier n (Text.lower n.literal) :=
    List.forall_mem_singleton.2 ⟨t, ⟨ht, by rw [hk]; rfl⟩, rfl⟩
  refine abreast_ite Iff.rfl (fun _ => abreast_same hkind) fun _ => ?_
  have hreport : ∀ {message : String}, Ordinary message →
      Abreast w again (reportAt t message) (reportAt (w.ending.token t) message) id anything :=
    abreast_reportAt ht
  rw [w.token_of_kind hk (by decide)] at hreport
  exact (hreport (.around (by decide) _ _)).bind fun _ _ => abreast_same hkind

/-- The token of a member, and its value. -/
def MemberOf (tokens : List Token) (V : Expr → Prop) (m : Token × Option Expr) : Prop :=
  m.1.NameIn tokens ∧ ∀ e ∈ m.2, V e

theorem abreast_enumMember {V : Expr → Prop} {expr expr' : Parser Expr}
    (hexpr : Abreast w again expr expr' id V) :
    Abreast w again (enumMember expr) (enumMember expr') id
      fun r => ∀ m ∈ r.1, MemberOf w.source.tokens V m := by
  refine abreast_current.bind fun t ht => abreast_ite Iff.rfl (fun hkind => ?_) fun _ => ?_
  · have hname : t.NameIn w.source.tokens := ⟨ht, hkind⟩
    rw [w.ending.token_of_ne (kind_ne_end_of_isName hkind)]
    refine (abreast_nextIs _).bind fun _ _ => abreast_ite Iff.rfl (fun _ => ?_) fun _ => ?_
    · refine abreast_advance.bind fun _ _ => abreast_advance.bind fun _ _ => ?_
      refine hexpr.bind fun value hvalue => abreast_current.bind fun _ _ => abreast_same ?_
      simpa [MemberOf] using ⟨hname, hvalue⟩
    · exact abreast_same (by simpa [MemberOf] using hname)
  · refine abreast_ite Iff.rfl (fun _ => ?_) fun _ => ?_
    · exact abreast_same fun m hm => absurd hm List.not_mem_nil
    · exact (abreast_reportHere (.around (by decide) _ _)).bind fun _ _ =>
        abreast_same fun m hm => absurd hm List.not_mem_nil

/-! ## Directives -/

/-- The parser of a directive at `t`: parts of its header, one after the other, and at the end the
block that it may have. -/
inductive Framed (w : Pairing) (V : Expr → Prop) (t : Token)
    (block block' : Token → Parser Braces) :
    Parser Statement → Parser Statement → Prop
  | plain {d : Directive} (hd : d.Made w.source.tokens V) (ht : d.token = t) :
      Framed w V t block block' (pure (.directive d)) (pure (.directive d))
  | members {d : Directive} {opening closing : Token} (hd : d.Made w.source.tokens V)
      (ht : d.token = t) (hopening : opening ∈ w.source.tokens)
      (hclosing : closing ∈ w.source.tokens) (hname : d.name.isSome = d.form.namesBlock) :
      Framed w V t block block' (pure (.directiveBlock d opening [] closing))
        (pure (.directiveBlock d opening [] (w.ending.token closing)))
  | optional {d : Directive} (hd : d.Made w.source.tokens V) (ht : d.token = t)
      (hname : d.name.isSome = d.form.namesBlock) (hform : d.form ≠ .enumeration) :
      Framed w V t block block' (do let body ← optionalBlock block; return .ofDirective d body)
        (do let body ← optionalBlock block'; return .ofDirective d body)
  | required {d : Directive} (hd : d.Made w.source.tokens V) (ht : d.token = t)
      (hname : d.name.isSome = d.form.namesBlock) (hform : d.form ≠ .enumeration) :
      Framed w V t block block' (do let body ← requiredBlock block t; return .ofDirective d body)
        (do let body ← requiredBlock block' t; return .ofDirective d body)
  | behind {α : Type} {p q : Parser α} {F : α → α} {P : α → Prop} {f g : α → Parser Statement}
      (hp : Abreast w false p q F P) (hf : ∀ a, P a → Framed w V t block block' (f a) (g (F a))) :
      Framed w V t block block' (p >>= f) (q >>= g)

section Directives

variable {V : Expr → Prop} {t : Token} {expr expr' : Parser Expr}
  {block block' : Token → Parser Braces} {p p' q q' : Parser Statement} {tokens : List Token}
  {value : Expr}

namespace Framed

variable {yes yes' : Token → Parser Statement}

theorem ite {c c' : Prop} [Decidable c] [Decidable c'] (hc : c' ↔ c)
    (hyes : c → Framed w V t block block' p p') (hno : ¬c → Framed w V t block block' q q') :
    Framed w V t block block' (if c then p else q) (if c' then p' else q') := by
  by_cases h : c
  · rw [if_pos h, if_pos (hc.2 h)]
    exact hyes h
  · rw [if_neg h, if_neg fun h' => h (hc.1 h')]
    exact hno h

/-- Moving onto a token that was looked at. -/
theorem ifNext {cond : Token → Bool} {no no' : Token → Parser Statement}
    (hsame : ∀ t, cond (w.ending.token t) = cond t)
    (hend : ∀ t, cond t = true → t.kind ≠ .endOfText)
    (hyes : ∀ u ∈ w.source.tokens, cond u = true → Framed w V t block block' (yes u) (yes' u))
    (hno : ∀ u ∈ w.source.tokens,
      Framed w V t block block' (no u) (no' (w.ending.token u))) :
    Framed w V t block block'
      (peek >>= fun next => if cond next then advance >>= yes else no next)
      (peek >>= fun next => if cond next then advance >>= yes' else no' next) := by
  let take : Parser (Token ⊕ Token) := peek >>= fun next =>
    if cond next then advance >>= fun u => pure (.inr u) else pure (.inl next)
  have htake : Abreast w false take take (Sum.map w.ending.token id)
      (Sum.elim (· ∈ w.source.tokens) fun u => u ∈ w.source.tokens ∧ cond u = true) :=
    abreast_ifNext hsame hend (fun u hu hcond => abreast_pure rfl ⟨hu, hcond⟩)
      fun u hu => abreast_pure rfl hu
  have hfold : ∀ yes no : Token → Parser Statement,
      (peek >>= fun next => if cond next then advance >>= yes else no next) =
        take >>= Sum.elim no yes := by
    intro yes no
    show (peek >>= fun next => if cond next then advance >>= yes else no next) =
      peek >>= fun next =>
        (if cond next then advance >>= fun u => pure (.inr u) else pure (.inl next)) >>=
          Sum.elim no yes
    congr 1
    funext next
    split <;> rfl
  rw [hfold, hfold]
  refine .behind htake ?_
  rintro (u | u) hu
  · exact hno u hu
  · exact hyes u hu.1 hu.2

theorem ifName {no no' : Token → Parser Statement}
    (hyes : ∀ u, u.NameIn w.source.tokens → Framed w V t block block' (yes u) (yes' u))
    (hno : ∀ u ∈ w.source.tokens,
      Framed w V t block block' (no u) (no' (w.ending.token u))) :
    Framed w V t block block'
      (peek >>= fun next => if next.kind.isName then advance >>= yes else no next)
      (peek >>= fun next => if next.kind.isName then advance >>= yes' else no' next) :=
  ifNext (fun _ => rfl) (fun _ => kind_ne_end_of_isName) (fun u hu hname => hyes u ⟨hu, hname⟩) hno

theorem ifNextIs (hkind : kind ≠ .endOfText)
    (hyes : ∀ u ∈ w.source.tokens, Framed w V t block block' (yes u) (yes' u))
    (hno : Framed w V t block block' q q') :
    Framed w V t block block'
      (nextIs kind >>= fun found => if found then advance >>= yes else q)
      (nextIs kind >>= fun found => if found then advance >>= yes' else q') := by
  have hnext : Framed w V t block block'
      (peek >>= fun next => if next.kind == kind then advance >>= yes else q)
      (peek >>= fun next => if next.kind == kind then advance >>= yes' else q') :=
    ifNext (fun _ => rfl) (fun u hu => beq_iff_eq.1 hu ▸ hkind) (fun u hu _ => hyes u hu)
      fun _ _ => hno
  exact hnext

end Framed

theorem no_names : ∀ n ∈ ([] : List Token), n.NameIn tokens :=
  fun _ hn => absurd hn List.not_mem_nil

theorem made_anonymous (ht : t ∈ tokens) (hvalue : ValueOf tokens V t value) :
    Directive.Made tokens V ⟨t, none, [], value⟩ :=
  ⟨ht, fun n hn => absurd hn (Option.not_mem_none n), no_names, hvalue⟩

theorem made_named {parameters : List Token} (ht : t ∈ tokens) (hname : name.NameIn tokens)
    (hparameters : ∀ n ∈ parameters, n.NameIn tokens) (hvalue : ValueOf tokens V t value) :
    Directive.Made tokens V ⟨t, some name, parameters, value⟩ :=
  ⟨ht, fun _ hn => Option.mem_some.1 hn ▸ hname, hparameters, hvalue⟩

theorem valueOf_several {es : List Expr} (hes : ∀ e ∈ es, V e)
    (hform : DirectiveForm.ofWord (directiveWord t) = .data ∨
      DirectiveForm.ofWord (directiveWord t) = .enumeration) :
    ValueOf tokens V t (if es.isEmpty then .missing else .array t es) := by
  split
  · exact .missing
  · exact .several hes hform

theorem framed_reportNext (hm : Ordinary message) (hp : Framed w V t block block' p p') :
    Framed w V t block block' (do reportNext message; p) (do reportNext message; p') :=
  .behind (P := anything) (abreast_reportNext hm (abreast_same (a := ()) trivial)) fun _ _ => hp

section Frames

variable (ht : t ∈ w.source.tokens)
include ht

/-- A directive that was not read up to its value. -/
theorem framed_bare :
    Framed w V t block block' (pure (.directive ⟨t, none, [], .missing⟩))
      (pure (.directive ⟨t, none, [], .missing⟩)) :=
  .plain (made_anonymous ht .missing) rfl

theorem framed_encodingDirective
    (hform : DirectiveForm.ofWord (directiveWord t) = .encoding) :
    Framed w V t block block' (encodingDirective t) (encodingDirective t) :=
  .ifNextIs (by decide) (fun _ hs => .plain (made_anonymous ht (.text hs hform)) rfl)
    (framed_reportNext (by decide) (framed_bare ht))

/-- A directive whose name was not found. -/
theorem framed_unnamed {next : Token} (hnext : next ∈ w.source.tokens) (hm : Ordinary message) :
    Framed w V t block block'
      (do reportAt next message; return .directive ⟨t, none, [], .missing⟩)
      (do reportAt (w.ending.token next) message; return .directive ⟨t, none, [], .missing⟩) :=
  .behind (abreast_reportAt hnext hm) fun _ _ => framed_bare ht

theorem framed_defineDirective :
    Framed w V t block block' (defineDirective t) (defineDirective t) :=
  .ifName (fun _ hname => .plain (made_named ht hname no_names .missing) rfl)
    fun _ hnext => framed_unnamed ht hnext (.around (by decide) _ _)

theorem framed_importDirective
    (hform : DirectiveForm.ofWord (directiveWord t) = .importFile) :
    Framed w V t block block' (importDirective t) (importDirective t) := by
  refine .behind abreast_importKind fun kind hkind => .ifNextIs (by decide) (fun s hs => ?_) ?_
  · exact .plain (made_anonymous ht (.file hkind hs hform)) rfl
  · exact framed_reportNext (by decide) (framed_bare ht)

/-- The directives that start with a name. -/
theorem framed_header {what : String} {f f' : Option Token → Parser Statement}
    (hnone : f none = pure (.directive ⟨t, none, [], .missing⟩))
    (hnone' : f' none = pure (.directive ⟨t, none, [], .missing⟩))
    (hsome : ∀ name, name.NameIn w.source.tokens →
      Framed w V t block block' (f (some name)) (f' (some name))) :
    Framed w V t block block' (headerName what t >>= f) (headerName what t >>= f') := by
  refine .behind (abreast_headerName what t) ?_
  rintro (_ | name) hname
  · rw [hnone, id, hnone']
    exact framed_bare ht
  · exact hsome name (hname name rfl)

/-- The block of a directive whose block has a name and holds statements. -/
theorem framed_namedBody (hform : (DirectiveForm.ofWord (directiveWord t)).namesBlock = true)
    (hstatements : DirectiveForm.ofWord (directiveWord t) ≠ .enumeration) {parameters : List Token}
    (hname : name.NameIn w.source.tokens)
    (hparameters : ∀ n ∈ parameters, n.NameIn w.source.tokens) :
    Framed w V t block block'
      (do
        let body ← requiredBlock block t
        return .ofDirective ⟨t, some name, parameters, .missing⟩ body)
      (do
        let body ← requiredBlock block' t
        return .ofDirective ⟨t, some name, parameters, .missing⟩ body) :=
  .required (made_named ht hname hparameters .missing) rfl hform.symm hstatements

theorem framed_callableDirective
    (hform : (DirectiveForm.ofWord (directiveWord t)).namesBlock = true)
    (hstatements : DirectiveForm.ofWord (directiveWord t) ≠ .enumeration) (what : String) :
    Framed w V t block block' (callableDirective block what t)
      (callableDirective block' what t) := by
  refine framed_header ht rfl rfl fun name hname => ?_
  refine .behind (abreast_nextIs _) fun _ _ => .ite Iff.rfl (fun _ => ?_) fun _ => ?_
  · exact .behind abreast_advance fun _ _ => .behind abreast_parameterList fun _ hparameters =>
      framed_namedBody ht hform hstatements hname hparameters
  · exact .behind (abreast_same no_names) fun _ hparameters =>
      framed_namedBody ht hform hstatements hname hparameters

theorem framed_pseudocommandDirective
    (hform : (DirectiveForm.ofWord (directiveWord t)).namesBlock = true)
    (hstatements : DirectiveForm.ofWord (directiveWord t) ≠ .enumeration) :
    Framed w V t block block' (pseudocommandDirective block t)
      (pseudocommandDirective block' t) := by
  refine framed_header ht rfl rfl fun name hname => ?_
  refine .behind (abreast_separatedNames _ _) fun parameters hparameters => ?_
  refine .behind (abreast_nextIs _) fun _ _ => .ite Iff.rfl (fun _ => ?_) fun _ => ?_
  · exact framed_reportNext (by decide) (.plain (made_named ht hname hparameters .missing) rfl)
  · exact framed_namedBody ht hform hstatements hname hparameters

theorem framed_namespaceDirective
    (hform : (DirectiveForm.ofWord (directiveWord t)).namesBlock = true)
    (hstatements : DirectiveForm.ofWord (directiveWord t) ≠ .enumeration) :
    Framed w V t block block' (namespaceDirective block t) (namespaceDirective block' t) :=
  framed_header ht rfl rfl fun _ hname => framed_namedBody ht hform hstatements hname no_names

/-- The block of a directive whose block has no name. -/
theorem framed_anonymousBody (hform : (DirectiveForm.ofWord (directiveWord t)).namesBlock = false)
    (hvalue : ValueOf w.source.tokens V t value) :
    Framed w V t block block'
      (do let body ← optionalBlock block; return .ofDirective ⟨t, none, [], value⟩ body)
      (do let body ← optionalBlock block'; return .ofDirective ⟨t, none, [], value⟩ body) :=
  .optional (made_anonymous ht hvalue) rfl hform.symm fun henum =>
    Bool.false_ne_true (hform.symm.trans (congrArg DirectiveForm.namesBlock henum))

theorem framed_forDirective
    (hform : (DirectiveForm.ofWord (directiveWord t)).namesBlock = false) :
    Framed w V t block block' (forDirective block t) (forDirective block' t) := by
  refine .behind (abreast_nextIs _) fun _ _ => .ite Iff.rfl (fun _ => ?_) fun _ => ?_
  · exact .behind abreast_advance fun _ _ => .behind (abreast_skipNested _ _) fun _ _ =>
      framed_anonymousBody ht hform .missing
  · exact framed_anonymousBody ht hform .missing

variable (hexpr : Abreast w false expr expr' id V)
include hexpr

theorem framed_dataDirective (hform : DirectiveForm.ofWord (directiveWord t) = .data) :
    Framed w V t block block' (dataDirective expr t) (dataDirective expr' t) := by
  refine .behind abreast_hasValueOnLine fun _ _ => .ite Iff.rfl (fun _ => ?_) fun _ =>
    framed_bare ht
  refine .behind abreast_advance fun _ _ => .behind hexpr fun first hfirst => ?_
  refine .behind (P := fun r => ∀ e ∈ r.1, V e) (abreast_whileNext ?_) ?_
  · exact abreast_advance.bind fun _ _ =>
      abreast_ite Iff.rfl (fun _ => abreast_none) fun _ => abreast_item hexpr
  · rintro ⟨rest, stopped⟩ hrest
    have hall : ∀ e ∈ first.toList ++ rest, V e :=
      List.forall_mem_append.2 ⟨first.forall_toList hfirst, hrest⟩
    exact .plain (made_anonymous ht (valueOf_several hall (.inl hform))) rfl

theorem framed_namedDirective :
    Framed w V t block block' (namedDirective expr t) (namedDirective expr' t) := by
  refine .ifName (fun name hname => ?_) fun _ hnext =>
    framed_unnamed ht hnext (.around (by decide) _ _)
  have hbare : Framed w V t block block' (pure (.directive ⟨t, some name, [], .missing⟩))
      (pure (.directive ⟨t, some name, [], .missing⟩)) :=
    .plain (made_named ht hname no_names .missing) rfl
  refine .behind (abreast_nextIs _) fun _ _ => .ite Iff.rfl (fun _ => ?_) fun _ => hbare
  refine .behind abreast_advance fun _ _ => .behind abreast_peek fun _ _ => ?_
  refine .ite Iff.rfl (fun _ => hbare) fun _ => .behind abreast_advance fun _ _ => ?_
  exact .behind hexpr fun _ hvalue =>
    .plain (made_named ht hname no_names (.single hvalue)) rfl

theorem framed_enumDirective (hform : DirectiveForm.ofWord (directiveWord t) = .enumeration) :
    Framed w V t block block' (enumDirective expr t) (enumDirective expr' t) := by
  refine framed_header ht rfl rfl fun name hname => .ifNextIs (by decide) (fun opening hin => ?_) ?_
  · have hmembers : Abreast w false (untilKind endsBlock (enumMember expr))
        (untilKind endsBlock (enumMember expr')) (List.map id)
        fun members => ∀ m ∈ members, MemberOf w.source.tokens V m :=
      abreast_untilKind ((abreast_enumMember hexpr).congr fun r => by rw [List.map_id]; rfl)
    refine .behind abreast_advance fun _ _ => .behind hmembers fun members hall => ?_
    rw [List.map_id]
    have hnames : ∀ n ∈ members.map (·.1), n.NameIn w.source.tokens :=
      List.forall_mem_map.2 fun m hm => (hall m hm).1
    have hvalues : ∀ e ∈ members.flatMap fun m => (m.2.getD .missing).toList, V e := by
      intro e he
      obtain ⟨⟨n, value⟩, hm, he⟩ := List.mem_flatMap.1 he
      cases value with
      | none => cases he
      | some value => exact value.forall_toList ((hall _ hm).2 value rfl) e he
    have hmade := made_named ht hname hnames (valueOf_several hvalues (.inr hform))
    refine .behind abreast_current fun closing hclosing => .members hmade rfl hin hclosing ?_
    exact (congrArg DirectiveForm.namesBlock hform).symm
  · exact framed_reportNext (.around (by decide) _ _)
      (.plain (made_named ht hname no_names .missing) rfl)

theorem framed_ifDirective
    (hform : (DirectiveForm.ofWord (directiveWord t)).namesBlock = false) :
    Framed w V t block block' (ifDirective expr block t) (ifDirective expr' block' t) := by
  refine .behind (abreast_nextIs _) fun _ _ => .ite Iff.rfl (fun _ => ?_) fun _ => ?_
  · exact .behind abreast_advance fun _ _ => .behind hexpr fun _ hvalue =>
      framed_anonymousBody ht hform (.single hvalue)
  · exact .behind (abreast_same .missing) fun _ hvalue => framed_anonymousBody ht hform hvalue

theorem framed_genericDirective
    (hform : (DirectiveForm.ofWord (directiveWord t)).namesBlock = false) :
    Framed w V t block block' (genericDirective expr block t)
      (genericDirective expr' block' t) := by
  have hread : ∀ value, V value → Framed w V t block block'
      (do let body ← optionalBlock block; return .ofDirective ⟨t, none, [], value⟩ body)
      (do let body ← optionalBlock block'; return .ofDirective ⟨t, none, [], value⟩ body) :=
    fun _ hvalue => framed_anonymousBody ht hform (.single hvalue)
  refine .behind abreast_hasValueOnLine fun _ _ => .ite Iff.rfl (fun _ => ?_) fun _ => ?_
  · refine .behind abreast_advance fun _ _ => .ite Iff.rfl (fun _ => ?_) fun _ => ?_
    · exact .behind abreast_advance fun _ _ => .behind hexpr hread
    · exact .behind hexpr hread
  · exact .behind (abreast_same .missing) fun _ hvalue => framed_anonymousBody ht hform hvalue

theorem framed_directive :
    Framed w V t block block' (directive expr block t) (directive expr' block' t) := by
  unfold directive
  split
  · rename_i hform
    exact framed_encodingDirective ht hform
  · exact framed_defineDirective ht
  · rename_i hform
    exact framed_importDirective ht hform
  · rename_i hform
    exact framed_callableDirective ht (by rw [hform]; rfl) (by simp [hform]) _
  · rename_i hform
    exact framed_pseudocommandDirective ht (by rw [hform]; rfl) (by simp [hform])
  · rename_i hform
    exact framed_namespaceDirective ht (by rw [hform]; rfl) (by simp [hform])
  · rename_i hform
    exact framed_enumDirective ht hexpr hform
  · rename_i hform
    exact framed_dataDirective ht hexpr hform
  · rename_i hform
    exact framed_forDirective ht (by rw [hform]; rfl)
  · rename_i hform
    exact framed_ifDirective ht hexpr (by rw [hform]; rfl)
  · exact framed_namedDirective ht hexpr
  · rename_i hform
    exact framed_genericDirective ht hexpr (by rw [hform]; rfl)

end Frames

/-! ### Blocks of directives -/

variable {B : Braces → Prop}

theorem statement_ofDirective (e : Ending) (d : Directive) (body : Option Braces) :
    e.statement (.ofDirective d body) = .ofDirective d (body.map e.braces) := by
  cases body <;> rw [Statement.ofDirective, Ending.statement] <;> rfl

theorem abreast_body {m n : Parser (Option Braces)}
    (hbody : Abreast w true m n (Option.map w.ending.braces) fun body => ∀ b ∈ body, B b)
    {d : Directive} (hd : d.Made w.source.tokens V) (hname : d.name.isSome = d.form.namesBlock)
    (hform : d.form ≠ .enumeration) :
    Abreast w true (do let body ← m; return Statement.ofDirective d body)
      (do let body ← n; return .ofDirective d body) w.ending.statement
      (Statement.Made w.source.tokens V B) := by
  refine hbody.bind fun body hB => abreast_pure (statement_ofDirective _ d body).symm ?_
  cases body with
  | none => exact .directive hd
  | some b => exact .braced hd (hB b rfl) hname hform

section Blocks

variable (hblock : ∀ opening ∈ w.source.tokens, w.ending.token opening = opening →
  Abreast w true (block opening) (block' opening) w.ending.braces B)
include hblock

theorem abreast_optionalBlock :
    Abreast w true (optionalBlock block) (optionalBlock block') (Option.map w.ending.braces)
      fun body => ∀ b ∈ body, B b := by
  refine abreast_ifNextIs (by decide) (fun opening hin hkind => ?_) ?_
  · exact (hblock opening hin (w.token_of_kind hkind (by decide))).bind fun b hb =>
      abreast_pure rfl fun x hx => Option.mem_some.1 hx ▸ hb
  · exact abreast_pure rfl fun b hb => absurd hb (Option.not_mem_none b)

theorem abreast_requiredBlock (t : Token) :
    Abreast w true (requiredBlock block t) (requiredBlock block' t) (Option.map w.ending.braces)
      fun body => ∀ b ∈ body, B b := by
  refine (abreast_nextIs _).bind fun _ _ => abreast_ite Iff.rfl (fun _ => ?_) fun _ => ?_
  · exact abreast_optionalBlock hblock
  · exact abreast_reportNext (.around (by decide) _ _)
      (abreast_pure rfl fun b hb => absurd hb (Option.not_mem_none b))

theorem Framed.abreast (h : Framed w V t block block' p q) :
    Abreast w true p q w.ending.statement (Statement.Made w.source.tokens V B) := by
  induction h with
  | plain hd =>
    refine abreast_pure ?_ (.directive hd)
    rw [Ending.statement]
  | members hd _ hopening hclosing hname =>
    refine abreast_pure ?_ (.members hd hopening hclosing hname)
    rw [Ending.statement, Ending.statements]
  | optional hd _ hname hform => exact abreast_body (abreast_optionalBlock hblock) hd hname hform
  | required hd _ hname hform => exact abreast_body (abreast_requiredBlock hblock t) hd hname hform
  | behind hp _ ih => exact hp.raise.bind ih

end Blocks

end Directives

/-! ## Statements -/

section Statements

variable {V : Expr → Prop} {B : Braces → Prop} {rules rules' : Rules} {expr expr' : Parser Expr}
  {block block' : Token → Parser Braces} {t : Token}

theorem abreast_indexedOperand {operand : Expr} (hV : V operand) :
    Abreast w again (indexedOperand operand) (indexedOperand operand) id
      (OperandOf w.source.tokens V) := by
  intro s s' hs h
  let indexed : Parser Expr := advance >>= fun comma => advance >>= fun register =>
    pure (.indexed comma operand register)
  have hcases : ∀ s, (indexedOperand operand).run s =
      (if s.peek.kind = .comma && isIndexRegister s.peekSecond then indexed
      else pure operand).run s := fun _ => rfl
  have hpeeks : (s'.peek.kind = .comma && isIndexRegister s'.peekSecond) =
      (s.peek.kind = .comma && isIndexRegister s.peekSecond) := by
    rw [h.peek, h.peekSecond]
    rfl
  refine AbreastAt.congr ?_ (hcases s) (hcases s')
  rw [hpeeks]
  split
  · rename_i hindex
    obtain ⟨hcomma, hregister⟩ := Bool.and_eq_true_iff.1 hindex
    have hname := isName_of_isIndexRegister hregister
    rw [← State.advance_advance_current] at hname
    have hfirst : s.advance.current.kind ≠ .endOfText := by
      rw [State.advance_current, of_decide_eq_true hcomma]
      decide
    refine (abreast_advance s s' hs h).bind fun hcomma r hr => ?_
    refine (abreast_advance _ r hs.advance hr).bind fun hregister r hr => ?_
    refine abreast_pure ?_ (.indexed hcomma hV ⟨hregister, hname⟩) _ r hs.advance.advance hr
    show Expr.indexed (w.ending.token s.advance.current) operand
      (w.ending.token s.advance.advance.current) = _
    rw [w.ending.token_of_ne hfirst, w.ending.token_of_ne (kind_ne_end_of_isName hname)]
    rfl
  · exact abreast_same (.plain hV) s s' hs h

/-- An operand that was read without an error is checked. -/
theorem abreastAt_check (href : rules'.ref = rules.ref) (ht : t ∈ w.source.tokens)
    (hend : t.kind ≠ .endOfText) (operand : Expr) {c c' : Bool} (hc : w.whole = true → c' = c)
    (hs : s.Within w.source) (h : w.Linked s s') :
    AbreastAt w true (if c then checkMode rules t operand else pure ())
      (if c' then checkMode rules' t operand else pure ()) id anything s s' := by
  by_cases hsame : c' = c
  · rw [hsame]
    exact abreast_ite Iff.rfl (fun _ => abreast_checkMode href ht hend operand)
      (fun _ => abreast_same trivial) s s' hs h
  · -- only tokens are compared, and the check keeps them
    have hkeep : ∀ (c : Bool) (rules : Rules) (s : State),
        ((if c then checkMode rules t operand else pure ()).run s).2.tokens = s.tokens := by
      intro c rules s
      split
      · exact tokens_checkMode rules t operand s
      · rfl
    refine ⟨?_, trivial, .inr ⟨rfl, ?_, fun hw => absurd (hc hw) hsame⟩⟩
    · split
      · exact (along_checkMode rules ht operand s hs).1
      · exact .refl
    · rw [hkeep, hkeep, h.tokens]

/-- Whether an operand was read without an error between two states. -/
def readCleanly (before after : State) (operand : Expr) : Bool :=
  !operand.isMissing && after.diagnostics.length == before.diagnostics.length && !after.unwinding

/-- What is done with an operand that was read from the state `before`. -/
def readOperand (rules : Rules) (t : Token) (before : State) (operand : Expr) :
    Parser Statement := do
  let after ← state
  if readCleanly before after operand then
    checkMode rules t operand
    return .instruction t operand
  else
    return .instruction t operand

theorem readOperand_run (rules : Rules) (t : Token) (before : State) (operand : Expr)
    (s : State) :
    (readOperand rules t before operand).run s =
      ((if readCleanly before s operand then checkMode rules t operand else pure ()) >>= fun _ =>
        pure (.instruction t operand)).run s := by
  show (if readCleanly before s operand then
      (do checkMode rules t operand; return .instruction t operand)
    else return .instruction t operand : Parser Statement).run s = _
  split <;> rfl

theorem abreastAt_readOperand (href : rules'.ref = rules.ref) (ht : t ∈ w.source.tokens)
    (hend : t.kind ≠ .endOfText) {operand : Expr} (hoperand : OperandOf w.source.tokens V operand)
    {before before' : State} (hbefore : w.Linked before before') (hs : s.Within w.source)
    (h : w.Linked s s') :
    AbreastAt w true (readOperand rules t before operand) (readOperand rules' t before' operand)
      w.ending.statement (Statement.Made w.source.tokens V B) s s' := by
  refine AbreastAt.congr ?_ (readOperand_run _ _ _ _ _) (readOperand_run _ _ _ _ _)
  have hsame : w.whole = true →
      readCleanly before' s' operand = readCleanly before s operand := by
    intro hw
    rw [h.whole hw, hbefore.whole hw]
    simp [readCleanly, Ending.state]
  have hcheck := abreastAt_check href ht hend operand hsame hs h
  refine hcheck.bind fun _ r hr => ?_
  refine abreast_pure ?_ (.instruction ht hoperand) _ r (hcheck.run.within hs) hr
  rw [Ending.statement]

/-- A call as a statement. -/
theorem abreast_call (hname : name.NameIn w.source.tokens) {args : List Expr}
    (hargs : ∀ e ∈ args, V e) :
    Abreast w again (pure (Statement.expression name (.call name (.ofName name) args)))
      (pure (.expression name (.call name (.ofName name) args))) w.ending.statement
      (Statement.Made w.source.tokens V B) := by
  refine abreast_pure ?_ (.call hname hargs)
  rw [Ending.statement]

theorem Abreast.some {p q : Parser Statement} (h : Abreast w true p q w.ending.statement P) :
    Abreast w true (do return some (← p)) (do return some (← q)) (Option.map w.ending.statement)
      fun item => ∀ s ∈ item, P s :=
  h.bind fun _ hs => abreast_pure rfl fun _ hu => Option.mem_some.1 hu ▸ hs

section Values

variable (hexpr : Abreast w false expr expr' id V)
include hexpr

theorem abreast_nextOperand :
    Abreast w again (advance >>= fun _ => expr >>= indexedOperand)
      (advance >>= fun _ => expr' >>= indexedOperand) id (OperandOf w.source.tokens V) :=
  abreast_advance.bind fun _ _ => hexpr.raise.bind fun _ hV => abreast_indexedOperand hV

theorem abreast_instruction (href : rules'.ref = rules.ref) (hmissing : V .missing)
    (ht : t ∈ w.source.tokens) (hend : t.kind ≠ .endOfText) :
    Abreast w true (instruction rules expr t) (instruction rules' expr' t) w.ending.statement
      (Statement.Made w.source.tokens V B) := by
  refine abreast_hasValueOnLine.bind fun _ _ => abreast_ite Iff.rfl (fun _ => ?_) fun _ => ?_
  · intro s s' hs h
    have hvalue : AbreastAt w true _ _ id _ s s' := abreast_nextOperand hexpr s s' hs h
    refine AbreastAt.congr (hvalue.bind (f := readOperand rules t s) (g := readOperand rules' t s')
      fun hoperand r hr => ?_) rfl rfl
    exact abreastAt_readOperand href ht hend hoperand h (hvalue.run.within hs) hr
  · refine (abreast_checkMode href ht hend .missing).bind fun _ _ => ?_
    refine abreast_pure ?_ (.instruction ht (.plain hmissing))
    rw [Ending.statement]

theorem abreast_programCounter (ht : t ∈ w.source.tokens) :
    Abreast w again (programCounter expr t) (programCounter expr' t) w.ending.statement
      (Statement.Made w.source.tokens V B) := by
  have hread : ∀ value, ValueOf w.source.tokens V t value →
      Abreast w again (pure (Statement.directive ⟨t, none, [], value⟩))
        (pure (.directive ⟨t, none, [], value⟩)) w.ending.statement
        (Statement.Made w.source.tokens V B) := by
    intro value hvalue
    refine abreast_pure ?_ (.directive (made_anonymous ht hvalue))
    rw [Ending.statement]
  refine abreast_hasValueOnLine.bind fun _ _ => abreast_ite Iff.rfl (fun _ => ?_) fun _ => ?_
  · exact abreast_advance.bind fun _ _ => hexpr.raise.bind fun value hvalue =>
      hread value (.single hvalue)
  · exact hread .missing .missing

theorem abreast_macroCall (ht : t.NameIn w.source.tokens) :
    Abreast w again (macroCall expr t) (macroCall expr' t) w.ending.statement
      (Statement.Made w.source.tokens V B) :=
  abreast_advance.bind fun _ _ => (abreast_arguments hexpr.raise).bind fun _ hargs =>
    abreast_call ht hargs

theorem abreast_pseudocommandCall (ht : t.NameIn w.source.tokens) :
    Abreast w again (pseudocommandCall expr t) (pseudocommandCall expr' t) w.ending.statement
      (Statement.Made w.source.tokens V B) := by
  refine abreast_advance.bind fun _ _ => hexpr.raise.bind fun first hfirst => ?_
  refine Abreast.bind (P := fun r => ∀ e ∈ r.1, V e) (abreast_whileNext ?_) ?_
  · refine abreast_peek.bind fun _ _ => abreast_ite Iff.rfl (fun _ => abreast_none) fun _ => ?_
    exact abreast_advance.bind fun _ _ => abreast_item hexpr.raise
  · rintro ⟨rest, stopped⟩ hrest
    exact abreast_call ht (List.forall_mem_append.2 ⟨first.forall_toList hfirst, hrest⟩)

theorem abreast_statement (href : rules'.ref = rules.ref) (hmissing : V .missing)
    (hblock : ∀ opening ∈ w.source.tokens, w.ending.token opening = opening →
      Abreast w true (block opening) (block' opening) w.ending.braces B) :
    Abreast w true (statement rules expr block) (statement rules' expr' block')
      (Option.map w.ending.statement) fun item => ∀ s ∈ item, s.Made w.source.tokens V B := by
  have hnone : Abreast w true (pure none) (pure none) (Option.map w.ending.statement)
      fun item => ∀ s ∈ item, s.Made w.source.tokens V B :=
    abreast_pure rfl fun s hs => absurd hs (Option.not_mem_none s)
  refine abreast_current.bind fun t ht => ?_
  by_cases hend : t.kind = .endOfText
  · obtain ⟨kind, literal, place, context, note⟩ := t
    cases hend
    exact hnone
  · have hstay := w.ending.token_of_ne hend
    rw [hstay]
    split
    · refine abreast_pure ?_ fun s hs => Option.mem_some.1 hs ▸ .label ht
      rw [Option.map_some, Ending.statement]
    · exact (abreast_instruction hexpr href hmissing ht hend).some
    · exact (abreast_programCounter hexpr ht).some
    · refine (abreast_nextIs _).bind fun _ _ => abreast_ite Iff.rfl (fun _ => ?_) fun _ => hnone
      exact abreast_advance.bind fun _ _ => (abreast_programCounter hexpr ht).some
    · exact ((framed_directive ht hexpr).abreast hblock).some
    · rename_i hk
      have hname : t.NameIn w.source.tokens := ⟨ht, by rw [hk]; rfl⟩
      refine (abreast_nextIs _).bind fun _ _ => abreast_ite Iff.rfl (fun _ => ?_) fun _ => ?_
      · exact (abreast_macroCall hexpr hname).some
      · refine abreast_hasValueOnLine.bind fun _ _ =>
          abreast_ite Iff.rfl (fun _ => ?_) fun _ => hnone
        exact (abreast_pseudocommandCall hexpr hname).some
    · rename_i hk
      refine (abreast_builtinCall hexpr.raise t).bind ?_
      rintro _ (rfl | ⟨args, hargs, rfl⟩)
      · exact hnone
      · exact (abreast_call ⟨ht, by rw [hk]; rfl⟩ hargs).some
    · refine (hblock t ht hstay).bind fun b hb => abreast_pure ?_ fun s hs => ?_
      · rw [Option.map_some, Ending.statement]
        rfl
      · rw [← Option.mem_some.1 hs]
        exact .block hb
    · exact hexpr.raise.bind fun _ _ => hnone
    · exact hnone

end Values

end Statements

/-! ## Blocks and programs -/

/-- The parser of statements with some room for nesting left. -/
def statementAt (rules : Rules) (room : Nat) : Parser (Option Statement) :=
  statement rules (expression rules room lowest) (block rules room)

/-- One turn of the loops over statements: messages are heard again, and a statement is read. -/
def statementTurn (item : Parser (Option Statement)) : Parser (List Statement × Bool) := do
  setUnwinding false
  let s ← item
  return (s.toList, false)

theorem statements_eq (stop : TokenKind → Bool) (item : Parser (Option Statement)) :
    statements stop item = untilKind stop (statementTurn item) := rfl

theorem abreast_statementTurn {item item' : Parser (Option Statement)}
    (hitem : Abreast w true item item' (Option.map w.ending.statement)
      fun item => ∀ s ∈ item, P s) :
    Abreast w true (statementTurn item) (statementTurn item')
      (fun r => (r.1.map w.ending.statement, r.2)) fun r => ∀ s ∈ r.1, P s := by
  refine abreast_resume.bind fun _ _ => hitem.bind fun s hs => abreast_pure ?_ fun u hu => ?_
  · cases s <;> rfl
  · exact hs u (Option.mem_toList.1 hu)

theorem abreast_statements (stop : TokenKind → Bool) {item item' : Parser (Option Statement)}
    (hitem : Abreast w true item item' (Option.map w.ending.statement)
      fun item => ∀ s ∈ item, P s) :
    Abreast w true (statements stop item) (statements stop item') w.ending.statements
      fun sts => ∀ s ∈ sts, P s := by
  have hloop : Abreast w true (statements stop item) (statements stop item')
      (List.map w.ending.statement) fun sts => ∀ s ∈ sts, P s :=
    abreast_untilKind (abreast_statementTurn hitem)
  exact hloop.congr fun body => (w.ending.statements_eq_map body).symm

/-- The parser of the block that the bound refuses, once that is reported. -/
def skipBlock (opening : Token) : Parser Braces :=
  skipNested .leftBrace .rightBrace >>= fun depth =>
    if depth = 0 then current >>= fun closing => pure ⟨opening, [], closing⟩
    else advance >>= fun closing => pure ⟨opening, [], closing⟩

section Programs

variable {V : Nat → Expr → Prop} {B : Nat → Braces → Prop} (hlayers : Layers w.source.tokens V B)
  {rules rules' : Rules} (hrules : Suits w.lossy rules rules') {room room' : Nat}
include hlayers

theorem abreast_skipBlock (ht : opening ∈ w.source.tokens) :
    Abreast w again (skipBlock opening) (skipBlock opening) w.ending.braces (B 0) := by
  have hsealed : ∀ closing, Braces.mk opening [] (w.ending.token closing) =
      w.ending.braces ⟨opening, [], closing⟩ := by
    intro closing
    rw [Ending.braces, Ending.statements]
  refine (abreast_skipNested _ _).bind fun depth _ => abreast_ite Iff.rfl (fun _ => ?_) fun _ => ?_
  · exact abreast_current.bind fun closing hclosing =>
      abreast_pure (hsealed closing) (hlayers.refused ht hclosing)
  · exact abreast_advance.bind fun closing hclosing =>
      abreast_pure (hsealed closing) (hlayers.refused ht hclosing)

include hrules

theorem abreast_item_at (hle : room ≤ room') (hroom : w.lossy = false → room' = room)
    (hblock : ∀ opening ∈ w.source.tokens, w.ending.token opening = opening →
      Abreast w true (block rules room opening) (block rules' room' opening) w.ending.braces
        (B room)) :
    Abreast w true (statementAt rules room) (statementAt rules' room')
      (Option.map w.ending.statement)
      fun item => ∀ s ∈ item, s.Made w.source.tokens (V room) (B room) :=
  abreast_statement
    (abreast_expression hlayers.missing hlayers.forms hrules hle hroom (Nat.le_refl _))
    hrules.ref_eq (hlayers.missing_at room) hblock

theorem abreast_block (hle : room ≤ room') (hroom : w.lossy = false → room' = room)
    (ht : opening ∈ w.source.tokens) (hstay : w.ending.token opening = opening) :
    Abreast w true (block rules room opening) (block rules' room' opening) w.ending.braces
      (B room) := by
  induction room generalizing room' opening with
  | zero =>
    have hplace : w.source.Marks opening.place := .inl ⟨opening, ht, rfl⟩
    have hskip : Abreast w true (skipBlock opening) (skipBlock opening) w.ending.braces (B 0) :=
      abreast_skipBlock hlayers ht
    cases hlossy : w.lossy with
    | true => exact abreast_lose hlossy rules (f := fun _ => skipBlock opening) hplace hskip.along _
    | false =>
      rw [hroom hlossy, hrules.same hlossy]
      have hreport : Abreast w true (reportDepth rules opening.place)
          (reportDepth rules (w.ending.place opening.place)) id anything :=
        abreast_reportDepth rules hplace
      rw [(w.apart opening ht).place_eq hstay] at hreport
      exact hreport.bind fun _ _ => hskip
  | succ room ih =>
    obtain ⟨more, rfl⟩ : ∃ more, room' = more + 1 := Nat.exists_eq_add_one.2 (by omega)
    have hmore : w.lossy = false → more = room := fun h => Nat.succ.inj (hroom h)
    have hitem := abreast_item_at hlayers hrules (Nat.le_of_succ_le_succ hle) hmore
      fun opening ht => ih (Nat.le_of_succ_le_succ hle) hmore ht
    refine abreast_advance.bind fun _ _ => (abreast_statements _ hitem).bind fun body hbody => ?_
    exact abreast_current.bind fun closing hclosing =>
      abreast_pure rfl (hlayers.block ht hclosing hbody)

theorem abreast_statementAt (hle : room ≤ room') (hroom : w.lossy = false → room' = room) :
    Abreast w true (statementAt rules room) (statementAt rules' room')
      (Option.map w.ending.statement)
      fun item => ∀ s ∈ item, s.Made w.source.tokens (V room) (B room) :=
  abreast_item_at hlayers hrules hle hroom fun _ => abreast_block hlayers hrules hle hroom

/-- **Two parses go abreast**: with the end of the text moved, or with more room for nesting as long
as the bound is not met. The first one is a sequence of steps, and its statements are made by the
grammar. -/
theorem abreast_program :
    Abreast w true (program rules w.source.overflow)
      (program rules' (w.source.overflow.map w.ending.place)) w.ending.statements
      fun sts => ∀ s ∈ sts, s.Made w.source.tokens (V rules.limit) (B rules.limit) := by
  have hall := abreast_statements (· == .endOfText)
    (abreast_statementAt hlayers hrules hrules.limit_le fun h => by rw [hrules.same h])
  cases hoverflow : w.source.overflow with
  | none => exact hall
  | some place =>
    cases hlossy : w.lossy with
    | true => exact abreast_lose hlossy rules (.inr hoverflow) hall.along _
    | false =>
      rw [hrules.same hlossy] at hall ⊢
      exact (abreast_reportDepth rules (.inr hoverflow)).bind fun _ _ => hall

end Programs

/-! ## One parse -/

section Alone

variable {src : Source} (rules : Rules) (room : Nat)

theorem suits_self (lossy : Bool) (rules : Rules) : Suits lossy rules rules :=
  ⟨rfl, Nat.le_refl _, fun _ => rfl⟩

theorem abreast_expression_self (h : lowest ≤ least) :
    Abreast (.still src false false) again (expression rules room least)
      (expression rules room least) id (Expr.From src.tokens) :=
  abreast_expression (w := .still src false false) .missing (fun _ => forms_from)
    (suits_self _ rules) (Nat.le_refl room) (fun _ => rfl) h

theorem along_expression (h : lowest ≤ least) :
    Along src again (expression rules room least) (Expr.From src.tokens) :=
  (abreast_expression_self rules room h).along

theorem along_block (ht : opening ∈ src.tokens) :
    Along src true (block rules room opening) (Braces.From src.tokens) :=
  (abreast_block (w := .still src false false) layers_from (suits_self _ rules)
    (Nat.le_refl room) (fun _ => rfl) ht (Ending.still.token_of_eq rfl opening)).along

theorem abreast_statementAt_self :
    Abreast (.still src false false) true (statementAt rules room) (statementAt rules room)
      (Option.map Ending.still.statement) fun item => ∀ s ∈ item, s.AllFrom src.tokens :=
  (abreast_statementAt (w := .still src false false) layers_from (suits_self _ rules)
    (Nat.le_refl room) fun _ => rfl).mono fun _ h s hs => (h s hs).allFrom

theorem along_statementAt :
    Along src true (statementAt rules room) fun item => ∀ s ∈ item, s.AllFrom src.tokens :=
  (abreast_statementAt_self rules room).along

theorem along_statementTurn :
    Along src true (statementTurn (statementAt rules room))
      fun r => ∀ s ∈ r.1, s.AllFrom src.tokens :=
  (abreast_statementTurn (abreast_statementAt_self rules room)).along

/-- **A parse is a sequence of steps**, and its statements are made of tokens of the source. -/
theorem along_program (src : Source) :
    Along src true (program rules src.overflow) fun sts => ∀ s ∈ sts, s.AllFrom src.tokens :=
  ((abreast_program (w := .still src false false) layers_from (suits_self _ rules)).mono
    fun _ h s hs => (h s hs).allFrom).along

end Alone

end Asm6510.Grammar
