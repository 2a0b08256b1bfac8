import Asm6510.Proofs.Grammar.Tokenwise
import Asm6510.Scope.Definitions
import Mathlib

/-!
# Members of enumerations and their values

The parser of enumerations gives the members in one list and the values that could be read in
another one. Which value belongs to which member is found out later, by the places of their tokens.

* `behind`: the tokens behind a token.
* `valueBehind`: the expression behind the equals sign of a member.
* `Paired`: members in the order of their tokens, each with the value behind it.

Main statement: `parse_enumeration_members`, every member gets the value that was read behind it,
and no value is lost. The token of a value stands between its member and the next one
(`Paired.before`), so the last member before that token is the member of the value (`Paired.owner`).
-/

namespace Asm6510

namespace Grammar

/-- The tokens behind the first occurrence of a token. -/
def behind (t : Token) (tokens : List Token) : List Token :=
  (tokens.dropWhile (· != t)).drop 1

/-- The expression behind the equals sign of a member, given the tokens behind the member. -/
def valueBehind (rules : Rules) (room : Nat) (t : Token) (rest : List Token) : Expr :=
  let s := State.start t rest
  if s.peek.kind = .equal then ((expression rules room lowest).run s.advance.advance).1
  else .missing

/-- The value of a member, which may be missing. -/
def valueOf (m : Token × Option Expr) : Expr :=
  m.2.getD .missing

/-- Members in the order of their tokens. The value of each is what is read behind it, and it was
read from tokens before the next member. -/
inductive Paired (rules : Rules) (room : Nat) : List (Token × Option Expr) → List Token → Prop
  | nil (tokens : List Token) : Paired rules room [] tokens
  | cons {m : Token × Option Expr} {members : List (Token × Option Expr)}
      {front between rest : List Token}
      (hvalue : valueOf m = valueBehind rules room m.1 (between ++ rest))
      (htoken : ∀ v ∈ (valueOf m).token?, v ∈ between) (hrest : Paired rules room members rest) :
      Paired rules room (m :: members) (front ++ m.1 :: (between ++ rest))

/-! ## Reading members -/

section Reading

variable {rules : Rules} {room : Nat} {expr : Parser Expr} {s : State}

theorem Paired.prepend {members : List (Token × Option Expr)} {tokens : List Token}
    (h : Paired rules room members tokens) (front : List Token) :
    Paired rules room members (front ++ tokens) := by
  cases h with
  | nil => exact .nil _
  | cons hvalue htoken hrest =>
    rw [← List.append_assoc]
    exact .cons hvalue htoken hrest

/-- One turn of the loop over members: a member with a value, a member without one, or a token
between members. -/
theorem enumMember_cases (expr : Parser Expr) (s : State) :
    (s.current.kind.isName = true ∧ s.peek.kind = .equal ∧
      (enumMember expr).run s =
        (([(s.current, some (expr.run s.advance.advance).1)],
          endsBlock (expr.run s.advance.advance).2.current.kind),
          (expr.run s.advance.advance).2)) ∨
    (s.peek.kind ≠ .equal ∧ (enumMember expr).run s = (([(s.current, none)], false), s)) ∨
    (((enumMember expr).run s).1 = ([], false) ∧
      ((enumMember expr).run s).2.tokens = s.tokens) := by
  by_cases hname : s.current.kind.isName = true
  · by_cases hequal : s.peek.kind = .equal
    · refine .inl ⟨hname, hequal, ?_⟩
      simp [enumMember, current, nextIs, advance, hname, hequal]
    · refine .inr (.inl ⟨hequal, ?_⟩)
      simp [enumMember, current, nextIs, hname, hequal]
  · refine .inr (.inr ?_)
    by_cases hcomma : s.current.kind = .comma
    · simp [enumMember, current, hcomma, TokenKind.isName]
    · have hreport := (s.grows_reportAt s.current
        ("Unexpected token '" ++ s.current.literal ++ "' in expression")).tokens_eq
      simpa [enumMember, current, reportHere, hname, hcomma] using hreport

/-- The tokens that the value of a member was read from. -/
theorem exists_valueTokens (rules : Rules) (room : Nat) (hname : s.current.kind.isName = true)
    (hequal : s.peek.kind = .equal) :
    ∃ between, s.ahead = between ++
        ((expression rules room lowest).run s.advance.advance).2.ahead ∧
      ∀ v ∈ ((expression rules room lowest).run s.advance.advance).1.token?, v ∈ between := by
  have hne : s.ahead ≠ [] := by
    intro hnil
    rw [State.peek_of_nil hnil] at hequal
    rw [hequal] at hname
    cases hname
  let src : Source := ⟨s.ahead, none⟩
  have hs : s.advance.Within src := by
    rw [State.Within, State.tokens_advance hne]
  have hrun : Run src false s.advance.advance _ :=
    (along_expression rules room (Nat.le_refl _) s.advance.advance hs.advance).1
  obtain ⟨between, hbetween⟩ : ((expression rules room lowest).run s.advance.advance).2.ahead <:+
      s.ahead :=
    hrun.ahead_suffix.trans ((List.suffix_cons _ _).trans hs.advance)
  refine ⟨between, hbetween.symm, fun v hv => ?_⟩
  obtain ⟨front, hfront, hv⟩ := taken_expression rules room (Nat.le_refl _) _ hs.advance v hv
  have heq : front ++ _ = between ++ _ := hfront.symm.trans hbetween.symm
  rwa [List.append_cancel_right heq] at hv

theorem valueBehind_of_equal (rules : Rules) (room : Nat) (hequal : s.peek.kind = .equal) :
    valueBehind rules room s.current s.ahead =
      ((expression rules room lowest).run s.advance.advance).1 := by
  have htokens : (State.start s.current s.ahead).tokens = s.tokens := rfl
  have hpeek := State.peek_congr htokens
  have hadvance := State.tokens_advance_congr (State.tokens_advance_congr htokens)
  rw [valueBehind, hpeek, if_pos hequal]
  exact (tokenwise_expression rules room (Nat.le_refl _) _ _ hadvance).1

theorem valueBehind_of_ne (hequal : s.peek.kind ≠ .equal) :
    valueBehind rules room s.current s.ahead = .missing := by
  have hpeek : (State.start s.current s.ahead).peek = s.peek := State.peek_congr rfl
  rw [valueBehind, hpeek, if_neg hequal]

/-- One turn gives the member at the current token, if there is one, before the members behind. -/
theorem paired_turn (rules : Rules) (room : Nat) (s : State) {more : List (Token × Option Expr)}
    (hmore : Paired rules room more ((enumMember (expression rules room lowest)).run s).2.ahead) :
    Paired rules room (((enumMember (expression rules room lowest)).run s).1.1 ++ more)
      s.tokens := by
  rcases enumMember_cases (expression rules room lowest) s with
    ⟨hname, hequal, hrun⟩ | ⟨hequal, hrun⟩ | ⟨hresult, htokens⟩
  · obtain ⟨between, hahead, htoken⟩ := exists_valueTokens rules room hname hequal
    rw [hrun] at hmore ⊢
    have hvalue := valueBehind_of_equal rules room hequal
    rw [hahead] at hvalue
    rw [State.tokens, hahead]
    show Paired rules room (_ :: more) ([] ++ s.current :: (between ++ _))
    exact .cons hvalue.symm htoken hmore
  · rw [hrun] at hmore ⊢
    show Paired rules room ((s.current, none) :: more) ([] ++ s.current :: ([] ++ s.ahead))
    exact .cons (valueBehind_of_ne hequal).symm
      (fun v hv => absurd hv (Option.not_mem_none v)) hmore
  · rw [hresult, List.nil_append]
    rw [(State.tokens_eq_iff.1 htokens).2] at hmore
    exact hmore.prepend [s.current]

theorem paired_members (rules : Rules) (room : Nat) (s : State) :
    Paired rules room
      ((untilKind endsBlock (enumMember (expression rules room lowest))).run s).1 s.tokens := by
  induction s using State.left_induction with
  | _ s ih =>
    cases hstop : endsBlock s.current.kind with
    | true =>
      rw [untilKind_stop hstop]
      exact .nil _
    | false =>
      rw [untilKind_turn hstop]
      split
      · have hlast := paired_turn rules room s (.nil _)
        rwa [List.append_nil] at hlast
      · rename_i hgo
        obtain ⟨t, rest, hahead⟩ := List.exists_cons_of_ne_nil fun hnil => hgo (.inr hnil)
        have hlt := Nat.lt_of_lt_of_le (State.left_advance_lt hahead)
          ((enumMember (expression rules room lowest)).left_le s)
        have hmore := ih _ hlt
        rw [State.tokens_advance (hahead ▸ List.cons_ne_nil t rest)] at hmore
        exact paired_turn rules room s hmore

end Reading

/-! ## Values and their members -/

section Order

variable {rules : Rules} {room : Nat} {members : List (Token × Option Expr)} {tokens : List Token}

theorem Paired.mem (h : Paired rules room members tokens) :
    ∀ m ∈ members, m.1 ∈ tokens ∧ ∀ v ∈ (valueOf m).token?, v ∈ tokens := by
  induction h with
  | nil => simp
  | cons _ htoken _ ih =>
    rintro m (_ | ⟨_, hm⟩)
    · refine ⟨by simp, fun v hv => ?_⟩
      simp [htoken v hv]
    · obtain ⟨hname, hvalue⟩ := ih m hm
      refine ⟨by simp [hname], fun v hv => ?_⟩
      simp [hvalue v hv]

theorem behind_append {t : Token} {front : List Token} (rest : List Token) (h : t ∉ front) :
    behind t (front ++ rest) = behind t rest := by
  have hfront : front.dropWhile (· != t) = [] := by
    rw [List.dropWhile_eq_nil_iff]
    intro u hu
    simpa using fun heq : u = t => h (heq ▸ hu)
  rw [behind, List.dropWhile_append, hfront]
  rfl

theorem behind_cons_self (t : Token) (rest : List Token) : behind t (t :: rest) = rest := by
  simp [behind]

theorem Paired.value_eq (h : Paired rules room members tokens) (hnodup : tokens.Nodup) :
    ∀ m ∈ members, valueOf m = valueBehind rules room m.1 (behind m.1 tokens) := by
  induction h with
  | nil => simp
  | @cons head members front between rest hvalue htoken hrest ih =>
    have hapart := (List.nodup_append.1 hnodup).2.2
    have hnotin : head.1 ∉ front := fun hmem => hapart _ hmem _ (by simp) rfl
    rintro m (_ | ⟨_, hm⟩)
    · rw [behind_append _ hnotin, behind_cons_self, hvalue]
    · have hassoc : front ++ head.1 :: (between ++ rest) =
          (front ++ head.1 :: between) ++ rest := by
        simp
      rw [hassoc] at hnodup ⊢
      obtain ⟨-, hrestnodup, hdisjoint⟩ := List.nodup_append.1 hnodup
      have hlater : m.1 ∉ front ++ head.1 :: between :=
        fun hmem => hdisjoint _ hmem _ (hrest.mem m hm).1 rfl
      rw [behind_append _ hlater]
      exact ih hrestnodup m hm

/-- The token of a value stands behind its member and those before it, and before all others. -/
theorem Paired.before (h : Paired rules room members tokens)
    (hinc : tokens.Pairwise fun t u => t.place.before u.place = true)
    {front rest : List (Token × Option Expr)} {m : Token × Option Expr}
    (hsplit : members = front ++ m :: rest) {v : Token} (hv : v ∈ (valueOf m).token?) :
    (∀ a ∈ front ++ [m], a.1.place.before v.place = true) ∧
      ∀ b ∈ rest, b.1.place.before v.place = false := by
  induction h generalizing front with
  | nil => simp at hsplit
  | @cons head members _ between tokens _ htoken hrest ih =>
    obtain ⟨hhead, hbehind⟩ := List.pairwise_cons.1 (List.pairwise_append.1 hinc).2.1
    obtain ⟨-, hinc, hacross⟩ := List.pairwise_append.1 hbehind
    cases front with
    | nil =>
      obtain ⟨rfl, rfl⟩ := List.cons_eq_cons.1 hsplit
      refine ⟨?_, fun b hb => ?_⟩
      · simpa using hhead v (List.mem_append_left _ (htoken v hv))
      · have hlt := hacross v (htoken v hv) b.1 (hrest.mem b hb).1
        rw [Place.before_iff] at hlt
        rw [Bool.eq_false_iff, Ne, Place.before_iff]
        omega
    | cons a front =>
      obtain ⟨rfl, rfl⟩ := List.cons_eq_cons.1 hsplit
      obtain ⟨hbefore, hafter⟩ := ih hinc rfl
      have hmem : v ∈ tokens := (hrest.mem m (by simp)).2 v hv
      refine ⟨List.forall_mem_cons.2 ⟨hhead v (List.mem_append_right _ hmem), hbefore⟩, hafter⟩

theorem owner?_append {front rest : List Token} {t : Token} {place : Place}
    (hfront : ∀ a ∈ front ++ [t], a.place.before place = true)
    (hrest : ∀ b ∈ rest, b.place.before place = false) :
    Enumeration.owner? (front ++ t :: rest) place = some front.length := by
  have hbefore : ((front ++ [t]).zipIdx.filter fun m => m.1.place.before place) =
      (front ++ [t]).zipIdx :=
    List.filter_eq_self.2 fun m hm => hfront m.1 (List.fst_mem_of_mem_zipIdx hm)
  have hafter : ((rest.zipIdx (front ++ [t]).length).filter fun m => m.1.place.before place) = [] :=
    List.filter_eq_nil_iff.2 fun m hm => by simp [hrest m.1 (List.fst_mem_of_mem_zipIdx hm)]
  have hsplit : front ++ t :: rest = (front ++ [t]) ++ rest := by simp
  rw [Enumeration.owner?, hsplit, List.zipIdx_append, List.filter_append, hbefore,
    Nat.zero_add, hafter]
  simp [List.zipIdx_append]

/-- The place of a value tells its member. -/
theorem Paired.owner (h : Paired rules room members tokens)
    (hinc : tokens.Pairwise fun t u => t.place.before u.place = true) {i : Nat}
    {m : Token × Option Expr} (hm : members[i]? = some m) {v : Token}
    (hv : v ∈ (valueOf m).token?) :
    Enumeration.owner? (members.map (·.1)) v.place = some i := by
  obtain ⟨hi, rfl⟩ := List.getElem?_eq_some_iff.1 hm
  have hsplit : members = members.take i ++ members[i] :: members.drop (i + 1) := by simp
  have hnames : members.map (·.1) =
      (members.take i).map (·.1) ++ members[i].1 :: (members.drop (i + 1)).map (·.1) := by
    rw [← List.map_cons, ← List.map_append, ← hsplit]
  have hlength : ((members.take i).map (·.1)).length = i := by
    simp [Nat.le_of_lt hi]
  obtain ⟨hbefore, hafter⟩ := h.before hinc hsplit hv
  rw [hnames, owner?_append, hlength]
  · rw [← List.map_singleton, ← List.map_append]
    exact List.forall_mem_map.2 hbefore
  · exact List.forall_mem_map.2 hafter

end Order

end Grammar

namespace Enumeration

theorem mem_flatMap_toList {e : Expr} {values : List Expr} :
    e ∈ values.flatMap Expr.toList ↔ e ∈ values ∧ e.isMissing = false := by
  simp only [List.mem_flatMap, Expr.toList]
  constructor
  · rintro ⟨x, hx, he⟩
    split at he
    · cases he
    · obtain rfl := List.mem_singleton.1 he
      exact ⟨hx, by simpa using ‹¬ e.isMissing = true›⟩
  · rintro ⟨he, hgiven⟩
    exact ⟨e, he, by simp [hgiven]⟩

/-- Where each value is known by its index, the value of an index is found. -/
theorem find?_index {label : Expr → Option Nat} {values : List Expr} {k : Nat}
    (h : ∀ i e, values[i]? = some e → e.isMissing = false → label e = some (k + i)) (i : Nat) :
    ((values.flatMap Expr.toList).find? fun e => label e == some (k + i)).map Expr.render =
      values[i]?.bind Expr.text? := by
  induction values generalizing k i with
  | nil => rfl
  | cons e values ih =>
    have hrest : ∀ j e, values[j]? = some e → e.isMissing = false → label e = some (k + 1 + j) := by
      intro j e he hgiven
      rw [h (j + 1) e (by simpa using he) hgiven]
      congr 1
      omega
    rw [List.flatMap_cons, List.find?_append]
    cases i with
    | zero =>
      have hnone :
          (values.flatMap Expr.toList).find? (fun e => label e == some (k + 0)) = none := by
        rw [List.find?_eq_none]
        intro x hx
        obtain ⟨hmem, hgiven⟩ := mem_flatMap_toList.1 hx
        obtain ⟨j, hj⟩ := List.getElem?_of_mem hmem
        rw [hrest j x hj hgiven]
        simp
        omega
      rw [hnone, Option.or_none]
      cases hgiven : e.isMissing with
      | true => simp [Expr.toList, Expr.text?, hgiven]
      | false => simp [Expr.toList, Expr.text?, hgiven, h 0 e rfl hgiven]
    | succ i =>
      have hskip : e.toList.find? (fun e => label e == some (k + (i + 1))) = none := by
        rw [List.find?_eq_none]
        intro x hx
        cases hgiven : e.isMissing with
        | true => simp [Expr.toList, hgiven] at hx
        | false =>
          simp only [Expr.toList, hgiven, Bool.false_eq_true, if_false, List.mem_singleton] at hx
          rw [hx, h 0 e rfl hgiven]
          simp
      have hindex : k + (i + 1) = k + 1 + i := by omega
      rw [hskip, Option.none_or, hindex, ih hrest]
      simp

end Enumeration

/-! ## The enumerations of a parse -/

namespace Grammar

variable {src : Source} {rules : Rules} {room : Nat}

theorem elements_values (t : Token) (values : List Expr) :
    Enumeration.elements (if values.isEmpty then .missing else .array t values) = values := by
  cases values <;> rfl

/-- An enumeration with a block gives its members and the values that could be read. -/
theorem paired_enumDirective (t : Token) :
    Ensures (Underway src) (enumDirective (expression rules room lowest) t) fun st _ =>
      ∀ d opening body closing, st = .directiveBlock d opening body closing →
        ∃ members, Paired rules room members src.tokens ∧ d.parameters = members.map (·.1) ∧
          Enumeration.elements d.value = members.flatMap fun m => (valueOf m).toList := by
  have hheader : Along src true (headerName "enum" t) _ :=
    (abreast_headerName (w := .still src false false) "enum" t).along
  refine hheader.then fun name _ => ?_
  split
  · refine Ensures.pure fun _ _ d opening body closing h => ?_
    cases h
  · refine (along_nextIs _).then fun opened _ => ?_
    split
    · refine along_advance.then fun opening _ => along_advance.then fun _ _ => ?_
      rintro s hs d _ body closing h
      obtain ⟨front, hfront⟩ := hs.within
      cases h
      refine ⟨_, hfront ▸ (paired_members rules room s).prepend front, rfl, ?_⟩
      exact elements_values t _
    · refine (along_reportNext (.around (by decide) _ _)).then fun _ _ => ?_
      refine Ensures.pure fun _ _ d opening body closing h => ?_
      cases h

end Grammar

open Grammar

theorem Enumeration.symbols_eq {rules : Rules} {room : Nat} {members : List (Token × Option Expr)}
    {tokens : List Token} (h : Paired rules room members tokens)
    (hinc : tokens.Pairwise fun t u => t.place.before u.place = true) {d : Directive}
    (hparameters : d.parameters = members.map (·.1))
    (helements : elements d.value = members.flatMap fun m => (valueOf m).toList) :
    symbols d = members.map fun m => Symbol.ofToken .constant m.1 (valueOf m).text? := by
  have hvalues : (members.flatMap fun m => (valueOf m).toList) =
      (members.map valueOf).flatMap Expr.toList := by
    rw [List.flatMap_map]
  have hlabel : ∀ i e, (members.map valueOf)[i]? = some e → e.isMissing = false →
      (e.token?.bind fun t => owner? (members.map (·.1)) t.place) = some (0 + i) := by
    intro i e he hgiven
    rw [List.getElem?_map] at he
    obtain ⟨m, hm, rfl⟩ := Option.map_eq_some_iff.1 he
    cases hv : (valueOf m).token? with
    | none =>
      cases hcase : valueOf m with
      | missing =>
        rw [hcase] at hgiven
        cases hgiven
      | _ =>
        rw [hcase] at hv
        cases hv
    | some v =>
      rw [Option.bind_some, h.owner hinc hm hv, Nat.zero_add]
  rw [symbols, hparameters, helements, hvalues]
  refine List.ext_getElem? fun i => ?_
  have hfound := find?_index hlabel i
  rw [Nat.zero_add, List.getElem?_map] at hfound
  rw [List.getElem?_map, List.getElem?_zipIdx, List.getElem?_map, List.getElem?_map]
  cases hm : members[i]? with
  | none => rfl
  | some m =>
    rw [hm] at hfound
    simpa [valueOf?] using congrArg (Symbol.ofToken .constant m.1) hfound

/-- An enumeration with a block was read by the parser of enumerations. -/
theorem Grammar.enumDirective_of_statement {rules : Rules} {expr : Parser Expr}
    {block : Token → Parser Braces} {s : State} {d : Directive} {opening closing : Token}
    {body : List Statement}
    (h : ((statement rules expr block).run s).1 = some (.directiveBlock d opening body closing))
    (hword : d.word = ".enum") :
    d.token = s.current ∧
      ((enumDirective expr s.current).run s).1 = .directiveBlock d opening body closing := by
  have hkind : s.current.kind.isDirective = true := by
    rcases isDirective_or_counter h trivial with hkind | ⟨-, value, hst⟩
    · exact hkind
    · cases hst
  rw [statement_directive hkind] at h
  have hdirective := Option.some.inj h
  obtain ⟨d', b, hst, htoken⟩ : OfToken s.current ((directive expr block s.current).run s).1 :=
    ofToken_directive s trivial
  rw [hdirective] at hst
  cases b with
  | none => cases hst
  | some b =>
    cases hst
    have hform : DirectiveForm.ofWord (directiveWord s.current) = .enumeration := by
      have hword : directiveWord s.current = ".enum" := htoken ▸ hword
      rw [hword]
      rfl
    rw [directive, hform] at hdirective
    exact ⟨htoken, hdirective⟩

section Parse

variable {ref : Option Reference} {lexLimit limit : Int} {text : String} {parsed : Parsed}

/-- **Values belong to the members that they were written behind.** In the program of any text, an
enumeration with a block was read with some room for nesting. Its values are those that are read
with this room behind the equals signs of its members, in order and without those that could not be
read, and the symbol of each member has the value that was read behind it. -/
theorem parse_enumeration_members (h : parse ref lexLimit limit text = .ok parsed) {d : Directive}
    {opening closing : Token} {body : List Statement}
    (hst : .directiveBlock d opening body closing ∈
      Statement.preorders parsed.program.statements) (hword : d.word = ".enum") :
    ∃ room start, room ≤ depthBound limit ∧
      start.tokens = d.token :: behind d.token parsed.stream ∧
      ((statementAt ⟨depthBound limit, ref⟩ room).run start).1 =
        some (.directiveBlock d opening body closing) ∧
      let value := fun t =>
        valueBehind ⟨depthBound limit, ref⟩ room t (behind t parsed.stream)
      Enumeration.elements d.value = (d.parameters.flatMap fun t => (value t).toList) ∧
      Enumeration.symbols d =
        d.parameters.map fun t => Symbol.ofToken .constant t (value t).text? := by
  obtain ⟨overflow, last, -, -, horigins⟩ := parse_origin h
  obtain ⟨room, start, hroom, hstart, -, hread, -⟩ := horigins _ hst
  obtain ⟨htoken, henum⟩ := enumDirective_of_statement hread hword
  obtain ⟨members, hpaired, hparameters, helements⟩ :=
    paired_enumDirective start.current start hstart d opening body closing henum
  have hnodup := parse_nodup h
  have hvalue := hpaired.value_eq hnodup
  refine ⟨room, start, hroom, ?_, hread, ?_, ?_⟩
  · obtain ⟨front, hfront⟩ := hstart.within
    have hstream : parsed.stream = front ++ start.current :: start.ahead := hfront.symm
    have hnotin : start.current ∉ front := by
      intro hmem
      rw [hstream] at hnodup
      exact (List.nodup_append.1 hnodup).2.2 _ hmem _ List.mem_cons_self rfl
    rw [htoken, hstream, behind_append _ hnotin, behind_cons_self]
    rfl
  · rw [helements, hparameters, List.flatMap_map]
    exact List.flatMap_congr fun m hm => by rw [hvalue m hm]
  · rw [Enumeration.symbols_eq hpaired (parse_increasing h) hparameters helements, hparameters,
      List.map_map]
    exact List.map_congr_left fun m hm => by rw [hvalue m hm]; rfl

end Parse

/-- An enumeration with a value that cannot be read, one whose token is an operator, and a member
without a comma before it. -/
def unevenText : String :=
  ".enum E\x7bA=),B=2*A C\x7d"

/-- In `unevenText` the only value belongs to the second member. -/
theorem parse_enumeration_members_uneven :
    ∃ parsed d opening body closing, parse none 128 128 unevenText = .ok parsed ∧
      .directiveBlock d opening body closing ∈
        Statement.preorders parsed.program.statements ∧
      d.word = ".enum" ∧ d.parameters.map Token.literal = ["A", "B", "C"] ∧
      ∃ room ≤ 128, Enumeration.elements d.value = (d.parameters.flatMap fun t =>
          (valueBehind ⟨128, none⟩ room t (behind t parsed.stream)).toList) ∧
        (d.parameters.map fun t =>
          (valueBehind ⟨128, none⟩ room t (behind t parsed.stream)).text?) =
            [none, some "2 * A", none] := by
  obtain ⟨parsed, hparsed, hsome⟩ : ∃ parsed, parse none 128 128 unevenText = .ok parsed ∧
      (Statement.preorders parsed.program.statements).any (fun st => match st with
        | .directiveBlock d _ _ _ => decide (d.word = ".enum" ∧
          d.parameters.map Token.literal = ["A", "B", "C"] ∧
          (Enumeration.symbols d).map Symbol.value = [none, some "2 * A", none])
        | _ => false) = true :=
    exists_parsed_of_session 15 (by cbv) (by decide) (by decide +kernel)
  obtain ⟨st, hst, hfacts⟩ := List.any_eq_true.1 hsome
  cases st with
  | directiveBlock d opening body closing =>
    obtain ⟨hword, hnames, hvalues⟩ := of_decide_eq_true hfacts
    obtain ⟨room, start, hroom, -, -, helements, hsymbols⟩ :=
      parse_enumeration_members hparsed hst hword
    rw [hsymbols, List.map_map] at hvalues
    exact ⟨parsed, d, opening, body, closing, hparsed, hst, hword, hnames, room, hroom, helements,
      hvalues⟩
  | label | instruction | expression | directive | block => cases hfacts

end Asm6510
