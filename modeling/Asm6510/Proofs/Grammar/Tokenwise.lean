import Asm6510.Proofs.Grammar.Origins

/-!
# What values are read from

An expression is read from the tokens alone: which messages there were before, and whether they are
silenced, makes no difference. The token of what is read is one of those that were taken.

* `Tokenwise`: a parser that gives the same from all states at the same tokens.
* `Taken`: a token up to the current one.

Main statements: `tokenwise_expression` and `taken_expression`.
-/

namespace Asm6510.Grammar

variable {α β : Type} {s s' : State}

/-! ## Parsers that see nothing but tokens -/

/-- From states at the same tokens, the parser gives the same and ends at the same tokens. -/
def Tokenwise (p : Parser α) : Prop :=
  ∀ s s' : State, s.tokens = s'.tokens →
    (p.run s).1 = (p.run s').1 ∧ (p.run s).2.tokens = (p.run s').2.tokens

theorem State.tokens_eq_iff : s.tokens = s'.tokens ↔ s.current = s'.current ∧ s.ahead = s'.ahead :=
  List.cons_eq_cons

theorem State.peek_congr (h : s.tokens = s'.tokens) : s.peek = s'.peek := by
  obtain ⟨hcurrent, hahead⟩ := State.tokens_eq_iff.1 h
  unfold State.peek
  rw [hcurrent, hahead]

theorem State.tokens_advance_congr (h : s.tokens = s'.tokens) :
    s.advance.tokens = s'.advance.tokens := by
  obtain ⟨-, hahead⟩ := State.tokens_eq_iff.1 h
  cases ha : s.ahead with
  | nil => rw [State.advance_of_nil ha, State.advance_of_nil (hahead ▸ ha), h]
  | cons t rest =>
    rw [State.advance_of_cons ha, State.advance_of_cons (hahead ▸ ha)]
    rfl

theorem Abreast.tokenwise {again : Bool} {p : Parser α} {F : α → α} {P : Source → α → Prop}
    (h : ∀ src, Abreast (.still src false false) again p p F (P src)) (hF : ∀ a, F a = a) :
    Tokenwise p := by
  intro s s' htokens
  have hboth := h ⟨s.tokens, none⟩ s s' List.suffix_rfl (linked_of_tokens htokens.symm)
  obtain ⟨hresult, hlinked⟩ := hboth.agree.resolve_left fun hlost => nomatch hlost.1
  refine ⟨(hresult.trans (hF _)).symm, ?_⟩
  rw [hlinked.tokens, show (Pairing.still ⟨s.tokens, none⟩ false false).ending.token = id from
    Ending.still_token, List.map_id]

/-- **An expression is read from its tokens.** -/
theorem tokenwise_expression (rules : Rules) (room : Nat) {least : Nat} (h : lowest ≤ least) :
    Tokenwise (expression rules room least) := by
  have hself : ∀ src, Abreast (.still src false false) false _ _ id (Expr.From src.tokens) :=
    fun _ => abreast_expression_self rules room h
  exact Abreast.tokenwise hself fun _ => rfl

/-! ## Tokens that were taken -/

section Taken

variable {src : Source} {again : Bool} {v : Token}

/-- A token of the source up to the current one. -/
def Taken (src : Source) (s : State) (v : Token) : Prop :=
  ∃ front, src.tokens = front ++ s.ahead ∧ v ∈ front

theorem taken_current (hs : s.Within src) : Taken src s s.current := by
  obtain ⟨front, hfront⟩ := hs
  exact ⟨front ++ [s.current], by simp [← hfront, State.tokens], by simp⟩

theorem Run.ahead_suffix (h : Run src again s s') : s'.ahead <:+ s.ahead := by
  rcases List.suffix_cons_iff.1 h.suffix with heq | hsuffix
  · rw [(List.cons_eq_cons.1 heq).2]
  · exact (List.suffix_cons _ _).trans hsuffix

theorem Taken.run (h : Taken src s v) (hrun : Run src again s s') : Taken src s' v := by
  obtain ⟨front, hfront, hv⟩ := h
  obtain ⟨more, hmore⟩ := hrun.ahead_suffix
  exact ⟨front ++ more, by rw [hfront, ← hmore, List.append_assoc], List.mem_append_left _ hv⟩

/-- What is read has the given token, or it is missing. -/
def Heads (t : Token) (e : Expr) : Prop :=
  ∀ v ∈ e.token?, v = t

theorem heads_missing (t : Token) : Heads t .missing :=
  fun v hv => absurd hv (Option.not_mem_none v)

theorem heads_of_token? {t : Token} {e : Expr} (h : e.token? = some t) : Heads t e :=
  fun _ hv => (Option.mem_some.1 (h ▸ hv)).symm

theorem heads_unread (t : Token) (message : String) :
    Ensures (fun _ => True) (do reportHere message; return Expr.missing) fun e _ => Heads t e :=
  Ensures.behind fun _ => Ensures.pure fun _ _ => heads_missing t

theorem heads_grouped {sub : Parser Expr} (opening : Token) :
    Ensures (fun _ => True) (grouped sub opening) fun e _ => Heads opening e := by
  refine Ensures.behind fun _ => Ensures.behind fun inner => Ensures.behind fun indexed => ?_
  split
  · refine Ensures.behind fun comma => Ensures.behind fun next => ?_
    split
    · refine Ensures.behind fun register => Ensures.behind fun closed => ?_
      split
      · exact Ensures.behind fun _ => Ensures.pure fun _ _ => heads_of_token? rfl
      · exact heads_unread _ _
    · dsimp only
      split
      · exact Ensures.behind fun _ => heads_unread _ _
      · exact Ensures.behind fun _ => heads_unread _ _
  · refine Ensures.behind fun closed => ?_
    split
    · exact Ensures.behind fun _ => Ensures.pure fun _ _ => heads_of_token? rfl
    · exact heads_unread _ _

theorem heads_bracketed {sub : Parser Expr} (opening : Token) :
    Ensures (fun _ => True) (bracketed sub opening) fun e _ => Heads opening e := by
  refine Ensures.behind fun _ => Ensures.behind fun inner => Ensures.behind fun closed => ?_
  split
  · exact Ensures.behind fun _ => Ensures.pure fun _ _ => heads_of_token? rfl
  · exact heads_unread _ _

theorem heads_builtinCall {sub : Parser Expr} (name : Token) :
    Ensures (fun _ => True) (builtinCall sub name) fun e _ => Heads name e := by
  refine Ensures.behind fun opened => ?_
  split
  · exact Ensures.behind fun _ => Ensures.behind fun _ =>
      Ensures.pure fun _ _ => heads_of_token? rfl
  · exact heads_unread _ _

theorem heads_integerLiteral (radix : Radix) (t : Token) :
    Ensures (fun _ => True) (integerLiteral radix t) fun e _ => Heads t e := by
  unfold integerLiteral
  split
  · exact Ensures.pure fun _ _ => heads_of_token? rfl
  · exact heads_unread _ _
  · exact Ensures.behind fun _ => Ensures.pure fun _ _ => heads_missing t

/-- An operand has the token that it starts at. -/
theorem heads_operand (sub : Nat → Parser Expr) (s : State) :
    Heads s.current ((operand sub).run s).1 := by
  have hoperand : Ensures (fun s' => s' = s) (operand sub) fun e _ => Heads s.current e := by
    refine Ensures.current fun t => ?_
    rintro _ ⟨rfl, rfl⟩
    split
    · exact heads_of_token? rfl
    · exact heads_of_token? rfl
    · exact heads_integerLiteral _ _ _ trivial
    · exact heads_of_token? rfl
    · exact heads_of_token? rfl
    · exact heads_grouped _ _ trivial
    · exact heads_bracketed _ _ trivial
    · exact heads_builtinCall _ _ trivial
    · exact heads_unread _ _ _ trivial
    · split
      · exact heads_of_token? rfl
      · exact heads_unread _ _ _ trivial
  exact hoperand s rfl

/-- An operator and its operands have the token of the operator. -/
theorem heads_operatorTail (sub : Nat → Parser Expr) (left : Expr) (s : State) :
    Heads s.current ((operatorTail sub left).run s).1 := by
  rw [operatorTail, Parser.run_bind]
  split
  · exact heads_of_token? rfl
  · exact heads_of_token? rfl

theorem taken_operators {sub : Nat → Parser Expr} {least : Nat} (hleast : lowest ≤ least)
    (hsub : ∀ n, lowest ≤ n →
      Abreast (.still src false false) false (sub n) (sub n) id (Expr.From src.tokens))
    (left : Expr) :
    Ensures (fun s => s.Within src ∧ left.From src.tokens ∧ ∀ v ∈ left.token?, Taken src s v)
      (operators sub least left) fun e s => ∀ v ∈ e.token?, Taken src s v := by
  refine (ensures_operators (I := fun left s => s.Within src ∧ left.From src.tokens ∧
    ∀ v ∈ left.token?, Taken src s v) (fun left => ?_) left).post fun _ _ h => h.1.2.2
  rintro _ ⟨s, ⟨hs, hfrom, -⟩, -, hend, hlevel, rfl⟩
  rw [← s.current_advance_eq] at hend hlevel
  obtain ⟨hrun, hmore, -⟩ := abreast_operatorTail hsub forms_from hfrom hs.advance
    (linked_state _) hend (Nat.lt_of_le_of_lt hleast hlevel)
  refine ⟨hrun.within hs.advance, hmore, fun v hv => ?_⟩
  rw [heads_operatorTail sub left s.advance v hv]
  exact (taken_current hs.advance).run hrun

/-- **The token of an expression was taken.** -/
theorem taken_expression (rules : Rules) (room : Nat) {least : Nat} (hleast : lowest ≤ least) :
    Ensures (fun s => s.Within src) (expression rules room least)
      fun e s => ∀ v ∈ e.token?, Taken src s v := by
  cases room with
  | zero =>
    have hmissing : Ensures (fun _ => True) (depthExceeded rules) fun e _ => e = .missing :=
      Ensures.behind fun _ => Ensures.behind fun _ => Ensures.behind fun _ =>
        Ensures.behind fun _ => Ensures.pure fun _ _ => rfl
    intro s _ v hv
    have hnone : ((expression rules 0 least).run s).1 = .missing := hmissing s trivial
    rw [hnone] at hv
    exact absurd hv (Option.not_mem_none v)
  | succ room =>
    have hsub : ∀ n, lowest ≤ n → Abreast (.still src false false) false (expression rules room n)
        (expression rules room n) id (Expr.From src.tokens) :=
      fun n hn => abreast_expression_self rules room hn
    intro s hs
    obtain ⟨hrun, hfrom⟩ := (abreast_operand hsub forms_from).along s hs
    refine taken_operators hleast hsub _ _ ⟨hrun.within hs, hfrom, fun v hv => ?_⟩
    rw [heads_operand _ s v hv]
    exact (taken_current hs).run hrun

end Taken

end Asm6510.Grammar
