import Asm6510.Proofs.Grammar.Precedence
import Asm6510.Proofs.Grammar.Values
import Asm6510.Proofs.Token.Readings

/-!
# Values that can be written again

* `Expr.Shape`, `Expr.shape`: an expression without its tokens.
* `Expr.pieces`: the kinds and literals of the tokens of which a rendering is made.
* `Expr.lexDepth`: how many contexts the lexer enters one within the other for a rendering.
* `Expr.Rewritable`: the four things that a rendering does not keep are absent.
* `Built`: what the grammar builds with some room for nesting.
* `Printable`: what reading the rendering again rests on.

Main statement: `printable_of_built`, a value that was read without a message is printable.
-/

namespace Asm6510

namespace Expr

/-! ## Shapes -/

/-- An expression without its tokens: kinds of nodes, operators, names and values, and the style of
brackets. -/
inductive Shape
  | missing
  | identifier (value : String)
  | integer (value : Nat)
  | string (value : String)
  | unary (operator : String) (operand : Shape)
  | binary (operator : String) (left right : Shape)
  | indexed (base : Shape) (register : String)
  | group (opening : String) (inner : Shape)
  | call (function : Shape) (arguments : List Shape)
  | array (elements : List Shape)
  | programCounter

mutual

def shape : Expr → Shape
  | missing => .missing
  | identifier _ value => .identifier value
  | integer _ value => .integer value
  | string _ value => .string value
  | unary op e => .unary op.literal (shape e)
  | binary op l r => .binary op.literal (shape l) (shape r)
  | indexed _ e register => .indexed (shape e) (registerName register)
  | group opening e => .group opening.literal (shape e)
  | call _ f args => .call (shape f) (shapes args)
  | array _ es => .array (shapes es)
  | programCounter _ => .programCounter

def shapes : List Expr → List Shape
  | [] => []
  | e :: es => shape e :: shapes es

end

/-! ## Renderings -/

mutual

/-- The tokens of the rendering of an expression. -/
def pieces : Expr → List Piece
  | missing => []
  | identifier t value => [(t.kind, value)]
  | integer t _ => [(t.kind, t.literal)]
  | string t _ => [(t.kind, t.literal)]
  | unary op e => (op.kind, op.literal) :: pieces e
  | binary op l r => pieces l ++ (op.kind, op.literal) :: pieces r
  | indexed _ e register => pieces e ++ [(.comma, ","), (.identifier, registerName register)]
  | group opening e =>
    if opening.kind = .leftBracket then
      (.leftBracket, "[") :: (pieces e ++ [(.rightBracket, "]")])
    else (.leftParen, "(") :: (pieces e ++ [(.rightParen, ")")])
  | call _ f args => pieces f ++ (.leftParen, "(") :: (piecesAll args ++ [(.rightParen, ")")])
  | array _ es => piecesAll es
  | programCounter _ => [(.asterisk, "*")]

/-- The tokens of the renderings of several expressions, with commas between them. -/
def piecesAll : List Expr → List Piece
  | [] => []
  | [e] => pieces e
  | e :: e' :: es => pieces e ++ (.comma, ",") :: piecesAll (e' :: es)

end

mutual

/-- How many contexts the lexer enters one within the other for the rendering of an expression:
one for each pair of round parentheses, and one for a string. -/
def lexDepth : Expr → Nat
  | missing => 0
  | identifier _ _ => 0
  | integer _ _ => 0
  | string _ _ => 1
  | unary _ e => lexDepth e
  | binary _ l r => max (lexDepth l) (lexDepth r)
  | indexed _ e _ => lexDepth e
  | group opening e => if opening.kind = .leftBracket then lexDepth e else lexDepth e + 1
  | call _ f args => max (lexDepth f) (lexDepthAll args + 1)
  | array _ es => lexDepthAll es
  | programCounter _ => 0

def lexDepthAll : List Expr → Nat
  | [] => 0
  | e :: es => max (lexDepth e) (lexDepthAll es)

end

/-- A rendering keeps the node: it is no operator of membership, no immediate, no operator that
would fuse with the one behind it, and no string without its closing quote. -/
def Rewritable : Expr → Prop
  | binary op _ _ => op.literal ≠ "."
  | unary op e => op.literal ≠ "#" ∧
      (op.literal = "<" ∨ op.literal = ">" → ∀ inner x, e = unary inner x →
        inner.literal ≠ op.literal)
  | string t _ => Lexing.closesString (t.literal.toList.drop 1) = true
  | _ => True

end Expr

namespace Grammar

/-! ## What the grammar builds -/

/-- An expression that the grammar builds with room for `room` expressions within each other. The
operators between operands have a level, and an index register stands only within parentheses. -/
inductive Built : (room : Nat) → Expr → Prop
  | missing {room : Nat} : Built room .missing
  | identifier {room : Nat} (t : Token) (value : String) : Built (room + 1) (.identifier t value)
  | integer {room : Nat} (t : Token) (value : Nat) : Built (room + 1) (.integer t value)
  | string {room : Nat} (t : Token) (value : String) : Built (room + 1) (.string t value)
  | programCounter {room : Nat} (t : Token) : Built (room + 1) (.programCounter t)
  | unary {room : Nat} {op : Token} {e : Expr} (he : Built room e) : Built (room + 1) (.unary op e)
  | binary {room : Nat} {op : Token} {l r : Expr} (hlevel : lowest < level op.kind)
      (hop : op.kind ≠ .leftParen) (hl : Built (room + 1) l) (hr : Built room r) :
      Built (room + 1) (.binary op l r)
  | group {room : Nat} {opening : Token} {e : Expr} (he : Built room e) :
      Built (room + 1) (.group opening e)
  | indexed {room : Nat} {opening comma register : Token} {e : Expr}
      (hopening : opening.kind = .leftParen) (he : Built room e) :
      Built (room + 1) (.group opening (.indexed comma e register))
  | call {room : Nat} {t : Token} {f : Expr} {args : List Expr} (hf : Built (room + 1) f)
      (hargs : ∀ e ∈ args, Built room e) : Built (room + 1) (.call t f args)

theorem Built.succ {room : Nat} {e : Expr} (h : Built room e) : Built (room + 1) e := by
  induction h with
  | missing => exact .missing
  | identifier t value => exact .identifier t value
  | integer t value => exact .integer t value
  | string t value => exact .string t value
  | programCounter t => exact .programCounter t
  | unary he ih => exact .unary ih
  | binary hlevel hop hl hr ihl ihr => exact .binary hlevel hop ihl ihr
  | group he ih => exact .group ih
  | indexed hopening he ih => exact .indexed hopening ih
  | call hf hargs ihf ihargs => exact .call ihf ihargs

theorem Built.mono {room room' : Nat} {e : Expr} (h : Built room e) (hle : room ≤ room') :
    Built room' e := by
  induction hle with
  | refl => exact h
  | step _ ih => exact ih.succ

variable {room : Nat}

theorem forms_built {tokens : List Token} (room : Nat) :
    Forms tokens (Built room) (Built (room + 1)) where
  missing := .missing
  name _ := .identifier _ _
  integer _ n := .integer _ n
  string _ := .string _ _
  programCounter _ := .programCounter _
  unary _ := .unary
  binary _ := .binary
  group _ := .group
  indexed _ hopening _ he _ := .indexed hopening he
  call _ := .call

/-- **What the grammar builds** with some room is built with that room. -/
theorem built_expression (rules : Rules) (room : Nat) {least : Nat} (hleast : lowest ≤ least)
    (s : State) : Built room ((expression rules room least).run s).1 := by
  have halong : Along ⟨s.tokens, none⟩ false (expression rules room least) (Built room) :=
    (abreast_expression (w := .still ⟨s.tokens, none⟩ false false) .missing forms_built
      (suits_self _ rules) (Nat.le_refl room) (fun _ => rfl) hleast).along
  exact (halong s List.suffix_rfl).2

/-! ## What can be written again -/

open Lexing

/-- What lexing and parsing the rendering of an expression rests on: the spellings of its tokens are
those of values, its strings are closed, no operator fuses with what is behind it, the levels of
the operators are those that the tree asks for, and there is room for its nesting. -/
inductive Printable (ref : Option Reference) : (room : Nat) → Expr → Prop
  | name {room : Nat} {t : Token} (ht : t.kind = .identifier ∨ ∃ cls, t.kind = .constant cls)
      (hv : OfValue ref t) : Printable ref (room + 1) (.ofName t)
  | integer {room : Nat} {t : Token} {radix : Radix} {n : Nat} (ht : t.kind = .number radix)
      (hn : numberValue radix t.literal = .value n) (hv : OfValue ref t) :
      Printable ref (room + 1) (.integer t n)
  | string {room : Nat} {t : Token} {w : List Char} (ht : t.kind = .string)
      (hliteral : t.literal = String.ofList ('"' :: w)) (hclosed : closesString w = true) :
      Printable ref (room + 1) (stringLiteral t)
  | programCounter {room : Nat} {t : Token} (ht : t.kind = .asterisk) :
      Printable ref (room + 1) (.programCounter t)
  | unary {room : Nat} {op : Token} {e : Expr} (hop : isPrefixOperator op.kind = true)
      (hhash : op.kind ≠ .hash) (hv : OfValue ref op) (he : Printable ref room e)
      (hbare : e.operator? = none)
      (hfuse : op.kind = .less ∨ op.kind = .greater → ∀ inner x, e = .unary inner x →
        inner.kind ≠ op.kind) : Printable ref (room + 1) (.unary op e)
  | binary {room : Nat} {op : Token} {l r : Expr} (hlowest : lowest < level op.kind)
      (hlevel : level op.kind < prefixLevel) (hv : OfValue ref op) (hl : Printable ref (room + 1) l)
      (hr : Printable ref room r) (hleft : ∀ n ∈ l.level?, level op.kind ≤ n)
      (hright : ∀ n ∈ r.level?, level op.kind < n) : Printable ref (room + 1) (.binary op l r)
  | group {room : Nat} {opening : Token} {e : Expr}
      (hopening : opening.kind = .leftParen ∨ opening.kind = .leftBracket)
      (hv : OfValue ref opening) (he : Printable ref room e) :
      Printable ref (room + 1) (.group opening e)
  | indexed {room : Nat} {opening comma register : Token} {e : Expr}
      (hopening : opening.kind = .leftParen) (hv : OfValue ref opening) (he : Printable ref room e)
      (hregister : isIndexRegister register = true) (hr : OfValue ref register) :
      Printable ref (room + 1) (.group opening (.indexed comma e register))
  | builtin {room : Nat} {name : Token} {args : List Expr} (ht : ∃ cls, name.kind = .function cls)
      (hv : OfValue ref name) (hargs : ∀ e ∈ args, Printable ref room e) :
      Printable ref (room + 1) (.call name (.ofName name) args)
  | call {room : Nat} {t : Token} {f : Expr} {args : List Expr} (hf : Printable ref (room + 1) f)
      (hbare : f.operator? = none) (hunary : ∀ op e, f ≠ .unary op e)
      (hargs : ∀ e ∈ args, Printable ref room e) : Printable ref (room + 1) (.call t f args)

/-- The grammar has ranked the expression and what is below it, and renderings keep it. -/
structure Good (x : Expr) : Prop where
  sound : Sound x
  rewritable : x.Everywhere Expr.Rewritable

theorem Good.part {e x : Expr} (h : Good e) (hx : x ∈ e.parts) : Good x := by
  obtain ⟨⟨-, hsound⟩, ⟨-, hrewritable⟩⟩ := h
  exact ⟨hsound x hx, hrewritable x hx⟩

theorem Good.ranked {e : Expr} (h : Good e) : e.Ranked := by
  obtain ⟨⟨here, -⟩, -⟩ := h
  exact here.2

theorem Good.here {e : Expr} (h : Good e) : e.Rewritable := by
  obtain ⟨-, ⟨here, -⟩⟩ := h
  exact here

/-- The tokens of one of several expressions with commas between them. -/
theorem Separated.mem : ∀ {es : List Expr} {ys : List Token}, Separated es ys →
    ∀ e ∈ es, ∃ zs, Yields e zs ∧ zs ⊆ ys
  | _, _, .nil, e, he => absurd he List.not_mem_nil
  | _, _, .one hy, e, he => by
    cases List.mem_singleton.1 he
    exact ⟨_, hy, List.Subset.refl _⟩
  | _, _, .more hes _ _ hy, e, he => by
    rcases List.mem_append.1 he with he | he
    · obtain ⟨zs, hzs, hsub⟩ := hes.mem e he
      exact ⟨zs, hzs, List.Subset.trans hsub (List.subset_append_left _ _)⟩
    · cases List.mem_singleton.1 he
      exact ⟨_, hy, fun y hys => List.mem_append_right _ (List.mem_cons_of_mem _ hys)⟩

/-- The rendering of an expression starts with a point only if the expression does. -/
theorem Yields.head : ∀ {e : Expr} {ys : List Token}, Yields e ys →
    ∃ y ys' p ps, ys = y :: ys' ∧ e.pieces = p :: ps ∧
      (Text.startsWith p.2 "." = true → Text.startsWith y.literal "." = true)
  | _, _, .name _ => ⟨_, _, _, _, rfl, rfl, id⟩
  | _, _, .integer _ _ => ⟨_, _, _, _, rfl, rfl, id⟩
  | _, _, .string _ => ⟨_, _, _, _, rfl, rfl, id⟩
  | _, _, .programCounter _ => ⟨_, _, _, _, rfl, rfl, fun h => Bool.noConfusion h⟩
  | _, _, .unary _ _ => ⟨_, _, _, _, rfl, rfl, id⟩
  | _, _, .binary hl _ => by
    obtain ⟨y, ys', p, ps, rfl, hps, hp⟩ := hl.head
    exact ⟨y, _, p, _, rfl, by rw [Expr.pieces, hps]; rfl, hp⟩
  | _, _, .indexed he _ _ => by
    obtain ⟨y, ys', p, ps, rfl, hps, hp⟩ := he.head
    exact ⟨y, _, p, _, rfl, by rw [Expr.pieces, hps]; rfl, hp⟩
  | _, _, .group _ _ => by
    rw [Expr.pieces]
    split
    · exact ⟨_, _, _, _, rfl, rfl, fun h => Bool.noConfusion h⟩
    · exact ⟨_, _, _, _, rfl, rfl, fun h => Bool.noConfusion h⟩
  | _, _, .builtin _ _ _ _ => ⟨_, _, _, _, rfl, rfl, id⟩
  | _, _, .call hf _ _ _ => by
    obtain ⟨y, ys', p, ps, rfl, hps, hp⟩ := hf.head
    exact ⟨y, _, p, _, rfl, by rw [Expr.pieces, hps]; rfl, hp⟩

/-- Operators between operands other than the dot bind weaker than those before an operand. -/
theorem level_lt_prefixLevel {kind : TokenKind} (hdot : kind ≠ .dot) (hparen : kind ≠ .leftParen) :
    level kind < prefixLevel := by
  cases kind with
  | dot => exact absurd rfl hdot
  | leftParen => exact absurd rfl hparen
  | _ => exact of_decide_eq_true rfl

theorem Printable.bare {ref : Option Reference} {room : Nat} {e : Expr} (h : Printable ref room e)
    (hranked : ∀ op ∈ e.operator?, op.kind = .dot) : e.operator? = none := by
  cases h with
  | binary hlowest hlevel hv hl hr hleft hright =>
    rw [hranked _ rfl] at hlevel
    exact absurd hlevel (by decide)
  | _ => rfl

/-- **A value that was read without a message is printable**, where renderings keep its nodes. -/
theorem printable_of_built {ref : Option Reference} {room : Nat} {e : Expr} {ys : List Token}
    (hbuilt : Built room e) (hyields : Yields e ys) (hgood : Good e)
    (hvalues : ∀ y ∈ ys, OfValue ref y) : Printable ref room e := by
  induction hbuilt generalizing ys with
  | missing => cases hyields
  | identifier t value =>
    cases hyields with
    | name ht => exact .name ht (hvalues _ List.mem_cons_self)
  | integer t value =>
    cases hyields with
    | integer ht hn => exact .integer ht hn (hvalues _ List.mem_cons_self)
  | string t value =>
    cases hyields with
    | string ht =>
      obtain ⟨w, hw⟩ := (hvalues _ List.mem_cons_self).quoted ht
      have hclosed : closesString (t.literal.toList.drop 1) = true := hgood.here
      rw [hw, String.toList_ofList, List.drop_one, List.tail_cons] at hclosed
      exact .string ht hw hclosed
  | programCounter t =>
    cases hyields with
    | programCounter ht => exact .programCounter ht
  | @unary room op e he ih =>
    cases hyields with
    | unary hop hyields =>
      obtain ⟨hv, hvalues⟩ := List.forall_mem_cons.1 hvalues
      obtain ⟨hhash, hfuse⟩ := hgood.here
      have hprintable := ih hyields (hgood.part List.mem_cons_self) hvalues
      refine .unary hop (fun hk => hhash (hv.spelled hk rfl)) hv hprintable
        (hprintable.bare hgood.ranked) fun hkind inner x hx hsame => ?_
      subst hx
      cases hprintable with
      | unary _ _ hinner =>
        rcases hkind with hk | hk
        · have hliteral : op.literal = "<" := hv.spelled hk rfl
          refine hfuse (.inl hliteral) inner x rfl ?_
          rw [hliteral]
          exact hinner.spelled (hsame.trans hk) rfl
        · have hliteral : op.literal = ">" := hv.spelled hk rfl
          refine hfuse (.inr hliteral) inner x rfl ?_
          rw [hliteral]
          exact hinner.spelled (hsame.trans hk) rfl
  | @binary room op l r hlevel hop hl hr ihl ihr =>
    cases hyields with
    | binary hyl hyr =>
      obtain ⟨hvl, hvr⟩ := List.forall_mem_append.1 hvalues
      obtain ⟨hv, hvr⟩ := List.forall_mem_cons.1 hvr
      obtain ⟨hleft, hright⟩ := hgood.ranked
      have hdot : op.kind ≠ .dot := fun hk => hgood.here (hv.spelled hk rfl)
      exact .binary hlevel (level_lt_prefixLevel hdot hop) hv
        (ihl hyl (hgood.part List.mem_cons_self) hvl)
        (ihr hyr (hgood.part (List.mem_cons_of_mem _ List.mem_cons_self)) hvr) hleft hright
  | group he ih =>
    cases hyields with
    | group hyields hmarks =>
      obtain ⟨hv, hvalues⟩ := List.forall_mem_cons.1 hvalues
      refine .group ?_ hv (ih hyields (hgood.part List.mem_cons_self)
        (List.forall_mem_append.1 hvalues).1)
      rcases hmarks with hmarks | hmarks
      · exact .inl hmarks.1
      · exact .inr hmarks.1
  | indexed hopening he ih =>
    cases hyields with
    | group hyields hmarks =>
      obtain ⟨hv, hvalues⟩ := List.forall_mem_cons.1 hvalues
      have hinner := hgood.part List.mem_cons_self
      cases hyields with
      | indexed hyields hcomma hregister =>
        obtain ⟨hinside, -⟩ := List.forall_mem_append.1 hvalues
        obtain ⟨hbase, hrest⟩ := List.forall_mem_append.1 hinside
        exact .indexed hopening hv (ih hyields (hinner.part List.mem_cons_self) hbase) hregister
          (hrest _ (List.mem_cons_of_mem _ List.mem_cons_self))
  | @call room t f args hf hargs ihf ihargs =>
    have hparts : ∀ {ys zs : List Token}, Separated args zs → zs ⊆ ys →
        (∀ y ∈ ys, OfValue ref y) → ∀ a ∈ args, Printable ref room a := by
      intro ys zs hzs hsub hvalues a ha
      obtain ⟨us, hus, husub⟩ := hzs.mem a ha
      exact ihargs a ha hus (hgood.part (List.mem_cons_of_mem _ ha))
        fun y hy => hvalues y (hsub (husub hy))
    cases hyields with
    | builtin hname hparen hzs hclosing =>
      refine .builtin hname (hvalues _ List.mem_cons_self) (hparts hzs ?_ hvalues)
      exact fun y hy => List.mem_cons_of_mem _ (List.mem_cons_of_mem _ (List.mem_append_left _ hy))
    | call hyf hparen hzs hclosing =>
      obtain ⟨hbare, hunary⟩ := hgood.ranked
      obtain ⟨hvf, -⟩ := List.forall_mem_append.1 hvalues
      refine .call (ihf hyf (hgood.part List.mem_cons_self) hvf) hbare hunary
        (hparts hzs ?_ hvalues)
      exact fun y hy =>
        List.mem_append_right _ (List.mem_cons_of_mem _ (List.mem_append_left _ hy))

end Grammar

end Asm6510
