import Asm6510.Outline
import Mathlib

/-!
# What an outline shows

An entry of an outline stands for a symbol, for a scope, or for a symbol and the scope that it
opened.

* `Scope.Claims`: the children that the symbols of a scope claim, each the first one with its name
  and its start that no symbol before has claimed.
* `Scope.level`: the entries of a scope, given the claims of its symbols.
* `Subject`, `Scope.Stands`: what an entry stands for.
* `Scope.Shown`: the entries of an outline stand for every symbol and for every scope of the tree
  below the root, for each of them once.

Main statement: `outline_exact`, the outline of each scope is its level, and a whole outline loses
and repeats nothing. For one level this is `exists_claims`; for a tree it follows from the children
(`shown_of_children`), as each child is opened by one entry (`countP_opened`).
-/

namespace Asm6510

open Outline

namespace OutlineEntry

mutual

/-- An entry, then the entries in it one after the other. -/
def preorder : OutlineEntry → List OutlineEntry
  | ⟨name, kind, range, selection, detail, children⟩ =>
    ⟨name, kind, range, selection, detail, children⟩ :: preorders children

def preorders : List OutlineEntry → List OutlineEntry
  | [] => []
  | e :: rest => preorder e ++ preorders rest

end

theorem preorder_eq (e : OutlineEntry) : e.preorder = e :: preorders e.children := by
  cases e
  rw [preorder]

theorem preorders_eq (es : List OutlineEntry) :
    preorders es = es.flatMap fun e => e :: preorders e.children := by
  induction es with
  | nil => rfl
  | cons e es ih => rw [preorders, preorder_eq, ih, List.flatMap_cons]

end OutlineEntry

namespace Scope

/-! ## One level -/

/-- The symbols of a scope in the order of their definition. -/
def defined (s : Scope) : List Symbol :=
  s.symbols.entries.map (·.2)

/-- The children of a scope, each with its index and its outline. -/
def parts (s : Scope) : List Part :=
  s.children.mapIdx fun i c => ⟨i, c, c.outline⟩

def unclaimed (s : Scope) (claims : List (Option Nat)) : List Part :=
  s.parts.filter fun part => some part.id ∉ claims

/-- A child that is not claimed yet, with the name and the start of a symbol. -/
def Free (s : Scope) (claims : List (Option Nat)) (symbol : Symbol) (i : Nat) : Prop :=
  some i ∉ claims ∧ ∃ child, s.children[i]? = some child ∧
    child.name = symbol.name ∧ child.range.start = symbol.position

/-- One claim for each symbol: the first child that is free when its turn comes. -/
structure Claims (s : Scope) (claims : List (Option Nat)) : Prop where
  length_eq : claims.length = s.defined.length
  eq_first : ∀ j symbol, s.defined[j]? = some symbol → ∀ i, claims[j]? = some (some i) ↔
    s.Free (claims.take j) symbol i ∧ ∀ k < i, ¬ s.Free (claims.take j) symbol k

/-- The entries of the symbols, each with the child that it claims, and then of the children that
none of them claims. -/
def level (s : Scope) (claims : List (Option Nat)) : List OutlineEntry :=
  List.zipWith (fun symbol claim => symbolEntry symbol (claim.bind (s.parts[·]?))) s.defined claims
    ++ (s.unclaimed claims).map scopeEntry

theorem outlines_eq (i : Nat) (cs : List Scope) :
    outlines i cs = cs.mapIdx fun j c => ⟨i + j, c, c.outline⟩ := by
  induction cs generalizing i with
  | nil => rfl
  | cons c cs ih =>
    rw [outlines, ih, List.mapIdx_cons]
    simp only [Nat.add_zero, Nat.add_assoc, Nat.add_comm 1]

theorem outline_eq (s : Scope) : s.outline = assemble s.defined s.parts := by
  obtain ⟨name, range, uri, symbols, children⟩ := s
  rw [outline, outlines_eq]
  simp only [defined, parts, Nat.zero_add]

section Level

variable {s : Scope} {claims : List (Option Nat)}

theorem getElem?_parts (s : Scope) (i : Nat) :
    s.parts[i]? = s.children[i]?.map fun c => ⟨i, c, c.outline⟩ := by
  rw [parts, List.getElem?_mapIdx]

theorem id_parts {i : Nat} (h : i < s.parts.length) : s.parts[i].id = i := by
  simp [parts]

theorem find?_unclaimed (s : Scope) (claims : List (Option Nat)) (symbol : Symbol) (i : Nat) :
    ((s.unclaimed claims).find? fun c => owns symbol c.scope).map (·.id) = some i ↔
      s.Free claims symbol i ∧ ∀ k < i, ¬ s.Free claims symbol k := by
  have hfree : ∀ k, s.Free claims symbol k ↔ ∃ part, s.parts[k]? = some part ∧
      some part.id ∉ claims ∧ owns symbol part.scope = true := by
    intro k
    simp only [Free, getElem?_parts, Option.map_eq_some_iff, owns, Bool.and_eq_true, beq_iff_eq]
    grind
  rw [unclaimed, List.find?_filter, Option.map_eq_some_iff]
  simp only [hfree, List.find?_eq_some_iff_getElem, decide_eq_true_eq, Bool.not_eq_true',
    decide_eq_false_iff_not]
  constructor
  · rintro ⟨_, ⟨hhit, k, hk, rfl, hbefore⟩, rfl⟩
    rw [id_parts hk] at hhit ⊢
    refine ⟨⟨_, List.getElem?_eq_getElem hk, by rwa [id_parts hk]⟩, ?_⟩
    rintro l hl ⟨other, hother, hholds⟩
    obtain ⟨_, rfl⟩ := List.getElem?_eq_some_iff.1 hother
    exact hbefore l hl hholds
  · rintro ⟨⟨part, hpart, hhit⟩, hbefore⟩
    obtain ⟨hi, rfl⟩ := List.getElem?_eq_some_iff.1 hpart
    refine ⟨_, ⟨hhit, i, hi, rfl, fun k hk hholds => ?_⟩, id_parts hi⟩
    exact hbefore k hk ⟨_, List.getElem?_eq_getElem (Nat.lt_trans hk hi), hholds⟩

theorem unclaimed_snoc (s : Scope) (claims : List (Option Nat)) (claim : Option Nat) :
    s.unclaimed (claims ++ [claim]) =
      (s.unclaimed claims).filter fun part => some part.id != claim := by
  rw [unclaimed, unclaimed, List.filter_filter]
  refine List.filter_congr fun part _ => ?_
  rw [Bool.eq_iff_iff]
  simp [and_comm]

/-- The symbols that are left take their children from those that the claims before them leave. -/
theorem assemble_unclaimed (s : Scope) (symbols : List Symbol) (before : List (Option Nat)) :
    ∃ claims : List (Option Nat), claims.length = symbols.length ∧
      (∀ j symbol, symbols[j]? = some symbol → ∀ i, claims[j]? = some (some i) ↔
        s.Free (before ++ claims.take j) symbol i ∧
          ∀ k < i, ¬ s.Free (before ++ claims.take j) symbol k) ∧
      assemble symbols (s.unclaimed before) =
        List.zipWith (fun symbol claim => symbolEntry symbol (claim.bind (s.parts[·]?))) symbols
          claims ++ (s.unclaimed (before ++ claims)).map scopeEntry := by
  induction symbols generalizing before with
  | nil => exact ⟨[], rfl, by simp, by simp [assemble]⟩
  | cons symbol symbols ih =>
    obtain ⟨found, hfound⟩ :
        ∃ found, (s.unclaimed before).find? (fun c => owns symbol c.scope) = found := ⟨_, rfl⟩
    obtain ⟨claims, hlength, hfirst, hrest⟩ := ih (before ++ [found.map (·.id)])
    refine ⟨found.map (·.id) :: claims, by simp [hlength], ?_, ?_⟩
    · rintro (_ | j) other hother i
      · cases hother
        rw [List.take_zero, List.append_nil, ← find?_unclaimed, hfound]
        simp
      · have hlater := hfirst j other (by simpa using hother) i
        rwa [List.append_assoc, List.singleton_append] at hlater
    · rw [unclaimed_snoc, List.append_assoc, List.singleton_append] at hrest
      rw [assemble, List.zipWith_cons_cons, List.cons_append, hfound, ← hrest]
      cases found with
      | none =>
        have hkept : (s.unclaimed before).filter (fun part => some part.id != none) =
            s.unclaimed before := List.filter_eq_self.2 (by simp)
        simp [hkept]
      | some part =>
        have hpart : s.parts[part.id]? = some part := by
          have hmem := List.mem_of_mem_filter (List.mem_of_find?_eq_some hfound)
          obtain ⟨k, hk, rfl⟩ := List.getElem_of_mem hmem
          rw [id_parts hk, List.getElem?_eq_getElem hk]
        simp [hpart, bne]

/-- **The outline of a scope shows one level.** -/
theorem exists_claims (s : Scope) : ∃ claims, s.Claims claims ∧ s.outline = s.level claims := by
  have hall : s.unclaimed [] = s.parts := List.filter_eq_self.2 (by simp)
  obtain ⟨claims, hlength, hfirst, hlevel⟩ := s.assemble_unclaimed s.defined []
  rw [hall, ← outline_eq] at hlevel
  exact ⟨claims, ⟨hlength, hfirst⟩, hlevel⟩

theorem Claims.count_le_one (h : s.Claims claims) (i : Nat) : claims.count (some i) ≤ 1 := by
  have hnew : ∀ j, claims[j]? = some (some i) → some i ∉ claims.take j := by
    intro j hj
    have hlt : j < s.defined.length := h.length_eq ▸ (List.getElem?_eq_some_iff.1 hj).1
    exact ((h.eq_first j _ (List.getElem?_eq_getElem hlt) i).1 hj).1.1
  clear h
  induction claims using List.reverseRecOn with
  | nil => simp
  | append_singleton claims claim ih =>
    by_cases hclaim : claim = some i
    · have hlast := hnew claims.length (by simp [hclaim])
      rw [List.take_left] at hlast
      simp [List.count_append, List.count_eq_zero_of_not_mem hlast, hclaim]
    · have hbefore : ∀ j, claims[j]? = some (some i) → some i ∉ claims.take j := by
        intro j hj
        have hlt : j < claims.length := (List.getElem?_eq_some_iff.1 hj).1
        have hall := hnew j (by rw [List.getElem?_append_left hlt, hj])
        rwa [List.take_append_of_le_length (Nat.le_of_lt hlt)] at hall
      simp [List.count_append, hclaim, ih hbefore]

end Level

end Scope

/-! ## The whole outline -/

/-- What an entry of an outline stands for: a symbol, by its index in the scope at an address, or a
child of that scope, or both. -/
structure Subject where
  address : List Nat
  symbol : Option Nat
  opened : Option Nat

/-- The subject of an entry in the outline of a child, seen from the parent. -/
def Subject.below (i : Nat) (x : Subject) : Subject :=
  { x with address := i :: x.address }

@[simp] theorem Subject.address_below (i : Nat) (x : Subject) :
    (x.below i).address = i :: x.address :=
  rfl

namespace Scope

/-- The entries that stand for something in a tree of scopes. The contents of a scope are the
children of the entry of the symbol that opened it, or else of an entry of its own. -/
inductive Stands (root : Scope) : Subject → OutlineEntry → Prop
  | symbol {a : List Nat} {c : Scope} {j : Nat} {symbol : Symbol} (hc : root.at? a = some c)
      (hsymbol : c.defined[j]? = some symbol) :
      Stands root ⟨a, some j, none⟩ (symbolEntry symbol none)
  | opening {a : List Nat} {c child : Scope} {i j : Nat} {symbol : Symbol}
      (hc : root.at? a = some c) (hsymbol : c.defined[j]? = some symbol)
      (hchild : c.children[i]? = some child) (hname : child.name = symbol.name)
      (hstart : child.range.start = symbol.position) :
      Stands root ⟨a, some j, some i⟩ (symbolEntry symbol (some ⟨i, child, child.outline⟩))
  | scope {a : List Nat} {c child : Scope} {i : Nat} (hc : root.at? a = some c)
      (hchild : c.children[i]? = some child) :
      Stands root ⟨a, none, some i⟩ (scopeEntry ⟨i, child, child.outline⟩)

/-- The entries of an outline, of all levels, stand for every symbol of every scope once and for
every child of every scope once. -/
structure Shown (s : Scope) (subjects : List Subject) : Prop where
  stands : List.Forall₂ s.Stands subjects (OutlineEntry.preorders s.outline)
  symbols : ∀ a c j, s.at? a = some c → j < c.defined.length →
    subjects.countP (fun x => x.address = a ∧ x.symbol = some j) = 1
  scopes : ∀ a c i, s.at? a = some c → i < c.children.length →
    subjects.countP (fun x => x.address = a ∧ x.opened = some i) = 1

section Whole

variable {s child : Scope} {claims : List (Option Nat)} {i : Nat}

theorem Stands.below {x : Subject} {e : OutlineEntry} (h : child.Stands x e)
    (hchild : s.children[i]? = some child) : s.Stands (x.below i) e := by
  have hat : ∀ a, s.at? (i :: a) = child.at? a := fun a => by rw [at?, hchild, Option.bind_some]
  cases h with
  | symbol hc hsymbol => exact .symbol ((hat _).trans hc) hsymbol
  | opening hc hsymbol hc' hname hstart =>
    exact .opening ((hat _).trans hc) hsymbol hc' hname hstart
  | scope hc hc' => exact .scope ((hat _).trans hc) hc'

def subjects (s : Scope) (claims : List (Option Nat)) : List Subject :=
  (claims.mapIdx fun j claim => ⟨[], some j, claim⟩) ++
    (s.unclaimed claims).map fun part => ⟨[], none, some part.id⟩

theorem address_of_mem_subjects {x : Subject} (h : x ∈ s.subjects claims) : x.address = [] := by
  simp only [subjects, List.mem_append, List.mem_mapIdx, List.mem_map] at h
  obtain ⟨_, _, rfl⟩ | ⟨_, _, rfl⟩ := h <;> rfl

theorem stands_level (h : s.Claims claims) :
    List.Forall₂ (fun x e => x.address = [] ∧ s.Stands x e) (s.subjects claims)
      (s.level claims) := by
  refine List.rel_append ?_ ?_
  · rw [List.forall₂_iff_get]
    refine ⟨by simp [h.length_eq], fun j hj _ => ?_⟩
    have hj' : j < claims.length := by simpa using hj
    have hsymbol := List.getElem?_eq_getElem (h.length_eq ▸ hj' : j < s.defined.length)
    simp only [List.get_eq_getElem, List.getElem_mapIdx, List.getElem_zipWith]
    cases hclaim : claims[j] with
    | none => exact ⟨trivial, .symbol rfl hsymbol⟩
    | some i =>
      obtain ⟨-, child, hchild, hname, hstart⟩ :=
        ((h.eq_first j _ hsymbol i).1 (by rw [List.getElem?_eq_getElem hj', hclaim])).1
      rw [Option.bind_some, getElem?_parts, hchild]
      exact ⟨trivial, .opening rfl hsymbol hchild hname hstart⟩
  · rw [List.forall₂_map_left_iff, List.forall₂_map_right_iff, List.forall₂_same]
    intro part hpart
    obtain ⟨i, hi, rfl⟩ := List.getElem_of_mem (List.mem_of_mem_filter hpart)
    have hi' : i < s.children.length := by simpa [parts] using hi
    have hpart' : s.parts[i] = ⟨i, s.children[i], s.children[i].outline⟩ := by simp [parts]
    rw [hpart']
    exact ⟨rfl, .scope rfl (List.getElem?_eq_getElem hi')⟩

/-- Each symbol of a scope has one entry. -/
theorem countP_symbol (h : s.Claims claims) {j : Nat} (hj : j < s.defined.length) :
    (s.subjects claims).countP (fun x => x.symbol = some j) = 1 := by
  have hsymbols : (s.subjects claims).map (·.symbol) =
      (List.range s.defined.length).map some ++
        List.replicate (s.unclaimed claims).length none := by
    have hclaimed : (claims.mapIdx fun j claim => (⟨[], some j, claim⟩ : Subject)).map (·.symbol) =
        (List.range s.defined.length).map some :=
      List.ext_getElem (by simp [h.length_eq]) (by simp)
    rw [subjects, List.map_append, hclaimed]
    simp [Function.comp_def, List.map_const']
  have hone : (List.range s.defined.length).count j = 1 :=
    List.count_eq_one_of_mem List.nodup_range (List.mem_range.2 hj)
  calc (s.subjects claims).countP (fun x => x.symbol = some j)
      = ((s.subjects claims).map (·.symbol)).count (some j) := by
        simp [List.count, List.countP_map, Function.comp_def, Bool.beq_eq_decide_eq]
    _ = 1 := by
        rw [hsymbols, List.count_append, List.count_map_of_injective _ _ (Option.some_injective _),
          hone]
        simp [List.count_replicate]

/-- Each child of a scope is opened by one entry. -/
theorem countP_opened (h : s.Claims claims) (hi : i < s.children.length) :
    (s.subjects claims).countP (fun x => x.opened = some i) = 1 := by
  have hopened : (s.subjects claims).map (·.opened) =
      claims ++ ((List.range s.children.length).filter (some · ∉ claims)).map some := by
    have hclaimed : (claims.mapIdx fun j claim => (⟨[], some j, claim⟩ : Subject)).map (·.opened) =
        claims := List.ext_getElem (by simp) (by simp)
    have hids : s.parts.map (·.id) = List.range s.children.length :=
      List.ext_getElem (by simp [parts]) (by simp [parts])
    rw [subjects, List.map_append, hclaimed, ← hids, List.filter_map, unclaimed]
    simp [Function.comp_def]
  have hone : (List.range s.children.length).count i = 1 :=
    List.count_eq_one_of_mem List.nodup_range (List.mem_range.2 hi)
  calc (s.subjects claims).countP (fun x => x.opened = some i)
      = ((s.subjects claims).map (·.opened)).count (some i) := by
        simp [List.count, List.countP_map, Function.comp_def, Bool.beq_eq_decide_eq]
    _ = 1 := by
        rw [hopened, List.count_append, List.count_map_of_injective _ _ (Option.some_injective _)]
        -- A child is either claimed, and then once, or it is left.
        by_cases hclaim : some i ∈ claims
        · have hleft : i ∉ (List.range s.children.length).filter (some · ∉ claims) := by
            simp [hclaim]
          have hpos := List.count_pos_iff.2 hclaim
          have hle := h.count_le_one i
          rw [List.count_eq_zero_of_not_mem hleft]
          omega
        · rw [List.count_eq_zero_of_not_mem hclaim, List.count_filter (by simpa using hclaim), hone]

/-- The subjects of an outline, given those of the outlines of the children. -/
def allSubjects (s : Scope) (claims : List (Option Nat)) (inner : Nat → List Subject) :
    List Subject :=
  (s.subjects claims).flatMap fun x => x :: x.opened.elim [] fun i => (inner i).map (.below i)

variable {inner : Nat → List Subject}

theorem countP_flatMap_eq_mul {α β : Type} {xs : List α} {f : α → List β} {p : β → Bool}
    {q : α → Bool} {n : Nat} (h : ∀ x ∈ xs, (f x).countP p = if q x then n else 0) :
    (xs.flatMap f).countP p = xs.countP q * n := by
  induction xs with
  | nil => simp
  | cons x xs ih =>
    obtain ⟨hx, hxs⟩ := List.forall_mem_cons.1 h
    rw [List.flatMap_cons, List.countP_append, hx, ih hxs, List.countP_cons]
    split <;> ring

/-- What is counted in the scope itself stands on the level. -/
theorem countP_allSubjects_nil (q : Subject → Prop) [DecidablePred q] :
    (s.allSubjects claims inner).countP (fun x => x.address = [] ∧ q x) =
      (s.subjects claims).countP (fun x => q x) := by
  refine (countP_flatMap_eq_mul fun x hx => ?_).trans (Nat.mul_one _)
  have hinner : (x.opened.elim [] fun i => (inner i).map (.below i)).countP
      (fun x => x.address = [] ∧ q x) = 0 := by
    cases x.opened <;> simp
  rw [List.countP_cons, hinner]
  simp [address_of_mem_subjects hx]

/-- What is counted in a child stands among the subjects of the child, once for each entry that
opens it. -/
theorem countP_allSubjects_cons (a : List Nat) {q : Subject → Prop} [DecidablePred q]
    (hq : ∀ k x, q (.below k x) ↔ q x) :
    (s.allSubjects claims inner).countP (fun x => x.address = i :: a ∧ q x) =
      (s.subjects claims).countP (fun x => x.opened = some i) *
        (inner i).countP (fun x => x.address = a ∧ q x) := by
  refine countP_flatMap_eq_mul fun x hx => ?_
  rw [List.countP_cons, address_of_mem_subjects hx]
  cases x.opened with
  | none => simp
  | some k =>
    by_cases hk : k = i
    · subst hk
      simp [List.countP_map, Function.comp_def, hq]
    · simp [List.countP_map, Function.comp_def, hk]

/-- The outline of a scope shows what the outlines of its children show, and its own level. -/
theorem shown_of_children (h : ∀ c ∈ s.children, ∃ subjects, c.Shown subjects) :
    ∃ subjects, s.Shown subjects := by
  obtain ⟨claims, hclaims, hlevel⟩ := s.exists_claims
  have hinner : ∀ i : Nat, ∃ xs, ∀ c : Scope, s.children[i]? = some c → c.Shown xs := by
    intro i
    cases hc : s.children[i]? with
    | none => exact ⟨[], by simp⟩
    | some c =>
      obtain ⟨xs, hxs⟩ := h c (List.mem_of_getElem? hc)
      exact ⟨xs, by rintro _ ⟨⟩; exact hxs⟩
  choose inner hshown using hinner
  have hbelow : ∀ (i : Nat) (child : Scope), s.children[i]? = some child → List.Forall₂ s.Stands
      ((inner i).map (.below i)) (OutlineEntry.preorders child.outline) := by
    intro i child hchild
    rw [List.forall₂_map_left_iff]
    exact (hshown i child hchild).stands.imp fun x e hx => hx.below hchild
  refine ⟨s.allSubjects claims inner, ?_, ?_, ?_⟩
  · rw [hlevel, OutlineEntry.preorders_eq]
    refine List.rel_flatMap (stands_level hclaims) ?_
    rintro x e ⟨haddress, hstands⟩
    refine .cons hstands ?_
    cases hstands with
    | symbol hc hsymbol => exact .nil
    | opening hc hsymbol hchild hname hstart =>
      cases haddress
      cases hc
      exact hbelow _ _ hchild
    | scope hc hchild =>
      cases haddress
      cases hc
      exact hbelow _ _ hchild
  · rintro (_ | ⟨i, a⟩) c j hc hj
    · cases hc
      rw [countP_allSubjects_nil, countP_symbol hclaims hj]
    · obtain ⟨child, hchild, hc⟩ := Option.bind_eq_some_iff.1 hc
      rw [countP_allSubjects_cons a fun _ _ => Iff.rfl, (hshown i child hchild).symbols a c j hc hj,
        countP_opened hclaims (List.getElem?_eq_some_iff.1 hchild).1]
  · rintro (_ | ⟨i, a⟩) c k hc hk
    · cases hc
      rw [countP_allSubjects_nil, countP_opened hclaims hk]
    · obtain ⟨child, hchild, hc⟩ := Option.bind_eq_some_iff.1 hc
      rw [countP_allSubjects_cons a fun _ _ => Iff.rfl, (hshown i child hchild).scopes a c k hc hk,
        countP_opened hclaims (List.getElem?_eq_some_iff.1 hchild).1]

mutual

theorem exists_shown : (s : Scope) → ∃ subjects, s.Shown subjects
  | ⟨_, _, _, _, children⟩ => shown_of_children (exists_shown_of_mem children)

theorem exists_shown_of_mem : (cs : List Scope) → ∀ c ∈ cs, ∃ subjects, c.Shown subjects
  | [] => by simp
  | c :: cs => List.forall_mem_cons.2 ⟨exists_shown c, exists_shown_of_mem cs⟩

end

end Whole

/-- **An outline loses and repeats nothing.** The outline of a scope, and so that of every scope in
it, is a level: the entries of its symbols in the order of definition, each with the contents of the
child that it claims, and then those of the children that no symbol claims, in their order. In the
whole outline every symbol of every scope has one entry, and so has every scope below the root. -/
theorem outline_exact (s : Scope) :
    (∃ claims, s.Claims claims ∧ s.outline = s.level claims) ∧ ∃ subjects, s.Shown subjects :=
  ⟨s.exists_claims, s.exists_shown⟩

/-- Of two children with the name and the start of a symbol, the first belongs to the symbol. -/
example :
    let inner : Scope := leaf "n" ⟨⟨0, 11⟩, ⟨2, 1⟩⟩ ""
    let symbol : Symbol := ⟨"n", .scope, ⟨0, 11⟩, none, 0, [], ""⟩
    ((⟨"root", ⟨⟨0, 0⟩, ⟨5, 0⟩⟩, "", ⟨[("N", symbol)]⟩, [inner, { inner with range :=
      ⟨⟨0, 11⟩, ⟨4, 1⟩⟩ }]⟩ : Scope).outline.map fun e => (e.selection.stop, e.range.stop)) =
      [(⟨0, 12⟩, ⟨2, 1⟩), (⟨0, 12⟩, ⟨4, 1⟩)] := by
  decide

end Scope

end Asm6510
