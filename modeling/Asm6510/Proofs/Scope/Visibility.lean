import Asm6510.Proofs.Usage.Counts
import Asm6510.Scope.Store
import Mathlib

/-!
# What is visible is what is found

* `ScopeStore.Change`, `ScopeStore.built`: scopes put together by creating them, attaching one to
  another and declaring symbols. A declaration under a taken key changes nothing.
* `ScopeStore.WellLinked`: symbols stand under their keys, children exist, and a scope is a child
  of its parent. Every change keeps this.
* `ScopeStore.Descends`, `ScopeStore.Climbs`: the way to the innermost scope of a line and the way
  outwards, without a bound on the number of steps.

Main statement: `ScopeStore.built_find?_visible`, a plain name means the first visible symbol with
its key, and nothing if there is none. Where no scope is below itself, as many steps as there are
scopes are enough for both ways, since each step leaves fewer scopes that can still be reached
(`card_reachable_lt_of_link`).
-/

namespace Asm6510

/-! ## Names -/

namespace Text

variable (p : Char → Bool) (s : String)

theorem toList_trimmed :
    (trimRight p (trimLeft p s)).toList = (s.toList.dropWhile p).rdropWhile p := by
  simp [trimRight, trimLeft, List.rdropWhile]

/-- What is trimmed at both ends has no such character at its ends. -/
theorem trimmed_ends {c : Char} :
    ((trimRight p (trimLeft p s)).toList.head? = some c → p c = false) ∧
      ((trimRight p (trimLeft p s)).toList.getLast? = some c → p c = false) := by
  rw [toList_trimmed]
  refine ⟨fun hhead => ?_, fun hlast => ?_⟩
  · have hfirst : (s.toList.dropWhile p).head? = some c := by
      obtain ⟨back, hback⟩ := List.rdropWhile_prefix p (s.toList.dropWhile p)
      rw [← hback, List.head?_append, hhead, Option.some_or]
    have hnot := List.head?_dropWhile_not p s.toList
    rw [hfirst] at hnot
    exact hnot
  · obtain ⟨hne, rfl⟩ := List.mem_getLast?_eq_getLast hlast
    exact Bool.eq_false_iff.2 (List.rdropWhile_last_not p _ hne)

/-- What was dropped on each side consists of such characters. -/
theorem exists_trimmed :
    ∃ front back, s.toList = front ++ (trimRight p (trimLeft p s)).toList ++ back ∧
      (∀ c ∈ front, p c) ∧ ∀ c ∈ back, p c := by
  refine ⟨s.toList.takeWhile p, (s.toList.dropWhile p).rtakeWhile p, ?_,
    fun c hc => List.mem_takeWhile_imp hc, fun c hc => List.mem_rtakeWhile_imp hc⟩
  rw [toList_trimmed, List.append_assoc, List.rdropWhile_append_rtakeWhile,
    List.takeWhile_append_dropWhile]

theorem trim_trim : trim (trim s) = trim s := by
  have hends := @trimmed_ends isBlank s
  have hleft : (trim s).toList.dropWhile isBlank = (trim s).toList := by
    cases hs : (trim s).toList with
    | nil => rfl
    | cons c cs =>
      have hc : isBlank c = false := hends.1 (congrArg List.head? hs)
      rw [List.dropWhile_cons_of_neg (Bool.eq_false_iff.1 hc)]
  have hright : (trim s).toList.rdropWhile isBlank = (trim s).toList := by
    refine List.rdropWhile_eq_self_iff.2 fun hne => Bool.eq_false_iff.1 ?_
    exact hends.2 (List.getLast?_eq_some_getLast hne)
  refine String.toList_injective ?_
  calc (trim (trim s)).toList = ((trim s).toList.dropWhile isBlank).rdropWhile isBlank :=
        toList_trimmed isBlank (trim s)
    _ = (trim s).toList := by rw [hleft, hright]

end Text

theorem nameKey_trim (name : String) : nameKey (Text.trim name) = nameKey name := by
  rw [nameKey, nameKey, Text.trim_trim]

/-- No dot has other characters on both sides. -/
def NoDotBetween (name : String) : Prop :=
  ∀ before after, name.toList = before ++ '.' :: after →
    (∀ c ∈ before, c = '.') ∨ ∀ c ∈ after, c = '.'

theorem isQualified_eq_false_iff (bare : String) :
    isQualified bare = false ↔ NoDotBetween bare := by
  obtain ⟨front, back, hbare, hfront, hback⟩ := Text.exists_trimmed (· == '.') bare
  have hends := @Text.trimmed_ends (· == '.') bare
  unfold isQualified NoDotBetween
  generalize (Text.trimRight (· == '.') (Text.trimLeft (· == '.') bare)).toList = middle at *
  rw [hbare, ← Bool.not_eq_true, List.contains_iff_mem]
  constructor
  · intro hmiddle before after hsplit
    rw [List.append_assoc, List.append_eq_append_iff] at hsplit
    -- the dot is behind `front`, and then in `back`, or it is in `front`
    rcases hsplit with ⟨more, -, hrest⟩ | ⟨more, hmore, -⟩
    · refine .inr fun c hc => beq_iff_eq.1 (hback c ?_)
      rcases List.append_eq_append_iff.1 hrest with ⟨more, -, hmore⟩ | ⟨more, hmore, hrest⟩
      · rw [hmore]
        exact List.mem_append_right _ (List.mem_cons_of_mem _ hc)
      · rcases List.cons_eq_append_iff.1 hrest with ⟨-, hall⟩ | ⟨others, rfl, -⟩
        · rw [hall]
          exact List.mem_cons_of_mem _ hc
        · refine absurd ?_ hmiddle
          rw [hmore]
          exact List.mem_append_right _ List.mem_cons_self
    · refine .inl fun c hc => beq_iff_eq.1 (hfront c ?_)
      rw [hmore]
      exact List.mem_append_left _ hc
  · intro h hdot
    obtain ⟨before, after, rfl⟩ := List.append_of_mem hdot
    -- only dots on one side of it would put a dot at an end of `middle`
    rcases h (front ++ before) (after ++ back) (by simp) with hdots | hdots
    · have hhead : (before ++ '.' :: after).head? = some '.' := by
        cases before with
        | nil => rfl
        | cons c cs => rw [hdots c (by simp)]; rfl
      exact absurd (hends.1 hhead) (by decide)
    · have hlast : (before ++ '.' :: after).getLast? = some '.' := by
        cases after using List.reverseRecOn with
        | nil => simp
        | append_singleton cs c _ =>
          rw [hdots c (by simp), ← List.cons_append, ← List.append_assoc, List.getLast?_concat]
      exact absurd (hends.2 hlast) (by decide)

/-! ## Symbols by key -/

namespace Table

/-- Where symbols stand under their keys, the one under a key is the first with this key. -/
theorem get?_eq_find? {t : Table Symbol} (h : ∀ e ∈ t.entries, e.1 = e.2.key) (key : String) :
    t.get? key = (t.entries.find? fun e => e.2.key == key).map Prod.snd := by
  obtain ⟨es⟩ := t
  unfold get?
  dsimp only at h ⊢
  induction es with
  | nil => rfl
  | cons e es ih =>
    obtain ⟨k, symbol⟩ := e
    obtain ⟨hk, hes⟩ := List.forall_mem_cons.1 h
    dsimp only at hk
    subst hk
    rw [List.lookup_cons, List.find?_cons, ih hes, Bool.beq_comm]
    cases symbol.key == key <;> rfl

end Table

/-- Along a chain of scopes, the nearest symbol under a key is the first visible one with it. -/
theorem Cursor.findKey?_eq_find? (key : String) {chain : List Scope}
    (h : ∀ s ∈ chain, ∀ e ∈ s.symbols.entries, e.1 = e.2.key) (steps : List Nat) :
    (findKey? key chain steps).map (fun r => (r.scope, r.symbol)) =
      (visibleFrom chain).find? fun e => e.2.key == key := by
  induction chain generalizing steps with
  | nil => rfl
  | cons s chain ih =>
    obtain ⟨hs, hchain⟩ := List.forall_mem_cons.1 h
    have hown : (s.symbols.entries.map fun e => (s, e.2)).find? (fun e => e.2.key == key) =
        (s.symbols.get? key).map fun symbol => (s, symbol) := by
      rw [Table.get?_eq_find? hs, List.find?_map, Option.map_map]
      rfl
    rw [findKey?, visibleFrom, List.flatMap_cons, List.find?_append, hown]
    cases s.symbols.get? key with
    | some symbol => rfl
    | none => exact ih hchain steps.tail

/-! ## Changes -/

namespace ScopeStore

/-- A step in putting scopes together. -/
inductive Change
  | create (name : String) (range : Range) (uri : String)
  | attach (id child : Nat)
  | declare (id : Nat) (symbol : Symbol)

/-- The scopes after a change. A change about scopes that are not there has no effect, and neither
has a second definition of a key. -/
def change (s : ScopeStore) : Change → ScopeStore
  | .create name range uri => (s.create (.leaf name range uri)).2
  | .attach id child =>
    if id < s.scopes.length ∧ child < s.scopes.length then s.attach id child else s
  | .declare id symbol =>
    match s.declare id symbol with
    | .ok t => t
    | .error _ => s

/-- The scopes after one change after the other. -/
def built (changes : List Change) : ScopeStore :=
  changes.foldl change empty

/-- Symbols stand under their keys, children exist, and every scope is a child of its parent. -/
structure WellLinked (s : ScopeStore) : Prop where
  keyed : ∀ id c, s.get? id = some c → c.own.Keyed
  child_lt : ∀ id c, s.get? id = some c → ∀ i ∈ c.children, i < s.scopes.length
  linked : ∀ id c parent, s.get? id = some c → c.parent = some parent →
    ∃ d, s.get? parent = some d ∧ id ∈ d.children

variable {s : ScopeStore} {id child : Nat}

section Change

theorem get?_modify (f : StoredScope → StoredScope) (i : Nat) :
    (s.modify id f).get? i = if i = id then (s.get? i).map f else s.get? i := by
  unfold modify get?
  rw [List.getElem?_modify]
  split_ifs with h h' h' <;> simp_all

/-- The child gets its parent, and the document if it has none; the parent gets the child. -/
theorem get?_attach (i : Nat) :
    (s.attach id child).get? i = (s.get? i).map fun c =>
      { own := if i = child ∧ c.own.uri.isEmpty then { c.own with uri := (s.own id).uri } else c.own
        parent := if i = child then some id else c.parent
        children := if i = id then c.children ++ [child] else c.children } := by
  unfold attach
  rw [get?_modify, get?_modify]
  cases s.get? i with
  | none => simp
  | some c => split_ifs <;> simp_all

theorem get?_create (scope : Scope) (i : Nat) :
    (s.create scope).2.get? i =
      if i = s.scopes.length then some ⟨{ scope with children := [] }, none, []⟩ else s.get? i := by
  unfold create get?
  rw [List.getElem?_append]
  split_ifs with hlt heq heq
  · omega
  · rfl
  · simp [heq]
  · rw [List.getElem?_eq_none (by simp; omega), List.getElem?_eq_none (by omega)]

theorem lt_of_get? {c : StoredScope} (h : s.get? id = some c) : id < s.scopes.length :=
  (List.getElem?_eq_some_iff.1 h).1

theorem exists_get? (h : id < s.scopes.length) : ∃ c, s.get? id = some c :=
  ⟨_, List.getElem?_eq_getElem h⟩

theorem wellLinked_empty : empty.WellLinked where
  keyed id c h := by cases h
  child_lt id c h := by cases h
  linked id c parent h := by cases h

theorem WellLinked.create (h : s.WellLinked) (name : String) (range : Range) (uri : String) :
    (s.create (.leaf name range uri)).2.WellLinked := by
  have hlength : (s.create (.leaf name range uri)).2.scopes.length = s.scopes.length + 1 :=
    List.length_append
  constructor
  · intro id c hc
    rw [get?_create] at hc
    split_ifs at hc
    · cases hc
      exact Scope.keyed_leaf name range uri
    · exact h.keyed id c hc
  · intro id c hc i hi
    rw [get?_create] at hc
    split_ifs at hc
    · cases hc
      cases hi
    · have hlt := h.child_lt id c hc i hi
      omega
  · intro id c parent hc hparent
    rw [get?_create] at hc
    split_ifs at hc
    · cases hc
      cases hparent
    · obtain ⟨d, hd, hmem⟩ := h.linked id c parent hc hparent
      have hlt := lt_of_get? hd
      exact ⟨d, by rw [get?_create, if_neg (by omega), hd], hmem⟩

theorem WellLinked.attach (h : s.WellLinked) (hid : id < s.scopes.length)
    (hchild : child < s.scopes.length) : (s.attach id child).WellLinked := by
  have hlength : (s.attach id child).scopes.length = s.scopes.length := by
    simp [ScopeStore.attach, modify]
  constructor
  · intro i c hc
    rw [get?_attach] at hc
    obtain ⟨c, hget, rfl⟩ := Option.map_eq_some_iff.1 hc
    dsimp only
    split_ifs
    · exact (h.keyed i c hget).withUri _
    · exact h.keyed i c hget
  · intro i c hc j hj
    rw [get?_attach] at hc
    obtain ⟨c, hget, rfl⟩ := Option.map_eq_some_iff.1 hc
    have hold := h.child_lt i c hget
    dsimp only at hj
    rw [hlength]
    split_ifs at hj
    · rcases List.mem_append.1 hj with hj | hj
      · exact hold j hj
      · rw [List.mem_singleton.1 hj]
        exact hchild
    · exact hold j hj
  · intro i c parent hc hparent
    rw [get?_attach] at hc
    obtain ⟨c, hget, rfl⟩ := Option.map_eq_some_iff.1 hc
    dsimp only at hparent
    by_cases hi : i = child
    · rw [if_pos hi] at hparent
      cases hparent
      obtain ⟨d, hd⟩ := exists_get? hid
      exact ⟨_, by rw [get?_attach, hd]; rfl, by simp [hi]⟩
    · rw [if_neg hi] at hparent
      obtain ⟨d, hd, hmem⟩ := h.linked i c parent hget hparent
      refine ⟨_, by rw [get?_attach, hd]; rfl, ?_⟩
      dsimp only
      split_ifs
      · exact List.mem_append_left _ hmem
      · exact hmem

theorem get?_withOwn (scope : Scope) (i : Nat) :
    (s.modify id fun c => { c with own := scope }).get? i =
      (s.get? i).map fun c => { c with own := if i = id then scope else c.own } := by
  rw [get?_modify]
  split_ifs
  · rfl
  · simp

theorem WellLinked.declare {t : ScopeStore} {symbol : Symbol} (h : s.WellLinked)
    (hdeclare : s.declare id symbol = .ok t) : t.WellLinked := by
  unfold ScopeStore.declare at hdeclare
  cases hscope : (s.own id).declare symbol with
  | error e =>
    rw [hscope] at hdeclare
    cases hdeclare
  | ok scope =>
    rw [hscope] at hdeclare
    cases hdeclare
    constructor
    · intro i c hc
      rw [get?_withOwn] at hc
      obtain ⟨c, hget, rfl⟩ := Option.map_eq_some_iff.1 hc
      dsimp only
      split_ifs with hi
      · have hown : s.own id = c.own := by simp [own, ← hi, hget]
        exact (hown ▸ h.keyed i c hget).declare hscope
      · exact h.keyed i c hget
    · intro i c hc j hj
      rw [get?_withOwn] at hc
      obtain ⟨c, hget, rfl⟩ := Option.map_eq_some_iff.1 hc
      have hlt := h.child_lt i c hget j hj
      simpa [modify] using hlt
    · intro i c parent hc hparent
      rw [get?_withOwn] at hc
      obtain ⟨c, hget, rfl⟩ := Option.map_eq_some_iff.1 hc
      obtain ⟨d, hd, hmem⟩ := h.linked i c parent hget hparent
      refine ⟨_, by rw [get?_withOwn, hd]; rfl, ?_⟩
      exact hmem

theorem WellLinked.change (h : s.WellLinked) (c : Change) : (s.change c).WellLinked := by
  cases c with
  | create name range uri => exact h.create name range uri
  | attach id child =>
    rw [ScopeStore.change]
    split_ifs with hids
    · exact h.attach hids.1 hids.2
    · exact h
  | declare id symbol =>
    rw [ScopeStore.change]
    cases hdeclare : s.declare id symbol with
    | error e => exact h
    | ok t => exact h.declare hdeclare

theorem WellLinked.foldl (h : s.WellLinked) (changes : List Change) :
    (changes.foldl ScopeStore.change s).WellLinked := by
  induction changes generalizing s with
  | nil => exact h
  | cons c changes ih => exact ih (h.change c)

theorem wellLinked_built (changes : List Change) : (built changes).WellLinked :=
  wellLinked_empty.foldl changes

end Change

/-! ## Ways through the scopes -/

def IsChild (s : ScopeStore) (parent child : Nat) : Prop :=
  child ∈ s.childIds parent

/-- No scope is below itself. -/
def Acyclic (s : ScopeStore) : Prop :=
  ∀ id, ¬Relation.TransGen s.IsChild id id

/-- From a scope, the first child that holds a line is entered again and again, up to one without
such a child. -/
inductive Descends (s : ScopeStore) (line : Int) : Nat → Nat → Prop
  | here {id : Nat} (h : ∀ c ∈ s.childIds id, (s.own c).range.containsLine line = false) :
    Descends s line id id
  | into {id c found : Nat} {before after : List Nat} (hids : s.childIds id = before ++ c :: after)
    (hc : (s.own c).range.containsLine line = true)
    (hbefore : ∀ d ∈ before, (s.own d).range.containsLine line = false)
    (h : Descends s line c found) : Descends s line id found

/-- A scope and those above it, up to one without a parent. -/
inductive Climbs (s : ScopeStore) : Nat → List Nat → Prop
  | top {id : Nat} (h : s.parentId? id = none) : Climbs s id [id]
  | up {id parent : Nat} {ids : List Nat} (hparent : s.parentId? id = some parent)
    (h : Climbs s parent ids) : Climbs s id (id :: ids)

section Reachable

variable {r : Nat → Nat → Prop} {n next : Nat}

open Classical in
/-- The numbers below a bound to which links lead from a number. -/
noncomputable def reachable (r : Nat → Nat → Prop) (n id : Nat) : Finset Nat :=
  (Finset.range n).filter (Relation.TransGen r id)

theorem mem_reachable {i : Nat} : i ∈ reachable r n id ↔ i < n ∧ Relation.TransGen r id i := by
  simp [reachable]

/-- Behind a link there is less to reach: the links do not lead back. -/
theorem card_reachable_lt_of_link (hacyclic : ∀ i, ¬Relation.TransGen r i i) (hlink : r id next)
    (hnext : next < n) : (reachable r n next).card < (reachable r n id).card := by
  have hsub : reachable r n next ⊆ reachable r n id := by
    intro i hi
    obtain ⟨hlt, hi⟩ := mem_reachable.1 hi
    exact mem_reachable.2 ⟨hlt, .head hlink hi⟩
  refine Finset.card_lt_card ((Finset.ssubset_iff_of_subset hsub).2 ⟨next, ?_, ?_⟩)
  · exact mem_reachable.2 ⟨hnext, .single hlink⟩
  · exact fun h => hacyclic next (mem_reachable.1 h).2

/-- A number is not reached from itself, so fewer than all are. -/
theorem card_reachable_lt (hacyclic : ∀ i, ¬Relation.TransGen r i i) (hid : id < n) :
    (reachable r n id).card < n := by
  have hsub : reachable r n id ⊆ Finset.range n := fun i hi =>
    Finset.mem_range.2 (mem_reachable.1 hi).1
  have hssub : reachable r n id ⊂ Finset.range n := by
    refine (Finset.ssubset_iff_of_subset hsub).2 ⟨id, Finset.mem_range.2 hid, ?_⟩
    exact fun h => hacyclic id (mem_reachable.1 h).2
  simpa using Finset.card_lt_card hssub

end Reachable

section Ways

theorem WellLinked.keyed_own (h : s.WellLinked) (id : Nat) : (s.own id).Keyed := by
  unfold own
  cases hget : s.get? id with
  | none => exact Scope.keyed_leaf _ _ _
  | some c => exact h.keyed id c hget

theorem WellLinked.lt_of_isChild (h : s.WellLinked) (hchild : s.IsChild id child) :
    child < s.scopes.length := by
  unfold IsChild childIds at hchild
  cases hget : s.get? id with
  | none =>
    rw [hget] at hchild
    cases hchild
  | some c =>
    rw [hget] at hchild
    exact h.child_lt id c hget child hchild

theorem WellLinked.isChild_of_parentId? (h : s.WellLinked) {parent : Nat}
    (hparent : s.parentId? id = some parent) : s.IsChild parent id := by
  obtain ⟨c, hc, hparent⟩ := Option.bind_eq_some_iff.1 hparent
  obtain ⟨d, hd, hmem⟩ := h.linked id c parent hc hparent
  simpa [IsChild, childIds, hd] using hmem

/-- A scope with a parent is there, and so is its parent. -/
theorem WellLinked.lt_of_parentId? (h : s.WellLinked) {parent : Nat}
    (hparent : s.parentId? id = some parent) : parent < s.scopes.length := by
  obtain ⟨c, hc, hparent⟩ := Option.bind_eq_some_iff.1 hparent
  obtain ⟨d, hd, -⟩ := h.linked id c parent hc hparent
  exact lt_of_get? hd

/-- Links to parents do not run in a circle if those to children do not. -/
theorem Acyclic.parent (hacyclic : s.Acyclic) (h : s.WellLinked) (id : Nat) :
    ¬Relation.TransGen (fun i parent => s.parentId? i = some parent) id id := by
  intro hcircle
  have hswap : Relation.TransGen (Function.swap s.IsChild) id id :=
    Relation.TransGen.mono (fun _ _ hparent => h.isChild_of_parentId? hparent) id id hcircle
  exact hacyclic id (Relation.transGen_swap.1 hswap)

theorem descends_descend (h : s.WellLinked) (hacyclic : s.Acyclic) (line : Int) {fuel : Nat}
    (hfuel : (reachable s.IsChild s.scopes.length id).card < fuel) :
    s.Descends line id (s.descend line fuel id) := by
  -- a child has fewer scopes below it, so what is left of the fuel is enough for it
  induction fuel generalizing id with
  | zero => omega
  | succ fuel ih =>
    rw [descend]
    cases hfind : (s.childIds id).find? fun c => (s.own c).range.containsLine line with
    | none => exact .here fun c hc => Bool.eq_false_iff.2 (List.find?_eq_none.1 hfind c hc)
    | some c =>
      obtain ⟨hc, before, after, hids, hbefore⟩ := List.find?_eq_some_iff_append.1 hfind
      have hlink : s.IsChild id c := List.mem_of_find?_eq_some hfind
      have hless := card_reachable_lt_of_link hacyclic hlink (h.lt_of_isChild hlink)
      refine .into hids hc (fun d hd => ?_) (ih (by omega))
      simpa using hbefore d hd

theorem climbs_climb (h : s.WellLinked) (hacyclic : s.Acyclic) {fuel : Nat}
    (hfuel : (reachable (fun i parent => s.parentId? i = some parent) s.scopes.length id).card <
      fuel) : s.Climbs id (s.climb fuel id) := by
  induction fuel generalizing id with
  | zero => omega
  | succ fuel ih =>
    rw [climb]
    cases hparent : s.parentId? id with
    | none => exact .top hparent
    | some parent =>
      have hless := card_reachable_lt_of_link (hacyclic.parent h) hparent
        (h.lt_of_parentId? hparent)
      exact .up hparent (ih (by omega))

theorem Descends.lt {line : Int} {found : Nat} (hway : s.Descends line id found)
    (h : s.WellLinked) (hid : id < s.scopes.length) : found < s.scopes.length := by
  induction hway with
  | here => exact hid
  | @into id c _ before after hids _ _ _ ih =>
    have hchild : s.IsChild id c := by
      rw [IsChild, hids]
      exact List.mem_append_right _ List.mem_cons_self
    exact ih (h.lt_of_isChild hchild)

theorem Climbs.exists_tail {ids : List Nat} (h : s.Climbs id ids) : ∃ above, ids = id :: above := by
  cases h with
  | top => exact ⟨_, rfl⟩
  | up => exact ⟨_, rfl⟩

end Ways

/-- The scopes around a scope are those that the climb meets. -/
theorem chain_cursor (h : s.Climbs id (s.climb s.scopes.length id)) :
    (s.cursor id).chain = s.chain id := by
  obtain ⟨above, habove⟩ := h.exists_tail
  rw [Cursor.chain, cursor, chain, habove]
  rfl

/-- **What is visible is what is found.** In scopes that are put together by any changes and of
which none is below itself, a name without a dot between other characters means, at the innermost
scope of a line, the first symbol with its key among those that are visible at the line: the symbols
of the innermost scope, then those of the scopes above it. It means nothing exactly if no visible
symbol has the key. -/
theorem built_find?_visible (changes : List Change) (hacyclic : (built changes).Acyclic)
    (hid : id < (built changes).scopes.length) (line : Int) {name : String}
    (hname : NoDotBetween (Text.trim name)) :
    let s := built changes
    ∃ found ids, s.Descends line id found ∧ s.Climbs found ids ∧ s.innermost id line = found ∧
      s.visible id line =
        ids.flatMap (fun i => (s.own i).symbols.entries.map fun e => (s.near i, e.2)) ∧
      ((s.cursor found).find? name).map (fun r => (r.scope, r.symbol)) =
        (s.visible id line).find? (fun e => e.2.key == nameKey name) ∧
      ((s.cursor found).find? name = none ↔
        ∀ e ∈ s.visible id line, e.2.key ≠ nameKey name) := by
  intro s
  have hlinked : s.WellLinked := wellLinked_built changes
  have hdescends : s.Descends line id (s.innermost id line) :=
    descends_descend hlinked hacyclic line (card_reachable_lt hacyclic hid)
  have hclimbs : s.Climbs (s.innermost id line) (s.climb s.scopes.length (s.innermost id line)) :=
    climbs_climb hlinked hacyclic
      (card_reachable_lt (hacyclic.parent hlinked) (hdescends.lt hlinked hid))
  have hfind : ((s.cursor (s.innermost id line)).find? name).map (fun r => (r.scope, r.symbol)) =
      (s.visible id line).find? fun e => e.2.key == nameKey name := by
    have hplain := (isQualified_eq_false_iff _).2 hname
    unfold Cursor.find?
    dsimp only
    rw [hplain, if_neg Bool.false_ne_true, chain_cursor hclimbs, nameKey_trim, visible]
    refine Cursor.findKey?_eq_find? _ (fun scope hscope => ?_) _
    obtain ⟨i, -, rfl⟩ := List.mem_map.1 hscope
    exact (hlinked.keyed_own i [] _ rfl).2
  refine ⟨s.innermost id line, _, hdescends, hclimbs, rfl, ?_, hfind, ?_⟩
  · rw [visible, Cursor.visibleFrom, chain, List.flatMap_map]
    rfl
  · rw [← Option.map_eq_none_iff, hfind, List.find?_eq_none]
    simp

theorem acyclic_of_lt (h : ∀ id < s.scopes.length, ∀ c ∈ s.childIds id, id < c) : s.Acyclic := by
  have hchild : ∀ id c, s.IsChild id c → id < c := by
    intro id c hc
    by_cases hid : id < s.scopes.length
    · exact h id hid c hc
    · have hnone : s.get? id = none := List.getElem?_eq_none (by omega)
      rw [IsChild, childIds, hnone] at hc
      cases hc
  have hbelow : ∀ {id c}, Relation.TransGen s.IsChild id c → id < c := by
    intro id c hc
    induction hc with
    | single hc => exact hchild _ _ hc
    | tail _ hc ih => exact ih.trans (hchild _ _ hc)
  exact fun id hcircle => lt_irrefl id (hbelow hcircle)

def labelNamed (name : String) : Symbol :=
  ⟨name, .label, ⟨0, 0⟩, none, 0, [], ""⟩

/-- A scope in a scope in a scope. The second definition of `.X` fails. -/
def threeDeep : List Change :=
  [.create "root" ⟨⟨0, 0⟩, ⟨9, 0⟩⟩ "u", .create "a" ⟨⟨1, 0⟩, ⟨5, 0⟩⟩ "",
    .create "b" ⟨⟨2, 0⟩, ⟨3, 0⟩⟩ "", .attach 0 1, .declare 0 (labelNamed ".x"),
    .declare 1 (labelNamed ".X"), .attach 1 2, .declare 1 (labelNamed " .x:"),
    .declare 2 (labelNamed "y")]

theorem built_find?_visible_threeDeep :
    (built threeDeep).Acyclic ∧ 0 < (built threeDeep).scopes.length ∧
      NoDotBetween (Text.trim " .x+ ") ∧ (built threeDeep).innermost 0 2 = 2 ∧
      ((built threeDeep).visible 0 2).map (fun e => (e.1.name, e.2.name)) =
        [("b", "y"), ("a", ".X"), ("root", ".x")] ∧
      (((built threeDeep).cursor 2).find? " .x+ ").map (fun r => (r.scope.name, r.symbol.name)) =
        some ("a", ".X") ∧
      (((built threeDeep).cursor ((built threeDeep).innermost 0 2)).find? " .x+ ").map
          (fun r => (r.scope, r.symbol)) =
        ((built threeDeep).visible 0 2).find? fun e => e.2.key == nameKey " .x+ " := by
  have hacyclic : (built threeDeep).Acyclic := acyclic_of_lt (by decide +kernel)
  have hid : 0 < (built threeDeep).scopes.length := by decide +kernel
  have hname : NoDotBetween (Text.trim " .x+ ") :=
    (isQualified_eq_false_iff _).1 (by decide +kernel)
  obtain ⟨found, ids, -, -, rfl, -, hfind, -⟩ :=
    built_find?_visible threeDeep hacyclic hid 2 hname
  exact ⟨hacyclic, hid, hname, by decide +kernel, by decide +kernel, by decide +kernel, hfind⟩

end ScopeStore

end Asm6510
