import Asm6510.Proofs.Scope.Bodies
import Asm6510.Proofs.Scope.Duplicates
import Asm6510.Proofs.Tree.Traversal
import Asm6510.Proofs.Usage.Occurrences
import Mathlib

/-!
# Counts of references are exact

* `Scope.Keyed`: every symbol stands under its own key, and no two under one.
* `Scope.withUses`: the scopes with other numbers of references to their symbols.
* `Occurs`: the name at a path of a program is a reference to a symbol.

Main statement: `checkUsage_exact`, the references that are counted for a symbol are the names that
occur as references to it, and the symbols without any are reported. Counting step by step gives the
number of entries in the list of references (`Scope.count_eq_withUses`), which has one entry for
each such name (`found_program`).
-/

namespace Asm6510

/-! ## Keys -/

namespace Table

variable {α : Type} {key : String} {es : List (String × α)}

theorem map_of_key_ne (f : α → α) (h : ∀ e ∈ es, e.1 ≠ key) :
    es.map (fun e => if e.1 = key then (e.1, f e.2) else e) = es :=
  (List.map_congr_left fun e he => if_neg (h e he)).trans (List.map_id' es)

theorem putEntry_of_lookup (f : α → α) {entry : α} (hkeys : (es.map Prod.fst).Nodup)
    (h : es.lookup key = some entry) :
    putEntry key (f entry) es = es.map fun e => if e.1 = key then (e.1, f e.2) else e := by
  induction es with
  | nil => cases h
  | cons e es ih =>
    obtain ⟨k, x⟩ := e
    obtain ⟨hnew, hrest⟩ := List.nodup_cons.1 hkeys
    by_cases hk : k = key
    · subst hk
      rw [List.lookup_cons_self] at h
      cases h
      have hothers : ∀ e ∈ es, e.1 ≠ k := fun e he heq => hnew (List.mem_map.2 ⟨e, he, heq⟩)
      rw [putEntry, if_pos rfl, List.map_cons, if_pos rfl, map_of_key_ne f hothers]
    · rw [List.lookup_cons, beq_eq_false_iff_ne.2 (Ne.symm hk)] at h
      rw [putEntry, if_neg hk, List.map_cons, if_neg hk, ih hrest h]

/-- Where keys differ, the entry under a key is changed and no other one. -/
theorem adjust_entries {t : Table α} (h : t.keys.Nodup) (key : String) (f : α → α) :
    (t.adjust key f).entries =
      t.entries.map fun e => if e.1 = key then (e.1, f e.2) else e := by
  unfold adjust get?
  cases hlookup : t.entries.lookup key with
  | some entry => exact putEntry_of_lookup f h hlookup
  | none =>
    refine (map_of_key_ne f fun e he heq => ?_).symm
    have hother := List.lookup_eq_none_iff.1 hlookup e he
    simp [heq] at hother

end Table

namespace Scope

/-- In a scope and in all scopes in it, every symbol stands under its own key, and no two stand
under one. -/
def Keyed (s : Scope) : Prop :=
  ∀ path c, s.at? path = some c →
    c.symbols.keys.Nodup ∧ ∀ e ∈ c.symbols.entries, e.1 = e.2.key

variable {s child : Scope} {i : Nat}

theorem Keyed.below (h : s.Keyed) (hchild : s.children[i]? = some child) : child.Keyed := by
  intro path c hc
  refine h (i :: path) c ?_
  rw [at?, hchild]
  exact hc

/-- What is found under a key has that key. -/
theorem Keyed.key_eq (h : s.Keyed) {path : List Nat} {c : Scope} (hc : s.at? path = some c)
    {key : String} {symbol : Symbol} (hget : c.symbols.get? key = some symbol) :
    symbol.key = key := by
  obtain ⟨front, rest, hentries, -⟩ := List.lookup_eq_some_iff.1 hget
  have hmem : (key, symbol) ∈ c.symbols.entries := by
    rw [hentries]
    exact List.mem_append_right _ List.mem_cons_self
  exact ((h path c hc).2 _ hmem).symm

/-- A scope is keyed if its own symbols are and those of its children. -/
theorem keyed_of_children (hkeys : s.symbols.keys.Nodup)
    (hown : ∀ e ∈ s.symbols.entries, e.1 = e.2.key) (hchildren : ∀ c ∈ s.children, c.Keyed) :
    s.Keyed := by
  intro path c hc
  cases path with
  | nil =>
    cases hc
    exact ⟨hkeys, hown⟩
  | cons i path =>
    rw [at?, Option.bind_eq_some_iff] at hc
    obtain ⟨child, hchild, hc⟩ := hc
    exact hchildren child (List.mem_of_getElem? hchild) path c hc

theorem Keyed.children (h : s.Keyed) : ∀ c ∈ s.children, c.Keyed := by
  intro c hc
  obtain ⟨i, hi⟩ := List.mem_iff_getElem?.1 hc
  exact h.below hi

theorem keyed_leaf (name : String) (range : Range) (uri : String) : (leaf name range uri).Keyed :=
  keyed_of_children List.nodup_nil (fun _ he => absurd he List.not_mem_nil)
    fun _ hc => absurd hc List.not_mem_nil

theorem Keyed.withUri (h : s.Keyed) (uri : String) : ({ s with uri } : Scope).Keyed :=
  keyed_of_children (h [] s rfl).1 (h [] s rfl).2 h.children

theorem Keyed.attach (h : s.Keyed) (hchild : child.Keyed) : (s.attach child).Keyed := by
  obtain ⟨hkeys, hown⟩ := h [] s rfl
  refine keyed_of_children hkeys hown fun c hc => ?_
  rcases List.mem_append.1 hc with hc | hc
  · exact h.children c hc
  · rw [List.mem_singleton] at hc
    subst hc
    split
    · exact hchild.withUri s.uri
    · exact hchild

theorem Keyed.declare {t : Scope} {symbol : Symbol} (h : s.Keyed)
    (hdeclare : s.declare symbol = .ok t) : t.Keyed := by
  obtain ⟨hkeys, hown⟩ := h [] s rfl
  unfold Scope.declare at hdeclare
  cases hget : s.symbols.get? symbol.key with
  | some first =>
    rw [hget] at hdeclare
    cases hdeclare
  | none =>
    rw [hget] at hdeclare
    cases hdeclare
    have hput : (s.symbols.put symbol.key symbol).entries =
        s.symbols.entries ++ [(symbol.key, symbol)] :=
      Table.putEntry_of_lookup_eq_none hget
    refine keyed_of_children ?_ ?_ h.children
    · unfold Table.keys
      rw [hput, List.map_append, List.nodup_append]
      refine ⟨hkeys, List.nodup_singleton _, ?_⟩
      intro k hk k' hk'
      obtain ⟨e, he, rfl⟩ := List.mem_map.1 hk
      rw [List.map_singleton, List.mem_singleton] at hk'
      intro heq
      have hnone := List.lookup_eq_none_iff.1 hget e he
      simp [heq, hk'] at hnone
    · rw [hput]
      exact List.forall_mem_append.2 ⟨hown, List.forall_mem_singleton.2 rfl⟩

end Scope

namespace Draft

theorem keyed_define {d : Draft} (h : d.scope.Keyed) (symbol : Symbol) :
    (d.define symbol).scope.Keyed := by
  unfold define
  cases hdeclare : d.scope.declare symbol with
  | error e => exact h
  | ok scope => exact h.declare hdeclare

theorem carries_keyed : Carries fun d d' _ => d.scope.Keyed → d'.scope.Keyed where
  refl _ h := h
  trans h h' hkeyed := h' (h hkeyed)
  define _ symbol h := keyed_define h symbol
  attach hchild h := h.attach (hchild (Scope.keyed_leaf _ _ _))

end Draft

theorem keyed_ofProgram (uri : String) (lines : Int) (p : Program) :
    (Scope.ofProgram uri lines p).1.Keyed :=
  Draft.carries_keyed.statements ⟨Scope.root uri lines, []⟩ p.statements (Scope.keyed_leaf _ _ _)

/-! ## Uses -/

namespace Scope

mutual

/-- The scope at an address, last index first, with the numbers of references that `f` gives. -/
def withUses (f : SymbolRef → Int) (steps : List Nat) : Scope → Scope
  | ⟨name, range, uri, symbols, children⟩ =>
    ⟨name, range, uri, ⟨symbols.entries.map fun e => (e.1, { e.2 with uses := f ⟨steps, e.1⟩ })⟩,
      withUsesFrom f steps 0 children⟩

/-- The children from an index on with the numbers of references that `f` gives. -/
def withUsesFrom (f : SymbolRef → Int) (steps : List Nat) (i : Nat) : List Scope → List Scope
  | [] => []
  | s :: rest => withUses f (i :: steps) s :: withUsesFrom f steps (i + 1) rest

end

section Uses

variable {f g : SymbolRef → Int} {steps : List Nat}

theorem withUses_eq (s : Scope) :
    s.withUses f steps =
      { s with
        symbols := ⟨s.symbols.entries.map fun e => (e.1, { e.2 with uses := f ⟨steps, e.1⟩ })⟩
        children := withUsesFrom f steps 0 s.children } := by
  cases s
  rw [withUses]

theorem getElem?_withUsesFrom (cs : List Scope) (k i : Nat) :
    (withUsesFrom f steps k cs)[i]? = cs[i]?.map (withUses f ((k + i) :: steps)) := by
  induction cs generalizing k i with
  | nil => simp [withUsesFrom]
  | cons c cs ih =>
    rw [withUsesFrom]
    cases i with
    | zero => simp
    | succ i =>
      have hshift : k + 1 + i = k + (i + 1) := by omega
      simp [ih, hshift]

mutual

/-- The numbers at and below an address are those of the addresses that go on from it. -/
theorem withUses_congr : (s : Scope) → (steps : List Nat) →
    (∀ r : SymbolRef, steps <:+ r.steps → f r = g r) → s.withUses f steps = s.withUses g steps
  | ⟨name, range, uri, symbols, children⟩ => by
    intro steps h
    rw [withUses, withUses, withUsesFrom_congr children steps 0 h]
    congr 2
    refine List.map_congr_left fun e _ => ?_
    rw [h ⟨steps, e.1⟩ List.suffix_rfl]

theorem withUsesFrom_congr : (cs : List Scope) → (steps : List Nat) → (i : Nat) →
    (∀ r : SymbolRef, steps <:+ r.steps → f r = g r) →
    withUsesFrom f steps i cs = withUsesFrom g steps i cs
  | [] => by
    intro steps i h
    rw [withUsesFrom, withUsesFrom]
  | c :: cs => by
    intro steps i h
    rw [withUsesFrom, withUsesFrom, withUsesFrom_congr cs steps (i + 1) h]
    rw [withUses_congr c (i :: steps) fun r hr => h r ((List.suffix_cons i steps).trans hr)]

end

mutual

theorem reset_eq : (s : Scope) → (steps : List Nat) → s.reset = s.withUses (fun _ => 0) steps
  | ⟨name, range, uri, symbols, children⟩ => by
    intro steps
    rw [reset, withUses, resets_eq children steps 0]

theorem resets_eq : (cs : List Scope) → (steps : List Nat) → (i : Nat) →
    resets cs = withUsesFrom (fun _ => 0) steps i cs
  | [] => by
    intro steps i
    rw [resets, withUsesFrom]
  | c :: cs => by
    intro steps i
    rw [resets, withUsesFrom, reset_eq c (i :: steps), resets_eq cs steps (i + 1)]

end

def oneMore (f : SymbolRef → Int) (target : SymbolRef) : SymbolRef → Int :=
  Function.update f target (f target + 1)

/-- References to symbols of other scopes do not change the numbers at and below an address. -/
theorem withUses_oneMore_of_not_suffix {target : SymbolRef} (s : Scope)
    (h : ¬ steps <:+ target.steps) :
    s.withUses (oneMore f target) steps = s.withUses f steps := by
  refine withUses_congr s steps fun r hr => Function.update_of_ne ?_ _ _
  rintro rfl
  exact h hr

theorem adjust_uses {t : Table Symbol} (h : t.keys.Nodup) (key : String) :
    (Table.mk (t.entries.map fun e => (e.1, { e.2 with uses := f ⟨steps, e.1⟩ }))).adjust key
        (fun e => { e with uses := e.uses + 1 }) =
      ⟨t.entries.map fun e => (e.1, { e.2 with uses := oneMore f ⟨steps, key⟩ ⟨steps, e.1⟩ })⟩ := by
  have hkeys : (Table.mk (t.entries.map fun e =>
      (e.1, { e.2 with uses := f ⟨steps, e.1⟩ }))).keys.Nodup := by
    unfold Table.keys
    rw [List.map_map]
    exact h
  refine congrArg Table.mk ((Table.adjust_entries hkeys key _).trans ?_)
  rw [List.map_map]
  refine List.map_congr_left fun e _ => ?_
  rw [Function.comp_apply, oneMore]
  dsimp only
  split
  · rename_i hkey
    rw [hkey, Function.update_self]
  · rename_i hkey
    rw [Function.update_of_ne fun heq => hkey (SymbolRef.mk.inj heq).2]

/-- Counting one reference changes the number of one symbol. -/
theorem countAt_withUses (address : List Nat) (key : String) {s : Scope} (h : s.Keyed)
    (steps : List Nat) :
    countAt address key (s.withUses f steps) =
      s.withUses (oneMore f ⟨address.reverse ++ steps, key⟩) steps := by
  induction address generalizing s steps with
  | nil =>
    have hchildren : withUsesFrom f steps 0 s.children =
        withUsesFrom (oneMore f ⟨steps, key⟩) steps 0 s.children := by
      refine List.ext_getElem? fun i => ?_
      rw [getElem?_withUsesFrom, getElem?_withUsesFrom]
      refine congrArg (Option.map · s.children[i]?) (funext fun c => ?_)
      refine (withUses_oneMore_of_not_suffix c fun hsuffix => ?_).symm
      have hlength := hsuffix.length_le
      simp at hlength
    rw [List.reverse_nil, List.nil_append, withUses_eq, withUses_eq, countAt, ← hchildren]
    rw [adjust_uses (h [] s rfl).1]
  | cons i address ih =>
    have hown : ∀ e : String × Symbol,
        oneMore f ⟨(i :: address).reverse ++ steps, key⟩ ⟨steps, e.1⟩ = f ⟨steps, e.1⟩ := by
      intro e
      refine Function.update_of_ne (fun heq => ?_) _ _
      have hlength := congrArg (fun r : SymbolRef => r.steps.length) heq
      simp at hlength
      omega
    have hchildren : (withUsesFrom f steps 0 s.children).modify i (countAt address key) =
        withUsesFrom (oneMore f ⟨(i :: address).reverse ++ steps, key⟩) steps 0 s.children := by
      refine List.ext_getElem? fun j => ?_
      rw [List.getElem?_modify, getElem?_withUsesFrom, getElem?_withUsesFrom, Nat.zero_add]
      cases hchild : s.children[j]? with
      | none => rfl
      | some c =>
        refine congrArg some ?_
        dsimp only
        rw [List.reverse_cons, List.append_assoc, List.singleton_append]
        by_cases hij : i = j
        · subst hij
          rw [if_pos rfl]
          exact ih (h.below hchild) (i :: steps)
        · rw [if_neg hij]
          refine (withUses_oneMore_of_not_suffix c fun hsuffix => ?_).symm
          -- Two suffixes of one length are the same.
          have hother : i :: steps <:+ address.reverse ++ i :: steps := List.suffix_append _ _
          have hsame := List.suffix_of_suffix_length_le hother hsuffix (by simp)
          exact hij (List.cons.inj (hsame.eq_of_length (by simp))).1
    rw [withUses_eq, withUses_eq, countAt, hchildren]
    simp only [hown]

/-- Counting references one by one gives each symbol the number of its references. -/
theorem foldl_countAt (refs : List SymbolRef) {s : Scope} (h : s.Keyed) (f : SymbolRef → Int) :
    refs.foldl (fun s r => countAt r.steps.reverse r.key s) (s.withUses f []) =
      s.withUses (fun r => f r + refs.count r) [] := by
  induction refs generalizing f with
  | nil => simp
  | cons target refs ih =>
    obtain ⟨steps, key⟩ := target
    have hstep : countAt steps.reverse key (s.withUses f []) =
        s.withUses (oneMore f ⟨steps, key⟩) [] := by
      rw [countAt_withUses _ _ h, List.reverse_reverse, List.append_nil]
    rw [List.foldl_cons, hstep, ih]
    refine withUses_congr s [] fun r _ => ?_
    by_cases hr : r = ⟨steps, key⟩
    · subst hr
      rw [oneMore, Function.update_self, List.count_cons_self]
      omega
    · rw [oneMore, Function.update_of_ne hr, List.count_cons_of_ne (Ne.symm hr)]

theorem count_eq_withUses {s : Scope} (h : s.Keyed) (refs : List SymbolRef) :
    s.count refs = s.withUses (fun r => refs.count r) [] := by
  rw [count, reset_eq s [], foldl_countAt refs h]
  simp only [Int.zero_add]

end Uses

end Scope

/-! ## What a name means -/

/-- A chain of scopes from one of them out to the root, with the address of the first. -/
inductive Scope.Chain (root : Scope) : List Scope → List Nat → Prop
  | root : Chain root [root] []
  | child {s c : Scope} {outer : List Scope} {steps : List Nat} {i : Nat} :
    Chain root (s :: outer) steps → s.children[i]? = some c →
      Chain root (c :: s :: outer) (i :: steps)

namespace Scope.Chain

variable {root s : Scope} {outer : List Scope} {steps : List Nat}

theorem at?_head (h : Chain root (s :: outer) steps) : root.at? steps.reverse = some s := by
  generalize hchain : s :: outer = chain at h
  induction h generalizing s outer with
  | root =>
    cases hchain
    rfl
  | child _ hchild ih =>
    cases hchain
    rw [List.reverse_cons]
    exact at?_concat (ih rfl) hchild

theorem findKey? {chain : List Scope} (h : Chain root chain steps) {key : String} {r : Resolved}
    (hfind : Cursor.findKey? key chain steps = some r) :
    root.at? r.steps.reverse = some r.scope ∧ r.scope.symbols.get? key = some r.symbol := by
  induction h with
  | root =>
    rw [Cursor.findKey?] at hfind
    split at hfind
    · rename_i symbol hget
      cases hfind
      exact ⟨rfl, hget⟩
    · cases hfind
  | child hparent hchild ih =>
    rw [Cursor.findKey?] at hfind
    split at hfind
    · rename_i symbol hget
      cases hfind
      exact ⟨(hparent.child hchild).at?_head, hget⟩
    · exact ih hfind

end Scope.Chain

namespace Cursor

/-- A cursor is a scope of a tree with the scopes around it and its address. -/
def Within (c : Cursor) (root : Scope) : Prop :=
  Scope.Chain root c.chain c.steps

variable {c : Cursor} {root : Scope}

theorem Within.enter (h : c.Within root) (i : Nat) : (c.enter i).Within root := by
  unfold Cursor.enter
  split
  · rename_i child hchild
    exact h.child hchild
  · exact h

theorem Within.body (h : c.Within root) (d : Directive) : (c.body d).Within root := by
  unfold Cursor.body
  split
  · exact h
  · split
    · split
      · exact h.enter _
      · exact h
    · exact h

/-- What a name means is a symbol of a scope of the tree, under its key. -/
theorem Within.find? (h : c.Within root) {name : String} {r : Resolved}
    (hfind : c.find? name = some r) :
    ∃ key, root.at? r.steps.reverse = some r.scope ∧
      r.scope.symbols.get? key = some r.symbol := by
  unfold Cursor.find? at hfind
  dsimp only at hfind
  split at hfind
  · simp only [findMember?, Option.bind_eq_bind, Option.bind_eq_some_iff, Option.pure_def] at hfind
    obtain ⟨i, -, child, hchild, symbol, hown, hr⟩ := hfind
    cases hr
    exact ⟨_, (Scope.Chain.child h hchild).at?_head, hown⟩
  · exact ⟨_, Scope.Chain.findKey? h hfind⟩

theorem Within.readIn (h : c.Within root) {n : Node} {i : Nat} {inner : Cursor}
    (hread : n.readIn c i = some inner) : inner.Within root := by
  unfold Node.readIn at hread
  split at hread
  · split at hread
    · cases hread
    · cases hread
      exact h
  · split at hread
    · cases hread
    · split at hread
      · cases hread
        exact h
      · cases hread
        exact h.body _
  · split at hread
    · split at hread
      · cases hread
        exact h
      · cases hread
    · cases hread
      exact h
  · cases hread
    exact h

theorem Within.reach {path : List Nat} (h : c.Within root) {n part : Node} {inner : Cursor}
    (hreach : n.reach path c = some (inner, part)) : inner.Within root := by
  induction path generalizing c n with
  | nil =>
    cases hreach
    exact h
  | cons i path ih =>
    simp only [Node.reach, Option.bind_eq_bind, Option.bind_eq_some_iff] at hreach
    obtain ⟨next, -, between, hread, hreach⟩ := hreach
    exact ih (h.readIn hread) hreach

/-- A name that is looked up in a scope means a symbol: the one that is found stands under the key
in the scope at the address. -/
def Means (c : Cursor) (root : Scope) (name : String) (target : SymbolRef) : Prop :=
  ∃ r, c.find? name = some r ∧ r.steps = target.steps ∧
    root.at? target.steps.reverse = some r.scope ∧ r.scope.symbols.get? target.key = some r.symbol

theorem Within.refer?_iff (h : c.Within root) (hkeyed : root.Keyed) {name : String}
    {target : SymbolRef} : c.refer? name = some target ↔ c.Means root name target := by
  unfold refer?
  rw [Option.map_eq_some_iff]
  constructor
  · rintro ⟨r, hfind, rfl⟩
    obtain ⟨key, hat, hget⟩ := h.find? hfind
    refine ⟨r, hfind, rfl, hat, ?_⟩
    rw [hkeyed.key_eq hat hget]
    exact hget
  · rintro ⟨r, hfind, hsteps, hat, hget⟩
    refine ⟨r, hfind, ?_⟩
    rw [hkeyed.key_eq hat hget, hsteps]

end Cursor

/-- The name at a path of a program is a reference to a symbol of a tree of scopes. It is not empty,
no multi-label and in no comment, and it means the symbol where it is read. -/
def Occurs (p : Program) (scope : Scope) (text : String) (target : SymbolRef) (path : List Nat) :
    Prop :=
  ∃ c t value, Node.reach path (Cursor.ofRoot scope) (.program p) =
      some (c, .expr (.identifier t value)) ∧
    value ≠ "" ∧ Text.startsWith value "!" = false ∧
    placeInComment (Text.lines text).toArray t.place = false ∧ c.Means scope value target

theorem hit_iff_occurs {p : Program} {scope : Scope} (h : scope.Keyed) (text : String)
    (path : List Nat) (target : SymbolRef) :
    Hit (Text.lines text).toArray (Cursor.ofRoot scope) (.program p) path target ↔
      Occurs p scope text target path := by
  have hroot : (Cursor.ofRoot scope).Within scope := .root
  have hname : ∀ t value, isReference (Text.lines text).toArray (t, value) = true ↔
      value ≠ "" ∧ Text.startsWith value "!" = false ∧
        placeInComment (Text.lines text).toArray t.place = false := by
    intro t value
    simp [isReference, and_assoc]
  constructor
  · rintro ⟨c, t, value, hreach, hreference, hrefer⟩
    obtain ⟨hvalue, hbang, hplace⟩ := (hname t value).1 hreference
    exact ⟨c, t, value, hreach, hvalue, hbang, hplace,
      ((hroot.reach hreach).refer?_iff h).1 hrefer⟩
  · rintro ⟨c, t, value, hreach, hvalue, hbang, hplace, hmeans⟩
    exact ⟨c, t, value, hreach, (hname t value).2 ⟨hvalue, hbang, hplace⟩,
      ((hroot.reach hreach).refer?_iff h).2 hmeans⟩

/-! ## Warnings -/

namespace Scope

theorem allSymbols_eq (s : Scope) :
    s.allSymbols = s.preorder.flatMap fun c => c.symbols.entries.map (·.2) := by
  rw [allSymbols, walk_eq_preorders, preorders, preorders, List.append_nil]

end Scope

namespace Symbol

/-- A label, a constant or a variable to which nothing refers. -/
def Unused (s : Symbol) : Prop :=
  s.kind ∈ [.label, .constant, .var] ∧ s.uses = 0

instance (s : Symbol) : Decidable s.Unused :=
  inferInstanceAs (Decidable (_ ∧ _))

/-- The warning that a symbol is unused, at its name. -/
def unused (s : Symbol) : Diagnostic where
  severity := .warning
  range := .span s.position s.name.length
  message := "Unused " ++ Text.lower s.kind.name ++ " '" ++ s.name ++ "'"
  source := Stage.usage.label

end Symbol

theorem unusedWarning?_eq (s : Symbol) :
    unusedWarning? s = if s.Unused then some s.unused else none := by
  obtain ⟨name, kind, position, value, uses, params, signature⟩ := s
  have hlabel : Text.lower SymbolKind.label.name = "label" := by decide +kernel
  have hconstant : Text.lower SymbolKind.constant.name = "constant" := by decide +kernel
  have hvar : Text.lower SymbolKind.var.name = "variable" := by decide +kernel
  unfold unusedWarning? Symbol.Unused Symbol.unused
  cases kind <;> simp [checkedKind?, hlabel, hconstant, hvar, Symbol.nameRange]

theorem filterMap_unusedWarning? (symbols : List Symbol) :
    symbols.filterMap unusedWarning? = (symbols.filter (·.Unused)).map Symbol.unused := by
  induction symbols with
  | nil => rfl
  | cons symbol symbols ih =>
    rw [List.filterMap_cons, List.filter_cons, unusedWarning?_eq]
    by_cases h : symbol.Unused
    · simp [h, ih]
    · simp [h, ih]

/-- **Counts and warnings are exact.** The number of references to a symbol is the number of the
names that occur as references to it, and nothing else in the scopes changes. If the settings ask
for it, each label, constant and variable without references is reported once, scope by scope and in
the order of definition. -/
theorem checkUsage_exact (settings : Settings) (p : Program) {scope : Scope} (h : scope.Keyed)
    (text : String) :
    (∀ target, {path | Occurs p scope text target path}.Finite) ∧
    (checkUsage settings p scope text).1 =
      scope.withUses (fun target => ({path | Occurs p scope text target path}.ncard : Int)) [] ∧
    (checkUsage settings p scope text).2 =
      (if settings.warnIllegal then statementsIllegal p.statements else []) ++
      (if settings.warnUnused then
        (((checkUsage settings p scope text).1.preorder.flatMap fun c =>
          c.symbols.entries.map (·.2)).filter (·.Unused)).map Symbol.unused
      else []) := by
  have hcount : ∀ target, {path | Occurs p scope text target path}.Finite ∧
      (references p scope text).count target =
        {path | Occurs p scope text target path}.ncard := by
    intro target
    simp only [← hit_iff_occurs h text]
    exact (found_program p scope text).count_eq_ncard target
  refine ⟨fun target => (hcount target).1, ?_, ?_⟩
  · rw [checkUsage, Scope.count_eq_withUses h]
    exact Scope.withUses_congr scope [] fun target _ => congrArg Nat.cast (hcount target).2
  · rw [checkUsage, unusedWarnings, filterMap_unusedWarning?, Scope.allSymbols_eq]

open Grammar (plainToken)

/-- Two labels, and an instruction whose operand is a call with an index. -/
def indexedText : String :=
  "a:b:lda a(a),b"

def indexedProgram : Program where
  start := plainToken .label "a:" 1 1
  statements :=
    [.label (plainToken .label "a:" 1 1), .label (plainToken .label "b:" 1 3),
      .instruction (plainToken (.mnemonic .standard) "lda" 1 5)
        (.indexed (plainToken .comma "," 1 13)
          (.call (plainToken .leftParen "(" 1 10)
            (.identifier (plainToken .identifier "a" 1 9) "a")
            [.identifier (plainToken .identifier "a" 1 11) "a"])
          (plainToken .identifier "b" 1 14))]

/-- In `indexedText` the function and the argument of the call are references to the first label.
The index is none to the second one, which is reported. -/
theorem checkUsage_exact_indexed :
    (Scope.ofProgram "" 1 indexedProgram).1.Keyed ∧
    {path | Occurs indexedProgram (Scope.ofProgram "" 1 indexedProgram).1 indexedText ⟨[], "A"⟩
      path}.ncard = 2 ∧
    {path | Occurs indexedProgram (Scope.ofProgram "" 1 indexedProgram).1 indexedText ⟨[], "B"⟩
      path}.ncard = 0 ∧
    (checkUsage .standard indexedProgram (Scope.ofProgram "" 1 indexedProgram).1 indexedText).2.map
      Diagnostic.message = ["Unused label 'b'"] := by
  have hkeyed := keyed_ofProgram "" 1 indexedProgram
  have huses : (checkUsage .standard indexedProgram (Scope.ofProgram "" 1 indexedProgram).1
      indexedText).1.symbols.entries.map (·.2.uses) = [2, 0] := by
    decide +kernel
  have hkeys : (Scope.ofProgram "" 1 indexedProgram).1.symbols.entries.map (·.1) = ["A", "B"] := by
    decide +kernel
  have hexact := (checkUsage_exact .standard indexedProgram hkeyed indexedText).2.1
  -- The counts by key, in the order of definition.
  have hcounts : ["A", "B"].map (fun key => ({path | Occurs indexedProgram
      (Scope.ofProgram "" 1 indexedProgram).1 indexedText ⟨[], key⟩ path}.ncard : Int)) =
      [2, 0] := by
    rw [← huses, ← hkeys, hexact, Scope.withUses_eq, List.map_map, List.map_map]
    rfl
  obtain ⟨hfirst, hsecond⟩ := List.cons_eq_cons.1 hcounts
  refine ⟨hkeyed, Nat.cast_injective hfirst, Nat.cast_injective (List.cons_eq_cons.1 hsecond).1, ?_⟩
  decide +kernel

end Asm6510
