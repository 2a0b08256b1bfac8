/-!
# Tables by name

A `Table` keeps its entries in the order in which their keys first came; a key that comes again
keeps its place and gets the last entry.
-/

namespace Asm6510

/-- Entries by key, in the order of their keys. -/
structure Table (α : Type) where
  entries : List (String × α)
deriving Repr

namespace Table

variable {α : Type}

/-- A table without entries. -/
def empty : Table α := ⟨[]⟩

/-- The entries after an entry is put under a key. -/
def putEntry (key : String) (entry : α) : List (String × α) → List (String × α)
  | [] => [(key, entry)]
  | (k, e) :: rest =>
    if k = key then (key, entry) :: rest else (k, e) :: putEntry key entry rest

/-- Puts an entry under a key. -/
def put (t : Table α) (key : String) (entry : α) : Table α :=
  ⟨putEntry key entry t.entries⟩

/-- The table of a list of entries under the keys that `key` gives. -/
def ofList (key : α → String) (items : List α) : Table α :=
  items.foldl (fun t item => t.put (key item) item) empty

/-- The entry under a key. -/
def get? (t : Table α) (key : String) : Option α :=
  t.entries.lookup key

/-- Whether there is an entry under a key. -/
def contains (t : Table α) (key : String) : Bool :=
  (t.get? key).isSome

/-- The keys in order. -/
def keys (t : Table α) : List String :=
  t.entries.map (·.1)

theorem lookup_putEntry (key k : String) (entry : α) (es : List (String × α)) :
    (putEntry key entry es).lookup k = if k = key then some entry else es.lookup k := by
  induction es with
  | nil =>
    by_cases hk : k = key
    · simp [putEntry, hk]
    · simp [putEntry, List.lookup_cons, beq_eq_false_iff_ne.2 hk, hk]
  | cons e es ih =>
    obtain ⟨k', e'⟩ := e
    by_cases h : k' = key
    · subst h
      by_cases hk : k = k'
      · simp [putEntry, hk]
      · simp [putEntry, List.lookup_cons, beq_eq_false_iff_ne.2 hk, hk]
    · by_cases hk' : k = k'
      · subst hk'
        simp [putEntry, h]
      · simp [putEntry, List.lookup_cons, h, beq_eq_false_iff_ne.2 hk', ih]

/-- Looking up after `put` gives the entry that was put, and every other one as before. -/
theorem get?_put (t : Table α) (key k : String) (entry : α) :
    (t.put key entry).get? k = if k = key then some entry else t.get? k :=
  lookup_putEntry key k entry t.entries

end Table

end Asm6510
