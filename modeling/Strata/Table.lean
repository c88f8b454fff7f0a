/-
# `Strata.Table` — tables ordered by their keys

A table is a list of pairs with a text as key, each key once, in the order of
the keys.  What a table says about a key is `find?`; the facts below give it for
every operation.
-/

namespace Strata

/-- A table from texts to values. -/
structure Table (α : Type) where
  entries : List (String × α)
  deriving DecidableEq, Repr

namespace Table

variable {α : Type}

/-- The table without entries. -/
def empty : Table α := ⟨[]⟩

/-- The value at a key. -/
def find? (t : Table α) (key : String) : Option α := t.entries.lookup key

/-- The keys, in order. -/
def keys (t : Table α) : List String := t.entries.map (·.1)

/-- The number of keys. -/
def size (t : Table α) : Nat := t.entries.length

/-- Puts a value into its place among ordered entries; it replaces one of the same key. -/
def putIn (key : String) (value : α) : List (String × α) → List (String × α)
  | [] => [(key, value)]
  | (k, v) :: rest =>
    if key = k then (key, value) :: rest
    else if key < k then (key, value) :: (k, v) :: rest
    else (k, v) :: putIn key value rest

/-- The table with this value at this key. -/
def put (t : Table α) (key : String) (value : α) : Table α := ⟨putIn key value t.entries⟩

/-- The table of the keys that pass a test. -/
def keep (t : Table α) (test : String → Bool) : Table α := ⟨t.entries.filter fun e => test e.1⟩

/-- The table without a key. -/
def erase (t : Table α) (key : String) : Table α := t.keep (· != key)

/-- The table of a list of pairs; of two with the same key the later one counts. -/
def ofList (entries : List (String × α)) : Table α :=
  entries.foldl (fun t e => t.put e.1 e.2) empty

/-! ## What a table says -/

theorem lookup_cons {κ : Type} [BEq κ] [LawfulBEq κ] [DecidableEq κ] (q k : κ) (v : α)
    (rest : List (κ × α)) :
    ((k, v) :: rest).lookup q = if q = k then some v else rest.lookup q := by
  rw [List.lookup_cons]
  by_cases h : q = k
  · simp [h]
  · simp [h, beq_eq_false_iff_ne.mpr h]

theorem find?_put (t : Table α) (key q : String) (value : α) :
    (t.put key value).find? q = if q = key then some value else t.find? q := by
  obtain ⟨entries⟩ := t
  simp only [put, find?]
  induction entries with
  | nil => simp only [putIn, lookup_cons]
  | cons entry rest ih =>
    obtain ⟨k, v⟩ := entry
    simp only [putIn]
    split
    · rename_i h
      subst h
      simp only [lookup_cons]
      split <;> rfl
    · rename_i h
      split
      · simp only [lookup_cons]
      · simp only [lookup_cons, ih]
        by_cases hq : q = key
        · subst hq; simp [h]
        · simp [hq]

theorem lookup_filter {κ : Type} [BEq κ] [LawfulBEq κ] [DecidableEq κ] (entries : List (κ × α))
    (test : κ → Bool) (q : κ) :
    (entries.filter fun e => test e.1).lookup q = if test q then entries.lookup q else none := by
  induction entries with
  | nil => simp
  | cons entry rest ih =>
    obtain ⟨k, v⟩ := entry
    rw [List.filter_cons, lookup_cons]
    split
    · rename_i hk
      rw [lookup_cons, ih]
      by_cases hq : q = k
      · subst hq; simp [show test q = true from hk]
      · simp [hq]
    · rename_i hk
      rw [ih]
      by_cases hq : q = k
      · subst hq; simp [show ¬test q = true from hk]
      · simp [hq]

theorem find?_keep (t : Table α) (test : String → Bool) (q : String) :
    (t.keep test).find? q = if test q then t.find? q else none :=
  lookup_filter t.entries test q

theorem find?_erase (t : Table α) (key q : String) :
    (t.erase key).find? q = if q = key then none else t.find? q := by
  rw [erase, find?_keep]
  by_cases h : q = key <;> simp [h]

end Table

end Strata
