/-!
# Tables in insertion order

A table maps texts to values and remembers the order in which its keys were first
inserted.  Storing under a key that is present replaces the value and keeps the
place of the key.
-/

namespace SafeRefactor

/-- Values stored under texts, in the order of first insertion. -/
structure Table (α : Type) where
  entries : List (String × α) := []

namespace Table

def lookup (key : String) : List (String × α) → Option α
  | [] => none
  | (other, value) :: rest => if other = key then some value else lookup key rest

/-- Replaces the value under a key, or appends a new entry. -/
def store (key : String) (value : α) : List (String × α) → List (String × α)
  | [] => [(key, value)]
  | (other, old) :: rest =>
      if other = key then (other, value) :: rest else (other, old) :: store key value rest

def empty : Table α :=
  {}

instance : Inhabited (Table α) := ⟨empty⟩

def get? (table : Table α) (key : String) : Option α :=
  lookup key table.entries

def contains (table : Table α) (key : String) : Bool :=
  (table.get? key).isSome

def insert (table : Table α) (key : String) (value : α) : Table α :=
  ⟨store key value table.entries⟩

/-- The keys in order of first insertion. -/
def keys (table : Table α) : List String :=
  table.entries.map (·.1)

/-- The values in order of the first insertion of their keys. -/
def values (table : Table α) : List α :=
  table.entries.map (·.2)

/-- Adds items at the end of the list stored under a key. -/
def extend (table : Table (List α)) (key : String) (items : List α) : Table (List α) :=
  table.insert key ((table.get? key).getD [] ++ items)

/-- The table that results from storing pairs one after the other. -/
def ofList (pairs : List (String × α)) : Table α :=
  pairs.foldl (fun table pair => table.insert pair.1 pair.2) empty

private theorem lookup_store_self (key : String) (value : α) (entries : List (String × α)) :
    lookup key (store key value entries) = some value := by
  induction entries with
  | nil => simp [store, lookup]
  | cons entry rest induction =>
      obtain ⟨other, old⟩ := entry
      by_cases same : other = key
      · simp [store, lookup, same]
      · simp [store, lookup, same, induction]

private theorem lookup_store_of_ne {key wanted : String} (different : key ≠ wanted) (value : α)
    (entries : List (String × α)) :
    lookup wanted (store key value entries) = lookup wanted entries := by
  induction entries with
  | nil => simp [store, lookup, different]
  | cons entry rest induction =>
      obtain ⟨other, old⟩ := entry
      by_cases same : other = key
      · subst same
        simp [store, lookup, different]
      · simp only [store, same, if_false, lookup, induction]

private theorem store_of_lookup {key : String} {value : α} {entries : List (String × α)}
    (found : lookup key entries = some value) : store key value entries = entries := by
  induction entries with
  | nil => cases found
  | cons entry rest induction =>
      obtain ⟨other, old⟩ := entry
      by_cases same : other = key
      · rw [lookup, if_pos same] at found
        rw [store, if_pos same, Option.some.inj found]
      · rw [lookup, if_neg same] at found
        rw [store, if_neg same, induction found]

theorem mem_of_lookup {key : String} {value : α} {entries : List (String × α)}
    (found : lookup key entries = some value) : (key, value) ∈ entries := by
  induction entries with
  | nil => cases found
  | cons entry rest induction =>
      obtain ⟨other, old⟩ := entry
      by_cases same : other = key
      · rw [lookup, if_pos same] at found
        rw [same, Option.some.inj found]
        exact List.mem_cons_self
      · rw [lookup, if_neg same] at found
        exact List.mem_cons_of_mem _ (induction found)

theorem get?_empty_ne (key : String) (value : α) : empty.get? key ≠ some value := by
  intro found
  cases found

theorem get?_insert_self (table : Table α) (key : String) (value : α) :
    (table.insert key value).get? key = some value :=
  lookup_store_self key value table.entries

theorem get?_insert_of_ne (table : Table α) {key wanted : String} (different : key ≠ wanted)
    (value : α) : (table.insert key value).get? wanted = table.get? wanted :=
  lookup_store_of_ne different value table.entries

theorem insert_of_get? {table : Table α} {key : String} {value : α}
    (found : table.get? key = some value) : table.insert key value = table := by
  rw [insert, store_of_lookup found]

end Table

end SafeRefactor
