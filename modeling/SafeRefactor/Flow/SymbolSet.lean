import SafeRefactor.Scope.Symbol

/-!
# Sets of symbols

Finite sets of symbols, kept as lists and spoken of through membership.
-/

namespace SafeRefactor

/-- A finite set of symbols. -/
abbrev SymbolSet := List Symbol

namespace SymbolSet

def insert (symbol : Symbol) (set : SymbolSet) : SymbolSet :=
  if symbol ∈ set then set else set ++ [symbol]

def remove (symbol : Symbol) (set : SymbolSet) : SymbolSet :=
  set.filter (fun other => other ≠ symbol)

def inter (left right : SymbolSet) : SymbolSet :=
  left.filter (fun symbol => symbol ∈ right)

def diff (left right : SymbolSet) : SymbolSet :=
  left.filter (fun symbol => symbol ∉ right)

def union (left right : SymbolSet) : SymbolSet :=
  right.foldl (fun set symbol => set.insert symbol) left

/-- The symbols that all sets of a list have in common; of no sets at all, none. -/
def interAll : List SymbolSet → SymbolSet
  | [] => []
  | set :: rest => rest.foldl inter set

/-- The set of the members of a list. -/
def ofList (symbols : List Symbol) : SymbolSet :=
  symbols.foldl (fun set symbol => set.insert symbol) []

@[simp]
theorem mem_insert {symbol other : Symbol} {set : SymbolSet} :
    other ∈ insert symbol set ↔ other = symbol ∨ other ∈ set := by
  unfold insert
  split
  · next member =>
      constructor
      · exact Or.inr
      · rintro (rfl | present)
        · exact member
        · exact present
  · simp [or_comm]

@[simp]
theorem mem_remove {symbol other : Symbol} {set : SymbolSet} :
    other ∈ remove symbol set ↔ other ∈ set ∧ other ≠ symbol := by
  simp [remove]

@[simp]
theorem mem_inter {symbol : Symbol} {left right : SymbolSet} :
    symbol ∈ inter left right ↔ symbol ∈ left ∧ symbol ∈ right := by
  simp [inter]

@[simp]
theorem mem_diff {symbol : Symbol} {left right : SymbolSet} :
    symbol ∈ diff left right ↔ symbol ∈ left ∧ symbol ∉ right := by
  simp [diff]

@[simp]
theorem mem_union {symbol : Symbol} {left right : SymbolSet} :
    symbol ∈ union left right ↔ symbol ∈ left ∨ symbol ∈ right := by
  unfold union
  induction right generalizing left with
  | nil => simp
  | cons first rest induction =>
      rw [List.foldl_cons, induction, mem_insert, List.mem_cons]
      constructor
      · rintro ((rfl | member) | member)
        · exact Or.inr (Or.inl rfl)
        · exact Or.inl member
        · exact Or.inr (Or.inr member)
      · rintro (member | rfl | member)
        · exact Or.inl (Or.inr member)
        · exact Or.inl (Or.inl rfl)
        · exact Or.inr member

end SymbolSet

end SafeRefactor
