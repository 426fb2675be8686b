/-!
# Lists of names

Sets of names are reported as lists in increasing order without repetitions.
-/

namespace SafeRefactor.Text

/-- Inserts a name into an increasing list, unless it is there. -/
def insertName (name : String) : List String → List String
  | [] => [name]
  | first :: rest =>
      if name < first then name :: first :: rest
      else if name = first then first :: rest
      else first :: insertName name rest

/-- The members of a list in increasing order, each once. -/
def sortedNames (names : List String) : List String :=
  names.foldr insertName []

private theorem mem_insertName {name other : String} {names : List String} :
    other ∈ insertName name names ↔ other = name ∨ other ∈ names := by
  induction names with
  | nil => simp [insertName]
  | cons first rest induction =>
      unfold insertName
      split
      · simp
      · split
        · next same =>
            subst same
            simp
        · rw [List.mem_cons, induction, List.mem_cons]
          exact or_left_comm

@[simp]
theorem mem_sortedNames {name : String} {names : List String} :
    name ∈ sortedNames names ↔ name ∈ names := by
  induction names with
  | nil => exact Iff.rfl
  | cons first rest induction =>
      rw [sortedNames, List.foldr_cons, mem_insertName, List.mem_cons]
      exact or_congr_right induction

theorem sortedNames_eq_nil {names : List String} : sortedNames names = [] ↔ names = [] := by
  rw [List.eq_nil_iff_forall_not_mem, List.eq_nil_iff_forall_not_mem]
  simp only [mem_sortedNames]

private theorem pairwise_insertName {name : String} {names : List String}
    (increasing : names.Pairwise (· < ·)) : (insertName name names).Pairwise (· < ·) := by
  induction names with
  | nil => exact List.pairwise_singleton _ _
  | cons first rest induction =>
      obtain ⟨smallest, others⟩ := List.pairwise_cons.mp increasing
      unfold insertName
      split
      · next before =>
          apply List.pairwise_cons.mpr
          refine ⟨?_, increasing⟩
          intro other member
          rcases List.mem_cons.mp member with rfl | later
          · exact before
          · exact String.lt_trans before (smallest other later)
      · next notBefore =>
          split
          · exact increasing
          · next different =>
              have after : first < name := by
                apply Classical.byContradiction
                intro notAfter
                exact different
                  (String.le_antisymm (String.not_lt.mp notAfter) (String.not_lt.mp notBefore))
              apply List.pairwise_cons.mpr
              refine ⟨?_, induction others⟩
              intro other member
              rcases mem_insertName.mp member with rfl | later
              · exact after
              · exact smallest other later

theorem pairwise_sortedNames (names : List String) : (sortedNames names).Pairwise (· < ·) := by
  induction names with
  | nil => exact List.Pairwise.nil
  | cons first rest induction => exact pairwise_insertName induction

end SafeRefactor.Text
