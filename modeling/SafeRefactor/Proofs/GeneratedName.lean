import Mathlib.Data.List.Nodup
import Mathlib.Data.List.Perm.Subperm
import Mathlib.Data.Nat.Find
import SafeRefactor.Member.AccessName

/-!
# Generated names are new

Candidates are tried one after the other until one of them is free.  The search has no
bound of its own: it ends because different numbers give different names and only
finitely many names are taken.  The name that it finds is the earliest free candidate.
-/

namespace SafeRefactor

namespace Text

/-- The search that tries one candidate after the other from a number on ends at a number. -/
inductive Search (taken : List String) (candidate : Nat → String) : Nat → Nat → Prop where
  | free {index : Nat} : candidate index ∉ taken → Search taken candidate index index
  | occupied {index last : Nat} :
      candidate index ∈ taken → Search taken candidate (index + 1) last →
      Search taken candidate index last

section

variable {taken : List String} {candidate : Nat → String} {start last other : Nat}

/-- The search passes over taken candidates only and stops at the first free one. -/
theorem search_iff : Search taken candidate start last ↔
    start ≤ last ∧ candidate last ∉ taken ∧
      ∀ index, start ≤ index → index < last → candidate index ∈ taken := by
  constructor
  · intro search
    induction search with
    | free isFree => exact ⟨Nat.le_refl _, isFree, fun index low high => by omega⟩
    | @occupied start last isTaken _ induction =>
        obtain ⟨ordered, isFree, skipped⟩ := induction
        refine ⟨by omega, isFree, fun index low high => ?_⟩
        rcases Nat.eq_or_lt_of_le low with rfl | later
        · exact isTaken
        · exact skipped index later high
  · rintro ⟨ordered, isFree, skipped⟩
    induction steps : last - start generalizing start with
    | zero =>
        obtain rfl : start = last := by omega
        exact .free isFree
    | succ steps induction =>
        apply Search.occupied (skipped start (Nat.le_refl _) (by omega))
        exact induction (by omega) (fun index low high => skipped index (by omega) high) (by omega)

/-- The search can end at one number only. -/
theorem Search.unique (search : Search taken candidate start last)
    (again : Search taken candidate start other) : last = other := by
  obtain ⟨ordered, isFree, skipped⟩ := search_iff.mp search
  obtain ⟨orderedOther, isFreeOther, skippedOther⟩ := search_iff.mp again
  rcases Nat.lt_trichotomy last other with before | same | after
  · exact absurd (skippedOther last ordered before) isFree
  · exact same
  · exact absurd (skipped other orderedOther after) isFreeOther

/-- Of one more different candidates than there are taken names, one is free. -/
theorem exists_free (injective : Function.Injective candidate) (taken : List String) :
    ∃ index ≤ taken.length, candidate index ∉ taken := by
  by_contra occupied
  have within : (List.range (taken.length + 1)).map candidate ⊆ taken := by
    intro name member
    obtain ⟨index, inRange, rfl⟩ := List.mem_map.mp member
    by_contra isFree
    exact occupied ⟨index, Nat.le_of_lt_succ (List.mem_range.mp inRange), isFree⟩
  have distinct : ((List.range (taken.length + 1)).map candidate).Nodup :=
    List.nodup_range.map injective
  have fewer := (distinct.subperm within).length_le
  rw [List.length_map, List.length_range] at fewer
  omega

/-- Among different candidates the search ends, after at most as many steps as there are taken
names. -/
theorem exists_search (injective : Function.Injective candidate) (taken : List String) :
    ∃ last ≤ taken.length, Search taken candidate 0 last := by
  obtain ⟨bound, within, isFree⟩ := exists_free injective taken
  have found : ∃ index, candidate index ∉ taken := ⟨bound, isFree⟩
  refine ⟨Nat.find found, Nat.le_trans (Nat.find_min' found isFree) within, search_iff.mpr ?_⟩
  refine ⟨Nat.zero_le _, Nat.find_spec found, fun index _ earlier => ?_⟩
  exact Decidable.of_not_not (Nat.find_min found earlier)

/-- The bounded search gives the candidate at which the unbounded one ends. -/
theorem firstFree_eq (search : Search taken candidate 0 last) (bounded : last ≤ taken.length) :
    firstFree taken candidate = candidate last := by
  obtain ⟨_, isFree, skipped⟩ := search_iff.mp search
  have found : (List.range (taken.length + 1)).find?
      ((fun name => !taken.contains name) ∘ candidate) = some last := by
    rw [List.find?_range_eq_some]
    refine ⟨by simpa using isFree, List.mem_range.mpr (by omega), fun index earlier => ?_⟩
    simpa using skipped index (Nat.zero_le _) earlier
  rw [firstFree, List.find?_map, found]
  rfl

end

private theorem toString_injective : Function.Injective (fun number : Nat => toString number) := by
  intro left right same
  have digits : Nat.toDigits 10 left = Nat.toDigits 10 right := by
    simpa using congrArg String.toList same
  have values := congrArg (fun numeral => Nat.ofDigitChars 10 numeral 0) digits
  simpa [Nat.ofDigitChars_toDigits] using values

end Text

namespace AccessName

private theorem candidate_of_pos {index : Nat} (numbered : 1 ≤ index) (base : String) :
    candidate base index = base ++ toString index :=
  if_neg (by omega)

private theorem candidate_ne_base {index : Nat} (numbered : 1 ≤ index) (base : String) :
    candidate base index ≠ base := by
  rw [candidate_of_pos numbered]
  intro same
  have lengths := congrArg String.toList same
  rw [String.toList_append, List.append_right_eq_self] at lengths
  exact Nat.toDigits_ne_nil (Nat.toList_repr.symm.trans lengths)

theorem candidate_injective (base : String) : Function.Injective (candidate base) := by
  intro left right same
  rcases Nat.eq_zero_or_pos left with rfl | numbered
  · rcases Nat.eq_zero_or_pos right with rfl | numbered
    · rfl
    · exact absurd same.symm (candidate_ne_base numbered base)
  · rcases Nat.eq_zero_or_pos right with rfl | numberedRight
    · exact absurd same (candidate_ne_base numbered base)
    · rw [candidate_of_pos numbered, candidate_of_pos numberedRight] at same
      exact Text.toString_injective (String.append_right_inj base |>.mp same)

theorem exists_generate (existing : List String) {className : String} {first : Char}
    {rest : List Char} (shape : className.toList = first :: rest) :
    ∃ last, Text.Search existing (candidate (base first rest)) 0 last ∧
      generate existing className = .ok (candidate (base first rest) last) := by
  obtain ⟨last, bounded, search⟩ :=
    Text.exists_search (candidate_injective (base first rest)) existing
  refine ⟨last, search, ?_⟩
  rw [generate, shape]
  exact congrArg Except.ok (Text.firstFree_eq search bounded)

/-- Generated names are fresh and minimal.  For a class with a name the search for a field name
ends, at one number only, and the name it ends with is not taken: it is the underscore and the
class name with a small first letter, or else that name with the least number from one on that
makes it free.  For a class without a name there is none. -/
theorem generated_name_is_least_free (existing : List String) (className : String) :
    match className.toList with
    | [] => generate existing className = .error .emptyClassName
    | first :: rest =>
        let plain := String.ofList ('_' :: Text.lowerCase first ++ rest)
        ∃ last name, Text.Search existing (candidate plain) 0 last ∧
          (∀ other, Text.Search existing (candidate plain) 0 other → other = last) ∧
          generate existing className = .ok name ∧ name ∉ existing ∧
          (plain ∉ existing → name = plain) ∧
          (plain ∈ existing → 1 ≤ last ∧ name = plain ++ toString last ∧
            ∀ number, 1 ≤ number → number < last → plain ++ toString number ∈ existing) := by
  split
  · next shape => rw [generate, shape]
  · next first rest shape =>
      obtain ⟨last, search, generated⟩ := exists_generate existing shape
      obtain ⟨_, isFree, skipped⟩ := Text.search_iff.mp search
      refine ⟨last, _, search, fun other again => again.unique search, generated, isFree, ?_, ?_⟩
      · intro plainFree
        have ends := search.unique (.free plainFree)
        rw [ends]
        rfl
      · intro plainTaken
        have numbered : 1 ≤ last := by
          rcases Nat.eq_zero_or_pos last with rfl | numbered
          · exact absurd plainTaken isFree
          · exact numbered
        refine ⟨numbered, candidate_of_pos numbered _, fun number counted earlier => ?_⟩
        have isTaken := skipped number (Nat.zero_le _) earlier
        rwa [candidate_of_pos counted] at isTaken

example : generate ["_repo", "_other", "_repo1", "_repo3"] "Repo" = .ok "_repo2" := by decide

end AccessName

end SafeRefactor
