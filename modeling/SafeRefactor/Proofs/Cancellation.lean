import SafeRefactor.Proofs.Locality

/-!
# Cancelled and failed verdicts

The signal is asked once for each unit, in the program before the edit and then in the
program after it.  A signal that cancels in between leaves one verdict only, the failure
of the analysis; a signal that holds out to the last question changes nothing.  Whatever
happens, a verdict is valid exactly when it names no failure.
-/

namespace SafeRefactor

namespace Snapshot

section

variable {snapshot : Snapshot} {settings : Settings} {edit : SourceUnit}

/-- The search of a list of units uses up one answer for each of them, or is cancelled. -/
theorem diagnosticsOf_signalled {units : List SourceUnit} {found : List Diagnostic}
    (searched : snapshot.diagnosticsOf settings none units = .ok (found, none)) (count : Nat) :
    snapshot.diagnosticsOf settings (some count) units =
      if count < units.length then .error .cancelled
      else .ok (found, some (count - units.length)) := by
  induction units generalizing found count with
  | nil =>
      cases searched
      rfl
  | cons unit rest induction =>
      simp only [diagnosticsOf, CancelSignal.poll] at searched
      split at searched
      · cases searched
      · next here isHere =>
          split at searched
          · cases searched
          · next others last isRest =>
              cases searched
              cases count with
              | zero => simp [diagnosticsOf, CancelSignal.poll]
              | succ count =>
                  have later := induction isRest count
                  simp only [diagnosticsOf, CancelSignal.poll, isHere, later, List.length_cons,
                    Nat.add_lt_add_iff_right, Nat.add_sub_add_right]
                  by_cases cancelled : count < rest.length
                  · simp only [cancelled, if_true]
                  · simp only [cancelled, if_false]

theorem diagnostics_signalled {found : List Diagnostic}
    (known : snapshot.findings settings = .ok found) (count : Nat) :
    snapshot.diagnostics settings (some count) =
      if count < snapshot.units.length then .error .cancelled
      else .ok (found, some (count - snapshot.units.length)) :=
  diagnosticsOf_signalled (diagnostics_of_findings known) count

private theorem length_units_withUnit (isThere : snapshot.contains edit.path = true) :
    (snapshot.withUnit edit).units.length = snapshot.units.length := by
  rw [units_withUnit isThere, List.length_map]

/-- The two searches share one signal: it decides after twice as many questions as there are
units. -/
theorem validate_signalled {before after : List Diagnostic}
    (isThere : snapshot.contains edit.path = true)
    (first : snapshot.findings settings = .ok before)
    (second : (snapshot.withUnit edit).findings settings = .ok after) (count : Nat) :
    snapshot.validate settings (some count) edit =
      if count < 2 * snapshot.units.length then .ofFault .cancelled else .compare before after := by
  have searched := diagnostics_signalled first count
  have searchedAgain := diagnostics_signalled second (count - snapshot.units.length)
  rw [length_units_withUnit isThere] at searchedAgain
  unfold validate
  rw [if_pos isThere, searched]
  by_cases early : count < snapshot.units.length
  · have cancelled : count < 2 * snapshot.units.length := by omega
    simp only [early, cancelled, if_true]
  · simp only [early, if_false, searchedAgain]
    by_cases late : count - snapshot.units.length < snapshot.units.length
    · have cancelled : count < 2 * snapshot.units.length := by omega
      simp only [late, cancelled, if_true]
    · have complete : ¬ count < 2 * snapshot.units.length := by omega
      simp only [late, complete, if_false]

theorem validate_cases (snapshot : Snapshot) (settings : Settings) (signal : CancelSignal)
    (edit : SourceUnit) :
    (snapshot.contains edit.path = false ∧
      ∃ text, snapshot.validate settings signal edit =
        { errors := [text], failure := some .notFound }) ∨
    (snapshot.contains edit.path = true ∧
      ((∃ fault, snapshot.validate settings signal edit = .ofFault fault) ∨
        ∃ before after, snapshot.validate settings signal edit = .compare before after)) := by
  unfold validate
  cases isThere : snapshot.contains edit.path with
  | false => exact Or.inl ⟨rfl, _, rfl⟩
  | true =>
      refine Or.inr ⟨rfl, ?_⟩
      simp only [if_true]
      cases snapshot.diagnostics settings signal with
      | error fault => exact Or.inl ⟨fault, rfl⟩
      | ok result =>
          obtain ⟨before, asked⟩ := result
          simp only
          cases (snapshot.withUnit edit).diagnostics settings asked with
          | error fault => exact Or.inl ⟨fault, rfl⟩
          | ok last => exact Or.inr ⟨before, last.1, rfl⟩

end

end Snapshot

namespace Validation

private theorem failure_compare_eq (before after : List Diagnostic) :
    (compare before after).failure =
      if (compare before after).errors = [] then none else some .semanticRegression := by
  unfold compare
  simp only [List.map_eq_nil_iff, List.isEmpty_iff]

end Validation

namespace Snapshot

/-- A cancelled verdict says so and nothing else, and a signal that comes too late changes nothing.
Every verdict is valid when it names no failure, says that the path is missing when it is, and gives
one error and no warnings when the analysis fails. -/
theorem verdict_is_all_or_nothing (snapshot : Snapshot) (settings : Settings) (edit : SourceUnit) :
    (snapshot.contains edit.path = true →
      (∃ before, snapshot.findings settings = .ok before) →
      (∃ after, (snapshot.withUnit edit).findings settings = .ok after) → ∀ count,
        (count < 2 * snapshot.units.length →
          snapshot.validate settings (some count) edit =
            { errors := ["Validation error: Operation cancelled"], warnings := [],
              failure := some .analysisFailure }) ∧
        (2 * snapshot.units.length ≤ count →
          snapshot.validate settings (some count) edit = snapshot.validate settings none edit)) ∧
    ∀ signal,
      ((snapshot.validate settings signal edit).isValid = true ↔
        (snapshot.validate settings signal edit).failure = none) ∧
      ((snapshot.validate settings signal edit).failure = some .notFound ↔
        snapshot.contains edit.path = false) ∧
      ((snapshot.validate settings signal edit).failure = some .analysisFailure →
        (snapshot.validate settings signal edit).warnings = [] ∧
          (snapshot.validate settings signal edit).errors.length = 1) := by
  constructor
  · rintro isThere ⟨before, first⟩ ⟨after, second⟩ count
    rw [validate_signalled isThere first second count, validate_of_findings isThere first second]
    constructor
    · intro cancelled
      rw [if_pos cancelled]
      rfl
    · intro complete
      rw [if_neg (Nat.not_lt.mpr complete)]
  · intro signal
    rcases validate_cases snapshot settings signal edit with
      ⟨missing, text, verdict⟩ | ⟨isThere, ⟨fault, verdict⟩ | ⟨before, after, verdict⟩⟩
    · rw [verdict, missing]
      exact ⟨⟨nofun, nofun⟩, ⟨fun _ => rfl, fun _ => rfl⟩, nofun⟩
    · rw [verdict, isThere]
      exact ⟨⟨nofun, nofun⟩, ⟨nofun, nofun⟩, fun _ => ⟨rfl, rfl⟩⟩
    · rw [verdict, isThere, Validation.isValid, Validation.failure_compare_eq]
      by_cases clean : (Validation.compare before after).errors = []
      · simp [clean]
      · simp [clean]

/-- Two units make four questions: a signal that cancels at the last one leaves nothing of the
verdict, one that would cancel at the next one comes too late. -/
theorem verdict_is_all_or_nothing_import :
    let edit := assigningUnit "a.py" "y"
    importingProgram.contains edit.path = true ∧
      (∃ before, importingProgram.findings {} = .ok before) ∧
      (∃ after, (importingProgram.withUnit edit).findings {} = .ok after) ∧
      importingProgram.validate {} (some 3) edit =
        { errors := ["Validation error: Operation cancelled"], warnings := [],
          failure := some .analysisFailure } ∧
      importingProgram.validate {} (some 4) edit = importingProgram.validate {} none edit := by
  intro edit
  have isThere : importingProgram.contains edit.path = true := by decide
  have first :=
    exists_ok_iff.mpr (show (importingProgram.findings {}).isOk = true by decide +kernel)
  have second := exists_ok_iff.mpr
    (show ((importingProgram.withUnit edit).findings {}).isOk = true by decide +kernel)
  have signalled := (verdict_is_all_or_nothing importingProgram {} edit).1 isThere first second
  exact ⟨isThere, first, second, (signalled 3).1 (by decide), (signalled 4).2 (by decide)⟩

end Snapshot

end SafeRefactor
