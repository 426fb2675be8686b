import SafeRefactor.Program.Validation

/-!
# Accepted edits

An edit that is found valid adds no error to the program, so a session of valid edits
ends with errors that were there when it began.  Storing a unit that is there already is
a valid edit, however many errors the program has.
-/

namespace SafeRefactor

/-- What tells one finding from another: its number, its message and its place. -/
def Diagnostic.key (diagnostic : Diagnostic) : String × String × String × Int × Int :=
  (diagnostic.code.label, diagnostic.message, diagnostic.path, diagnostic.line, diagnostic.column)

/-- The keys of the errors among findings. -/
def errorKeys (found : List Diagnostic) : List (String × String × String × Int × Int) :=
  (found.filter Diagnostic.isError).map Diagnostic.key

private theorem errorKeys_subset {before after : List Diagnostic}
    (known : ∀ found ∈ after, found.isError = true → found ∈ before) :
    errorKeys after ⊆ errorKeys before := by
  intro key member
  obtain ⟨found, isFound, rfl⟩ := List.mem_map.mp member
  obtain ⟨inAfter, isError⟩ := List.mem_filter.mp isFound
  apply List.mem_map_of_mem
  exact List.mem_filter.mpr ⟨known found inAfter isError, isError⟩

namespace Validation

theorem errors_compare {before after : List Diagnostic} :
    (compare before after).errors = [] ↔
      ∀ found ∈ after, found.isError = true → found ∈ before := by
  unfold compare
  rw [List.map_eq_nil_iff, List.filter_eq_nil_iff]
  constructor
  · intro noneAdded found inAfter isError
    have old := noneAdded found inAfter
    simp only [isError, Bool.true_and, Bool.not_eq_true', Bool.not_eq_false,
      List.contains_iff_mem] at old
    exact (List.mem_filter.mp old).1
  · intro known found inAfter
    by_cases isError : found.isError = true
    · simp [isError, known found inAfter isError]
    · simp [isError]

theorem failure_compare {before after : List Diagnostic}
    (clean : (compare before after).errors = []) : (compare before after).failure = none := by
  unfold compare at clean ⊢
  rw [List.map_eq_nil_iff] at clean
  simp only [clean, List.isEmpty_nil, if_true]

end Validation

namespace Snapshot

/-- The findings of a program when nothing cancels the search. -/
def findings (snapshot : Snapshot) (settings : Settings) : Except Fault (List Diagnostic) :=
  (snapshot.diagnostics settings none).map Prod.fst

theorem diagnosticsOf_uncancelled {snapshot : Snapshot} {settings : Settings}
    {units : List SourceUnit} {found : List Diagnostic} {signal : CancelSignal}
    (searched : snapshot.diagnosticsOf settings none units = .ok (found, signal)) :
    signal = none := by
  induction units generalizing found with
  | nil =>
      cases searched
      rfl
  | cons unit rest induction =>
      simp only [diagnosticsOf, CancelSignal.poll] at searched
      split at searched
      · cases searched
      · split at searched
        · cases searched
        · cases searched
          apply induction
          assumption

theorem diagnostics_of_findings {snapshot : Snapshot} {settings : Settings}
    {found : List Diagnostic} (known : snapshot.findings settings = .ok found) :
    snapshot.diagnostics settings none = .ok (found, none) := by
  unfold findings at known
  cases searched : snapshot.diagnostics settings none with
  | error fault =>
      rw [searched] at known
      cases known
  | ok result =>
      obtain ⟨others, signal⟩ := result
      rw [searched] at known
      cases known
      rw [diagnosticsOf_uncancelled searched]

/-- The verdict on an edit of a program whose findings are known before and after. -/
theorem validate_of_findings {snapshot : Snapshot} {settings : Settings} {edit : SourceUnit}
    {before after : List Diagnostic} (isThere : snapshot.contains edit.path = true)
    (knownBefore : snapshot.findings settings = .ok before)
    (knownAfter : (snapshot.withUnit edit).findings settings = .ok after) :
    snapshot.validate settings none edit = .compare before after := by
  unfold validate
  rw [if_pos isThere, diagnostics_of_findings knownBefore]
  simp only [diagnostics_of_findings knownAfter]

private theorem findings_of_diagnostics {snapshot : Snapshot} {settings : Settings}
    {found : List Diagnostic} {signal : CancelSignal}
    (searched : snapshot.diagnostics settings none = .ok (found, signal)) :
    snapshot.findings settings = .ok found := by
  unfold findings
  rw [searched]
  rfl

/-- One step of a session: the findings before and after a valid edit are known, and the errors
after it were there before. -/
theorem errors_of_isValid {snapshot : Snapshot} {settings : Settings} {edit : SourceUnit}
    (valid : (snapshot.validate settings none edit).isValid = true) :
    ∃ before after, snapshot.findings settings = .ok before ∧
      (snapshot.withUnit edit).findings settings = .ok after ∧
      errorKeys after ⊆ errorKeys before := by
  unfold validate at valid
  split at valid
  · split at valid
    · cases valid
    · rename_i before asked searched
      cases diagnosticsOf_uncancelled searched
      split at valid
      · cases valid
      · rename_i after signal searchedAgain
        have known := Validation.errors_compare.mp (List.isEmpty_iff.mp valid)
        exact ⟨before, after, findings_of_diagnostics searched,
          findings_of_diagnostics searchedAgain, errorKeys_subset known⟩
  · cases valid

/-- The program that a list of edits leads to when each is valid for the program that the edits
before it have made. -/
inductive Accepted (settings : Settings) : Snapshot → List SourceUnit → Snapshot → Prop where
  | none (snapshot : Snapshot) : Accepted settings snapshot [] snapshot
  | edit {snapshot last : Snapshot} {edit : SourceUnit} {rest : List SourceUnit}
      (valid : (snapshot.validate settings .none edit).isValid = true)
      (others : Accepted settings (snapshot.withUnit edit) rest last) :
      Accepted settings snapshot (edit :: rest) last

/-- A whole session: the errors at its end were there at its beginning. -/
theorem Accepted.errors {settings : Settings} {first last : Snapshot} {edits : List SourceUnit}
    {after : List Diagnostic} (accepted : Accepted settings first edits last)
    (known : last.findings settings = .ok after) :
    ∃ before, first.findings settings = .ok before ∧ errorKeys after ⊆ errorKeys before := by
  induction accepted with
  | none snapshot => exact ⟨after, known, List.Subset.refl _⟩
  | edit valid others induction =>
      obtain ⟨before, between, knownBefore, knownBetween, fewer⟩ := errors_of_isValid valid
      obtain ⟨found, knownFound, fewest⟩ := induction known
      cases knownBetween.symm.trans knownFound
      exact ⟨before, knownBefore, List.Subset.trans fewest fewer⟩

theorem Accepted.known {settings : Settings} {first last : Snapshot} {edits : List SourceUnit}
    (accepted : Accepted settings first edits last) (edited : edits ≠ []) :
    ∃ after, last.findings settings = .ok after := by
  induction accepted with
  | none snapshot => exact absurd rfl edited
  | edit valid others induction =>
      cases others with
      | none =>
          obtain ⟨before, after, knownBefore, knownAfter, fewer⟩ := errors_of_isValid valid
          exact ⟨after, knownAfter⟩
      | edit next others => exact induction (List.cons_ne_nil _ _)

private theorem withUnit_of_get? {snapshot : Snapshot} {path : String} {unit : SourceUnit}
    (stored : snapshot.get? path = some unit) : snapshot.withUnit unit = snapshot := by
  have here : snapshot.table.get? unit.path = some unit := by
    rw [snapshot.keyed stored]
    exact stored
  unfold withUnit
  simp only [Table.insert_of_get? here]

theorem validate_stored {snapshot : Snapshot} {settings : Settings} {found : List Diagnostic}
    {path : String} {unit : SourceUnit} (known : snapshot.findings settings = .ok found)
    (stored : snapshot.get? path = some unit) :
    (snapshot.validate settings none unit).errors = [] ∧
      (snapshot.validate settings none unit).failure = none := by
  have isThere : snapshot.contains unit.path = true := by
    unfold contains Table.contains
    rw [snapshot.keyed stored]
    exact Option.isSome_of_mem stored
  have compared : snapshot.validate settings none unit = .compare found found := by
    apply validate_of_findings isThere known
    rw [withUnit_of_get? stored]
    exact known
  have clean : (Validation.compare found found).errors = [] :=
    Validation.errors_compare.mpr (fun _ member _ => member)
  rw [compared]
  exact ⟨clean, Validation.failure_compare clean⟩

/-- Valid edits, one after the other, end with errors that were there before the first; and the
edit that changes nothing is valid whatever errors there are. -/
theorem accepted_edits_add_no_errors (settings : Settings) :
    (∀ {first last : Snapshot} {edits : List SourceUnit}, Accepted settings first edits last →
      (edits ≠ [] → ∃ after, last.findings settings = .ok after) ∧
        ∀ after, last.findings settings = .ok after →
          ∃ before, first.findings settings = .ok before ∧ errorKeys after ⊆ errorKeys before) ∧
      ∀ (snapshot : Snapshot) (found : List Diagnostic) (path : String) (unit : SourceUnit),
        snapshot.findings settings = .ok found → snapshot.get? path = some unit →
          (snapshot.validate settings none unit).isValid = true ∧
            (snapshot.validate settings none unit).errors = [] ∧
            (snapshot.validate settings none unit).failure = none := by
  constructor
  · intro first last edits accepted
    exact ⟨accepted.known, fun after known => accepted.errors known⟩
  · intro snapshot found path unit known stored
    obtain ⟨clean, sound⟩ := validate_stored known stored
    exact ⟨List.isEmpty_iff.mpr clean, clean, sound⟩

/-- A unit that the parser rejects at the beginning. -/
def brokenUnit (path source : String) : SourceUnit where
  path := path
  source := source
  content := .rejected { message := "unmatched ')'", line := some 1, offset := some 1 }

/-- A program of two such units. -/
def brokenProgram : Snapshot :=
  ofUnits [brokenUnit "a.py" ")", brokenUnit "b.py" ")"]

/-- Edits of both units of a broken program that leave the errors where they are are accepted;
so is the edit that changes nothing. -/
theorem accepted_edits_add_no_errors_broken :
    ∃ last, Accepted {} brokenProgram [brokenUnit "b.py" ") + 1", brokenUnit "a.py" ")("] last ∧
      (∃ before after, brokenProgram.findings {} = .ok before ∧ before.length = 2 ∧
        last.findings {} = .ok after ∧ errorKeys after ⊆ errorKeys before) ∧
      (brokenProgram.validate {} none (brokenUnit "a.py" ")")).isValid = true := by
  let second := brokenUnit "b.py" ") + 1"
  let first := brokenUnit "a.py" ")("
  have valid : (brokenProgram.validate {} none second).isValid = true := by decide
  have validNext : ((brokenProgram.withUnit second).validate {} none first).isValid = true := by
    decide
  have searched : ∃ found, brokenProgram.findings {} = .ok found ∧ found.length = 2 := ⟨_, rfl, rfl⟩
  have accepted : Accepted {} brokenProgram [second, first] _ :=
    .edit valid (.edit validNext (.none _))
  obtain ⟨session, noop⟩ := accepted_edits_add_no_errors {}
  obtain ⟨after, knownAfter⟩ := (session accepted).1 (List.cons_ne_nil _ _)
  obtain ⟨before, knownBefore, fewer⟩ := (session accepted).2 after knownAfter
  obtain ⟨found, knownFound, two⟩ := searched
  cases knownFound.symm.trans knownBefore
  have stored : brokenProgram.get? "a.py" = some (brokenUnit "a.py" ")") := rfl
  exact ⟨_, accepted, ⟨before, after, knownBefore, two, knownAfter, fewer⟩,
    (noop brokenProgram before "a.py" (brokenUnit "a.py" ")") knownBefore stored).1⟩

end Snapshot

end SafeRefactor
