import SafeRefactor.Proofs.Locality

/-!
# Settings leave out warnings

Settings choose which of the two kinds of warnings are reported.  They leave findings out
and change nothing else: what is found under some settings is what is found when both
kinds are reported, without the kinds that are switched off, in the same order.  Errors
are always reported, so no verdict depends on the settings but for its warnings.
-/

namespace SafeRefactor

namespace Settings

def reports (settings : Settings) : DiagnosticCode → Bool
  | .unusedVariable => settings.reportUnusedVariables
  | .unusedImport => settings.reportUnusedImports
  | .syntaxError | .undefinedName | .missingName => true

/-- The findings of the kinds that are reported. -/
def select (settings : Settings) (findings : List Diagnostic) : List Diagnostic :=
  findings.filter (fun found => settings.reports found.code)

/-- The settings that report both kinds of warnings. -/
def reportingAll (settings : Settings) : Settings :=
  { settings with reportUnusedVariables := true, reportUnusedImports := true }

private theorem reports_of_isError (settings : Settings) {code : DiagnosticCode}
    (isError : code.isError = true) : settings.reports code = true := by
  cases code with
  | syntaxError | undefinedName | missingName => rfl
  | unusedVariable | unusedImport => cases isError

private theorem select_append (settings : Settings) (front back : List Diagnostic) :
    settings.select (front ++ back) = settings.select front ++ settings.select back :=
  List.filter_append ..

theorem select_kind (settings : Settings) {findings : List Diagnostic} {code : DiagnosticCode}
    (kind : ∀ found ∈ findings, found.code = code) :
    settings.select findings = if settings.reports code then findings else [] := by
  unfold select
  cases reported : settings.reports code with
  | true =>
      apply List.filter_eq_self.mpr
      intro found member
      rw [kind found member, reported]
  | false =>
      apply List.filter_eq_nil_iff.mpr
      intro found member
      rw [kind found member, reported]
      exact Bool.false_ne_true

/-- Leaving warnings out before findings are sorted or afterwards gives the same list. -/
theorem select_mergeSort (settings : Settings) (findings : List Diagnostic) :
    settings.select (findings.mergeSort Diagnostic.notAfter) =
      (settings.select findings).mergeSort Diagnostic.notAfter :=
  filter_mergeSort Diagnostic.notAfter_trans Diagnostic.notAfter_total _ findings

end Settings

namespace Snapshot

section

variable (snapshot : Snapshot) (settings base : Settings)

theorem modelDiagnostics_select (model : Model) :
    snapshot.modelDiagnostics settings model =
      (snapshot.modelDiagnostics base.reportingAll model).map settings.select := by
  unfold modelDiagnostics
  cases missing : snapshot.missingNames model.path model.tree.walk with
  | error fault => rfl
  | ok lacking =>
      have undefined := settings.select_kind
        fun one (member : one ∈ model.undefinedNames) => (Model.mem_undefinedNames member).2
      have absent := settings.select_kind
        fun one (member : one ∈ lacking) => (mem_missingNames missing member).2
      have unread := settings.select_kind
        fun one (member : one ∈ model.unusedVariables) => (Model.mem_unusedVariables member).2
      have imported := settings.select_kind
        fun one (member : one ∈ model.unusedImports) => (Model.mem_unusedImports member).2
      simp only [Except.map, Settings.reportingAll, if_true, Settings.select_mergeSort,
        Settings.select_append, undefined, absent, unread, imported]
      rfl

theorem unitDiagnostics_select (unit : SourceUnit) :
    snapshot.unitDiagnostics settings unit =
      (snapshot.unitDiagnostics base.reportingAll unit).map settings.select := by
  unfold unitDiagnostics
  cases unit.content with
  | unreadable kind reason => rfl
  | rejected fault => rfl
  | parsed tree compileFault =>
      cases compileFault with
      | some fault => rfl
      | none =>
          simp only
          cases Model.build unit.path tree with
          | error fault => rfl
          | ok model => exact modelDiagnostics_select snapshot settings base model

/-- The search of a list of units asks its signal, fails and goes on as under other settings. -/
theorem diagnosticsOf_select (signal : CancelSignal) (units : List SourceUnit) :
    snapshot.diagnosticsOf settings signal units =
      (snapshot.diagnosticsOf base.reportingAll signal units).map
        (Prod.map settings.select id) := by
  induction units generalizing signal with
  | nil => rfl
  | cons unit rest induction =>
      unfold diagnosticsOf
      cases signal.poll with
      | none => rfl
      | some asked =>
          simp only [unitDiagnostics_select snapshot settings base unit, induction asked]
          cases snapshot.unitDiagnostics base.reportingAll unit with
          | error fault => rfl
          | ok found =>
              cases snapshot.diagnosticsOf base.reportingAll asked rest with
              | error fault => rfl
              | ok others => simp only [Except.map, Prod.map, id, Settings.select_append]

theorem diagnostics_select (signal : CancelSignal) :
    snapshot.diagnostics settings signal =
      (snapshot.diagnostics base.reportingAll signal).map (Prod.map settings.select id) :=
  diagnosticsOf_select snapshot settings base signal snapshot.units

theorem findings_select :
    snapshot.findings settings = (snapshot.findings base.reportingAll).map settings.select := by
  unfold findings
  rw [diagnostics_select snapshot settings base]
  cases snapshot.diagnostics base.reportingAll none with
  | error fault => rfl
  | ok result => rfl

end

end Snapshot

namespace Validation

theorem compare_select (settings : Settings) (before after : List Diagnostic) :
    (compare (settings.select before) (settings.select after)).errors =
        (compare before after).errors ∧
      (compare (settings.select before) (settings.select after)).failure =
        (compare before after).failure := by
  have errorsKept : ∀ (findings : List Diagnostic) (test : Diagnostic → Bool),
      (settings.select findings).filter (fun found => found.isError && test found) =
        findings.filter (fun found => found.isError && test found) := by
    intro findings test
    rw [Settings.select, List.filter_filter]
    apply List.filter_congr
    intro found _
    cases isError : found.isError with
    | false => rfl
    | true => rw [settings.reports_of_isError isError, Bool.and_true]
  have baseline : (settings.select before).filter Diagnostic.isError =
      before.filter Diagnostic.isError := by
    simpa using errorsKept before (fun _ => true)
  simp only [compare, baseline, errorsKept, and_self]

end Validation

namespace Snapshot

/-- A verdict has the errors and the failure that it has when all warnings are reported. -/
theorem validate_reportingAll (snapshot : Snapshot) (settings base : Settings)
    (signal : CancelSignal) (edit : SourceUnit) :
    (snapshot.validate settings signal edit).errors =
        (snapshot.validate base.reportingAll signal edit).errors ∧
      (snapshot.validate settings signal edit).failure =
        (snapshot.validate base.reportingAll signal edit).failure := by
  unfold validate
  split
  · rw [diagnostics_select snapshot settings base]
    cases snapshot.diagnostics base.reportingAll signal with
    | error fault => exact ⟨rfl, rfl⟩
    | ok first =>
        simp only [Except.map, Prod.map, id]
        rw [diagnostics_select (snapshot.withUnit edit) settings base]
        cases (snapshot.withUnit edit).diagnostics base.reportingAll first.2 with
        | error fault => exact ⟨rfl, rfl⟩
        | ok second => exact Validation.compare_select settings first.1 second.1
  · exact ⟨rfl, rfl⟩

/-- Settings leave out the warnings that are switched off and keep the order of the rest, so
verdicts under two settings have the same errors and the same failure. -/
theorem settings_filter_warnings (snapshot : Snapshot) (settings base : Settings) :
    snapshot.findings settings =
        (snapshot.findings
          { base with reportUnusedVariables := true, reportUnusedImports := true }).map
          (List.filter fun found =>
            (settings.reportUnusedVariables || found.code.label != "W0612") &&
              (settings.reportUnusedImports || found.code.label != "W0611")) ∧
      ∀ (other : Settings) (signal : CancelSignal) (edit : SourceUnit),
        (snapshot.validate settings signal edit).errors =
            (snapshot.validate other signal edit).errors ∧
          (snapshot.validate settings signal edit).failure =
            (snapshot.validate other signal edit).failure := by
  constructor
  · have labels : ∀ found : Diagnostic,
        ((settings.reportUnusedVariables || found.code.label != "W0612") &&
          (settings.reportUnusedImports || found.code.label != "W0611")) =
            settings.reports found.code := by
      intro found
      cases found.code <;> simp [DiagnosticCode.label, Settings.reports]
    simp only [labels]
    exact findings_select snapshot settings base
  · intro other signal edit
    obtain ⟨errors, failure⟩ := validate_reportingAll snapshot settings base signal edit
    obtain ⟨errorsToo, failureToo⟩ := validate_reportingAll snapshot other base signal edit
    exact ⟨errors.trans errorsToo.symm, failure.trans failureToo.symm⟩

end Snapshot

end SafeRefactor
