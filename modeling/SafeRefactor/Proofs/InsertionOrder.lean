import Mathlib.Data.List.Sort
import Mathlib.Data.String.Basic
import SafeRefactor.Proofs.Locality

/-!
# The order of insertion

Units are searched in the order of their paths, but of several units with one module
name the one whose path was inserted last stands for the module.  So the order in which
the units of a program were inserted decides nothing but which names such a module is
said not to have; when each module has one path, it decides nothing at all.
-/

namespace SafeRefactor

theorem Text.sortedNames_congr {first second : List String}
    (same : ∀ name, name ∈ first ↔ name ∈ second) : sortedNames first = sortedNames second := by
  apply List.Pairwise.eq_of_mem_iff (pairwise_sortedNames first) (pairwise_sortedNames second)
  intro name
  rw [mem_sortedNames, mem_sortedNames, same]

theorem Table.mem_keys {α : Type} {table : Table α} {key : String} :
    key ∈ table.keys ↔ table.contains key = true := by
  obtain ⟨entries⟩ := table
  unfold keys contains get?
  induction entries with
  | nil => simp [lookup]
  | cons entry rest induction =>
      obtain ⟨other, value⟩ := entry
      by_cases same : other = key
      · simp [lookup, same]
      · have different : key ≠ other := fun equal => same equal.symm
        simp only [List.map_cons, List.mem_cons, different, false_or, lookup, same, if_false]
        exact induction

namespace Snapshot

/-- The module name belongs to two paths of the program. -/
def Ambiguous (snapshot : Snapshot) (module : String) : Prop :=
  ∃ one other, one ≠ other ∧ snapshot.contains one = true ∧ snapshot.contains other = true ∧
    moduleName one = module ∧ moduleName other = module

private theorem distinct_foldl (units : List SourceUnit) {snapshot : Snapshot}
    (distinct : snapshot.table.Distinct) : (units.foldl withUnit snapshot).table.Distinct := by
  induction units generalizing snapshot with
  | nil => exact distinct
  | cons unit rest induction => exact induction (distinct.insert unit.path unit)

theorem distinct_ofUnits (units : List SourceUnit) : (ofUnits units).table.Distinct :=
  distinct_foldl units List.nodup_nil

private theorem get?_foldl {units : List SourceUnit} (apart : (units.map SourceUnit.path).Nodup)
    (snapshot : Snapshot) (path : String) (unit : SourceUnit) :
    (units.foldl withUnit snapshot).get? path = some unit ↔
      unit ∈ units ∧ unit.path = path ∨
        path ∉ units.map SourceUnit.path ∧ snapshot.get? path = some unit := by
  induction units generalizing snapshot with
  | nil => simp
  | cons first rest induction =>
      obtain ⟨only, others⟩ := List.nodup_cons.mp apart
      have stored : (snapshot.withUnit first).get? path =
          if first.path = path then some first else snapshot.get? path :=
        Table.get?_insert snapshot.table first.path path first
      rw [List.foldl_cons, induction others, stored]
      by_cases same : first.path = path
      · subst same
        have absent : ¬ (unit ∈ rest ∧ unit.path = first.path) := by
          rintro ⟨later, equal⟩
          exact only (List.mem_map.mpr ⟨unit, later, equal⟩)
        grind
      · grind

/-- Units at different paths give the same program in whatever order they are inserted. -/
theorem get?_of_perm {first second : List SourceUnit} (permuted : first.Perm second)
    (apart : (first.map SourceUnit.path).Nodup) (path : String) :
    (ofUnits first).get? path = (ofUnits second).get? path := by
  have apartToo : (second.map SourceUnit.path).Nodup := (permuted.map _).nodup_iff.mp apart
  apply Option.ext
  intro unit
  unfold ofUnits
  rw [get?_foldl apart, get?_foldl apartToo, permuted.mem_iff, (permuted.map _).mem_iff]

section

variable {snapshot : Snapshot} (distinct : snapshot.table.Distinct)

include distinct

theorem mem_values {unit : SourceUnit} :
    unit ∈ snapshot.table.values ↔ snapshot.get? unit.path = some unit := by
  constructor
  · intro member
    obtain ⟨⟨path, stored⟩, entry, rfl⟩ := List.mem_map.mp member
    have found := distinct.mem_entries.mp entry
    rw [snapshot.keyed found]
    exact found
  · intro found
    exact List.mem_map.mpr ⟨(unit.path, unit), distinct.mem_entries.mpr found, rfl⟩

theorem isSome_moduleUnit? {name : String} :
    (snapshot.moduleUnit? name).isSome = true ↔
      ∃ unit, snapshot.get? unit.path = some unit ∧ unit.moduleName = name := by
  unfold moduleUnit?
  rw [List.getLast?_isSome, ne_eq, List.filter_eq_nil_iff]
  simp [mem_values distinct]

private theorem stored_of_moduleUnit? {name : String} {unit : SourceUnit}
    (found : snapshot.moduleUnit? name = some unit) :
    snapshot.get? unit.path = some unit ∧ unit.moduleName = name := by
  obtain ⟨member, named⟩ := List.mem_filter.mp (List.mem_of_getLast? found)
  exact ⟨(mem_values distinct).mp member, of_decide_eq_true named⟩

theorem moduleUnit?_of_single {unit : SourceUnit}
    (single : ¬ snapshot.Ambiguous unit.moduleName)
    (stored : snapshot.get? unit.path = some unit) :
    snapshot.moduleUnit? unit.moduleName = some unit := by
  have isThere : (snapshot.moduleUnit? unit.moduleName).isSome = true :=
    (isSome_moduleUnit? distinct).mpr ⟨unit, stored, rfl⟩
  obtain ⟨other, found⟩ := Option.isSome_iff_exists.mp isThere
  obtain ⟨storedToo, named⟩ := stored_of_moduleUnit? distinct found
  have samePath : other.path = unit.path := by
    by_contra different
    exact single ⟨other.path, unit.path, different, Option.isSome_of_mem storedToo,
      Option.isSome_of_mem stored, named, rfl⟩
  rw [samePath, stored] at storedToo
  rw [found, Option.some.inj storedToo]

end

section

variable {first second : Snapshot} (same : ∀ path, first.get? path = second.get? path)

include same

private theorem contains_of_same (path : String) : first.contains path = second.contains path :=
  congrArg Option.isSome (same path)

theorem units_of_same : first.units = second.units := by
  have paths : first.paths = second.paths := by
    apply Text.sortedNames_congr
    intro path
    rw [Table.mem_keys, Table.mem_keys]
    exact Bool.eq_iff_iff.mp (contains_of_same same path)
  unfold units
  rw [paths]
  exact List.filterMap_congr fun path _ => same path

theorem agree_of_same (distinct : first.table.Distinct) (distinctToo : second.table.Distinct) :
    Agree first.Ambiguous first second where
  named := by
    intro name
    rw [Bool.eq_iff_iff, isSome_moduleUnit? distinct, isSome_moduleUnit? distinctToo]
    simp only [same]
  same := by
    intro name single
    have singleToo : ¬ second.Ambiguous name := by
      simpa only [Ambiguous, contains_of_same same] using single
    cases found : second.moduleUnit? name with
    | none =>
        have absent : ¬ (first.moduleUnit? name).isSome = true := by
          rw [isSome_moduleUnit? distinct]
          simp only [same]
          rw [← isSome_moduleUnit? distinctToo, found]
          exact Bool.false_ne_true
        exact Option.not_isSome_iff_eq_none.mp absent
    | some unit =>
        obtain ⟨stored, rfl⟩ := stored_of_moduleUnit? distinctToo found
        rw [← same] at stored
        exact moduleUnit?_of_single distinct single stored

end

/-- The findings of two programs of the same units, one unit after the other. -/
theorem sameBut_findings {differs : String → Prop} {first second : Snapshot} {settings : Settings}
    {before after : List Diagnostic} (agree : Agree differs first second)
    (units : first.units = second.units) (known : first.findings settings = .ok before)
    (knownToo : second.findings settings = .ok after) :
    Diagnostic.SameBut differs before after := by
  obtain ⟨parts, each, rfl⟩ := parts_of_findings known
  obtain ⟨partsToo, eachToo, rfl⟩ := parts_of_findings knownToo
  rw [← units] at eachToo
  clear known knownToo units
  generalize first.units = units at each eachToo
  induction each generalizing partsToo with
  | nil =>
      cases eachToo
      exact .refl _ _
  | cons isPart _ induction =>
      cases eachToo with
      | cons isPartToo others =>
          rw [List.flatten_cons, List.flatten_cons]
          exact (sameBut_unitDiagnostics agree isPart isPartToo).append (induction _ others)

/-- Programs made by storing units in whatever order, with the same unit at each path in the end:
what is found in one only is a name that a module of two paths does not have; when no module has two
paths, the findings are the same. -/
theorem findings_of_any_order (settings : Settings) (first second : List SourceUnit)
    (before after : List Diagnostic)
    (same : ∀ path, (ofUnits first).get? path = (ofUnits second).get? path)
    (known : (ofUnits first).findings settings = .ok before)
    (knownToo : (ofUnits second).findings settings = .ok after) :
    (∀ found, found ∈ before ∧ found ∉ after ∨ found ∈ after ∧ found ∉ before →
      found.code.label = "E0611" ∧
        ∃ name module, found.message = "No name '" ++ name ++ "' in module '" ++ module ++ "'" ∧
          ∃ one other, one ≠ other ∧ (ofUnits first).contains one = true ∧
            (ofUnits first).contains other = true ∧ moduleName one = module ∧
            moduleName other = module) ∧
    ((∀ one other, (ofUnits first).contains one = true → (ofUnits first).contains other = true →
      moduleName one = moduleName other → one = other) → before = after) := by
  have agree := agree_of_same same (distinct_ofUnits first) (distinct_ofUnits second)
  have alike := sameBut_findings agree (units_of_same same) known knownToo
  constructor
  · intro found onlyOne
    have blamed : ∃ module, (ofUnits first).Ambiguous module ∧ found.Blames module := by
      rcases onlyOne with ⟨inBefore, absent⟩ | ⟨inAfter, absent⟩
      · exact (alike.symm.mem inBefore).resolve_left absent
      · exact (alike.mem inAfter).resolve_left absent
    obtain ⟨module, ambiguous, code, name, message⟩ := blamed
    refine ⟨?_, name, module, message, ambiguous⟩
    rw [code]
    rfl
  · intro single
    have kept : before.filter (fun _ => true) = after.filter (fun _ => true) := by
      apply alike
      rintro found module ⟨one, other, different, isOne, isOther, named, namedToo⟩
      exact absurd (single one other isOne isOther (named.trans namedToo.symm)) different
    simpa using kept

/-- Two files that are known under one module name, and a unit that imports from the module. -/
def sharedModule : List SourceUnit :=
  [assigningUnit "m.py" "x", assigningUnit "m/__init__.py" "y", importingUnit "b.py" "m" "x"]

/-- The settings that report errors only. -/
def errorsOnly : Settings :=
  { reportUnusedVariables := false, reportUnusedImports := false }

/-- Whether the name `x` is found missing from the module of two files depends on their order. -/
theorem findings_of_any_order_shared :
    (∀ path, (ofUnits sharedModule).get? path = (ofUnits sharedModule.reverse).get? path) ∧
      ∃ before after, (ofUnits sharedModule).findings errorsOnly = .ok before ∧
        (ofUnits sharedModule.reverse).findings errorsOnly = .ok after ∧
        ∃ found, found ∈ before ∧ found ∉ after ∧ found.code.label = "E0611" ∧
          ∃ name module, found.message = "No name '" ++ name ++ "' in module '" ++ module ++ "'" ∧
            ∃ one other, one ≠ other ∧ (ofUnits sharedModule).contains one = true ∧
              (ofUnits sharedModule).contains other = true ∧ moduleName one = module ∧
              moduleName other = module := by
  have same := get?_of_perm (List.reverse_perm sharedModule).symm (by decide)
  let missing : Diagnostic := ⟨.missingName, "No name 'x' in module 'm'", "b.py", 1, 14⟩
  have known : (ofUnits sharedModule).findings errorsOnly = .ok [missing] := by decide +kernel
  have knownToo : (ofUnits sharedModule.reverse).findings errorsOnly = .ok [] := by decide +kernel
  obtain ⟨differences, _⟩ :=
    findings_of_any_order errorsOnly sharedModule sharedModule.reverse [missing] [] same
      known knownToo
  have present : missing ∈ [missing] := List.mem_singleton_self missing
  have absent : missing ∉ ([] : List Diagnostic) := List.not_mem_nil
  exact ⟨same, [missing], [], known, knownToo, missing, present, absent,
    differences missing (Or.inl ⟨present, absent⟩)⟩

end Snapshot

end SafeRefactor
