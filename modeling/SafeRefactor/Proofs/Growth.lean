import Mathlib
import SafeRefactor.Proofs.Recording
import SafeRefactor.Proofs.UnusedSearch

/-!
# Larger programs

A unit that is added to a program is one more place to search.  It takes back the findings
whose names it accesses and leaves the others, so what is reported for a larger program was
reported before.  A text that cannot be read might access anything, and with one in the
program nothing is reported.
-/

namespace SafeRefactor

/-- The text of a unit was read, and it accesses no attribute of the given name. -/
def SourceUnit.leavesAlone (unit : SourceUnit) (name : String) : Bool :=
  match unit.content with
  | .parsed tree _ => (Reference.attributeSpans tree name).isEmpty
  | .rejected _ => true
  | .unreadable _ _ => false

namespace Snapshot

theorem mem_units_withUnit {snapshot : Snapshot} {unit other : SourceUnit} :
    other ∈ (snapshot.withUnit unit).units ↔
      other = unit ∨ other.path ≠ unit.path ∧ other ∈ snapshot.units := by
  have stored : (snapshot.withUnit unit).get? other.path =
      if unit.path = other.path then some unit else snapshot.get? other.path :=
    Table.get?_insert snapshot.table unit.path other.path unit
  rw [mem_units, mem_units, stored]
  by_cases same : unit.path = other.path
  · rw [if_pos same, Option.some.injEq]
    constructor
    · intro equal
      exact Or.inl equal.symm
    · intro either
      exact (either.resolve_right fun later => later.1 same.symm).symm
  · rw [if_neg same]
    constructor
    · intro found
      exact Or.inr ⟨fun equal => same equal.symm, found⟩
    · intro either
      have different : other ≠ unit := fun equal => same (congrArg SourceUnit.path equal).symm
      exact (either.resolve_left different).2

/-- A unit at a new path is the one unit by which the searched programs differ. -/
theorem mem_units_larger {snapshot : Snapshot} {unit further other : SourceUnit}
    (isNew : snapshot.contains further.path = false) (apart : further.path ≠ unit.path) :
    other ∈ ((snapshot.withUnit further).withUnit unit).units ↔
      other = further ∨ other ∈ (snapshot.withUnit unit).units := by
  have absent : ∀ old ∈ snapshot.units, old.path ≠ further.path := by
    intro old member same
    have isThere : snapshot.contains old.path = true := Option.isSome_of_mem (mem_units.mp member)
    rw [same, isNew] at isThere
    cases isThere
  rw [mem_units_withUnit, mem_units_withUnit, mem_units_withUnit]
  constructor
  · intro either
    rcases either with own | ⟨different, added | ⟨_, old⟩⟩
    · exact Or.inr (Or.inl own)
    · exact Or.inl added
    · exact Or.inr (Or.inr ⟨different, old⟩)
  · intro either
    rcases either with rfl | own | ⟨different, old⟩
    · exact Or.inr ⟨apart, Or.inl rfl⟩
    · exact Or.inl own
    · exact Or.inr ⟨different, Or.inr ⟨absent other old, old⟩⟩

end Snapshot

namespace UnusedReport

/-- In a unit that does not declare the member, the search is content with no access at all. -/
theorem inUnit_elsewhere {member : Member} {path : String} {further : SourceUnit}
    (apart : further.path ≠ path) :
    (∃ here, Reference.inUnit member path further = .ok here ∧
        ∀ location ∈ here, location = Reference.declaration member path) ↔
      further.leavesAlone member.name = true := by
  unfold Reference.inUnit SourceUnit.leavesAlone
  cases further.content with
  | unreadable kind reason => simp
  | rejected fault => simp
  | parsed tree fault =>
      simp only [if_neg apart, Except.ok.injEq, exists_eq_left', List.forall_mem_map,
        List.isEmpty_iff, List.eq_nil_iff_forall_not_mem]
      apply forall_congr'
      intro span
      apply imp_congr_right
      intro _
      constructor
      · intro same
        exact apart (congrArg Location.path same)
      · exact False.elim

section

variable {snapshot : Snapshot} {unit : SourceUnit}

/-- The search in the larger program is the search in the smaller one and in the new unit. -/
theorem isUnused_larger {further : SourceUnit} (isNew : snapshot.contains further.path = false)
    (apart : further.path ≠ unit.path) (member : Member) :
    isUnused ((snapshot.withUnit further).withUnit unit) unit.path member =
      (isUnused (snapshot.withUnit unit) unit.path member && further.leavesAlone member.name) := by
  rw [Bool.eq_iff_iff, Bool.and_eq_true, isUnused_iff, isUnused_iff, ← inUnit_elsewhere apart]
  simp only [Snapshot.mem_units_larger isNew apart, forall_eq_or_imp]
  exact and_comm

theorem members_of_unparsed (unparsed : ∀ tree fault, unit.content ≠ .parsed tree fault) :
    (symbolAware snapshot unit).members = [] := by
  rw [symbolAware]
  cases content : unit.content with
  | parsed tree fault => exact absurd content (unparsed tree fault)
  | rejected | unreadable => rfl

/-- A further unit takes back the findings whose names it accesses, and no others. -/
theorem members_larger {further : SourceUnit} (isNew : snapshot.contains further.path = false)
    (apart : further.path ≠ unit.path) :
    (symbolAware (snapshot.withUnit further) unit).members =
      (symbolAware snapshot unit).members.filter
        (fun reported => further.leavesAlone reported.name) := by
  cases content : unit.content with
  | parsed tree fault =>
      rw [members_symbolAware content, members_symbolAware content, List.filter_map,
        List.filter_filter]
      apply congrArg
      apply List.filter_congr
      intro member _
      rw [isUnused_larger isNew apart, Bool.and_comm]
      rfl
  | rejected | unreadable =>
      have unparsed : ∀ tree fault, unit.content ≠ .parsed tree fault := by
        intro tree fault parsed
        rw [content] at parsed
        cases parsed
      rw [members_of_unparsed unparsed, members_of_unparsed unparsed]
      rfl

/-- With a text in the program that cannot be read, no search comes to an end. -/
theorem members_of_unreadable {other : SourceUnit} (member : other ∈ (snapshot.withUnit unit).units)
    {kind reason : String} (content : other.content = .unreadable kind reason) :
    (symbolAware snapshot unit).members = [] := by
  cases own : unit.content with
  | parsed tree fault =>
      rw [members_symbolAware own, List.map_eq_nil_iff, List.filter_eq_nil_iff]
      intro declared _ unused
      obtain ⟨here, searched, _⟩ := isUnused_iff.mp unused other member
      rw [Reference.inUnit, content] at searched
      cases searched
  | rejected | unreadable =>
      apply members_of_unparsed
      intro tree fault parsed
      rw [own] at parsed
      cases parsed

end

/-- The members that are reported for a program with a further unit are among those that are
reported without it, in the same order; and with a text that cannot be read in the searched program
no member is reported. -/
theorem larger_program_reports_fewer (snapshot : Snapshot) (unit : SourceUnit) :
    (∀ further : SourceUnit, snapshot.contains further.path = false → further.path ≠ unit.path →
      (ofUnit (some (snapshot.withUnit further)) unit).members.Sublist
        (ofUnit (some snapshot) unit).members) ∧
    ((∃ other ∈ (snapshot.withUnit unit).units,
        ∃ kind reason, other.content = .unreadable kind reason) →
      (ofUnit (some snapshot) unit).members = []) := by
  constructor
  · intro further isNew apart
    rw [ofUnit, ofUnit, members_larger isNew apart]
    exact List.filter_sublist
  · intro hasUnreadable
    obtain ⟨other, member, kind, reason, content⟩ := hasUnreadable
    exact members_of_unreadable member content

/-- A module that accesses the private field of another module. -/
def accessingUnit (path : String) : SourceUnit where
  path := path
  source := "print(c._x)\n"
  content := .parsed
    (.mk .module ⟨0, .root, none⟩ [
      .mk .exprStmt ⟨1, .body, some ⟨⟨1, 0⟩, ⟨1, 11⟩⟩⟩ [
        .mk .call ⟨2, .value, some ⟨⟨1, 0⟩, ⟨1, 11⟩⟩⟩ [
          .mk (.name "print" .load) ⟨3, .callee, some ⟨⟨1, 0⟩, ⟨1, 5⟩⟩⟩ [],
          .mk (.attribute "_x" .load) ⟨4, .argument, some ⟨⟨1, 6⟩, ⟨1, 10⟩⟩⟩ [
            .mk (.name "c" .load) ⟨5, .value, some ⟨⟨1, 6⟩, ⟨1, 7⟩⟩⟩ []]]]]) none

/-- A module whose text has a character that no parser takes. -/
def nullUnit (path : String) : SourceUnit where
  path := path
  source := "\x00"
  content := .unreadable "ValueError" "source code string cannot contain null bytes"

theorem larger_program_reports_fewer_access :
    let unit := privateFieldUnit "a.py" "class C:\n    _x = 1\n" none []
    let program := Snapshot.ofUnits [unit]
    (ofUnit (some program) unit).members = [⟨"_x", .field, "C", "a.py", 2⟩] ∧
      (ofUnit (some (program.withUnit (accessingUnit "b.py"))) unit).members.Sublist
        (ofUnit (some program) unit).members ∧
      (ofUnit (some (program.withUnit (nullUnit "c.py"))) unit).members = [] := by
  intro unit program
  refine ⟨?_, ?_, ?_⟩
  · apply of_decide_eq_true
    cbv
  · exact (larger_program_reports_fewer program unit).1 (accessingUnit "b.py") (by decide)
      (by decide)
  · apply (larger_program_reports_fewer (program.withUnit (nullUnit "c.py")) unit).2
    refine ⟨nullUnit "c.py", ?_, "ValueError", _, rfl⟩
    exact Snapshot.mem_units.mpr rfl

end UnusedReport

end SafeRefactor
