import SafeRefactor.Proofs.ScopeTree
import SafeRefactor.Proofs.UnusedSearch

/-!
# The two strategies for unused members

For a single file the mentions of a name are counted, and of a field the store that
declares it may be the one mention.  Whatever the search finds in the file is a mention, so
a member that passes the count passes the search as well, provided that the file has a
model.  A file without one lets the search fail for every member.
-/

namespace SafeRefactor

private theorem eq_of_countP_le_one {α : Type} {test : α → Bool} {items : List α}
    (once : items.countP test ≤ 1) {first second : α} (left : first ∈ items)
    (right : second ∈ items) (isFirst : test first = true) (isSecond : test second = true) :
    first = second := by
  have leftKept := List.mem_filter.mpr ⟨left, isFirst⟩
  have rightKept := List.mem_filter.mpr ⟨right, isSecond⟩
  rw [List.countP_eq_length_filter] at once
  generalize items.filter test = kept at once leftKept rightKept
  match kept with
  | [] => cases leftKept
  | [only] => rw [List.mem_singleton.mp leftKept, List.mem_singleton.mp rightKept]
  | _ :: _ :: _ =>
      simp only [List.length_cons] at once
      omega

private theorem filter_sublist_filter {α : Type} {first second : α → Bool} {items : List α}
    (weaker : ∀ item ∈ items, first item = true → second item = true) :
    (items.filter first).Sublist (items.filter second) := by
  have both : items.filter first = (items.filter second).filter first := by
    rw [List.filter_filter]
    apply List.filter_congr
    intro item member
    cases holds : first item with
    | false => rfl
    | true => rw [weaker item member holds, Bool.and_self]
  rw [both]
  exact List.filter_sublist

/-- Names are written on one line in as many columns as they have characters. -/
def Node.NamesSpanLength (tree : Node) : Prop :=
  ∀ node ∈ tree.nodes, ∀ id ∈ node.identifier?,
    node.span = some ⟨node.start, ⟨node.start.line, node.start.column + id.length⟩⟩

instance (tree : Node) : Decidable tree.NamesSpanLength :=
  inferInstanceAs (Decidable (∀ node ∈ tree.nodes, ∀ id ∈ node.identifier?, _))

theorem Reference.exists_name_of_classBodySpans {path className name : String} {tree : Node}
    {model : Model} {span : Span} (wellFormed : tree.WellFormed)
    (built : Model.build path tree = .ok model)
    (found : span ∈ classBodySpans model className name) :
    ∃ node ∈ tree.nodes, node.id ∉ accessorNames tree ∧
      (∃ context, node.form = .name name context) ∧ spanOf node = span := by
  obtain ⟨scope, isScope, _, node, below, ⟨free, named, _⟩, isSpan⟩ := mem_classBodySpans.mp found
  have settles := Model.settles_of_build built
  have inside : node ∈ tree.nodes :=
    Node.nodes_trans below (Model.opens_of_mem settles wellFormed isScope).1
  rw [settles.source] at free
  exact ⟨node, inside, free, form_of_isNamed named, isSpan⟩

namespace UnusedReport

section

variable {tree node store definition : Node} {member : Member}

/-- Whatever the search takes for an attribute of the name is a mention of it. -/
theorem mentioned_of_attributeSpan {accessors : List NodeId} {name : String} {span : Span}
    (found : Reference.attributeSpan? name node = some span) :
    mentioned? accessors node = some name := by
  unfold Reference.attributeSpan? at found
  unfold mentioned?
  split at found
  · next other context form =>
      split at found
      · next same =>
          rw [form]
          exact congrArg some same
      · cases found
  · next other =>
      split at found
      · next text literal reflected =>
          split at found
          · next same =>
              split
              · next form =>
                  rw [Reference.reflected?, form] at reflected
                  cases reflected
              · next form => exact absurd form (other _ _)
              · rw [reflected, Option.map_some]
                exact congrArg some same
          · cases found
      · cases found

theorem mentioned_of_name {accessors : List NodeId} {name : String} {context : Context}
    (form : node.form = .name name context) (free : node.id ∉ accessors) :
    mentioned? accessors node = some name := by
  rw [mentioned?, form]
  simp [free]

theorem mentioned_of_declaredBy (wellFormed : tree.WellFormed) (inside : store ∈ tree.nodes)
    (declared : member.DeclaredBy definition store) (isField : member.kind = .field) :
    mentioned? (Reference.accessorNames tree) store = some member.name := by
  cases declared with
  | function _ _ other _ => exact absurd isField other
  | inBody _ _ form _ _ =>
      apply mentioned_of_name form
      intro listed
      -- A name in a decorator is read, not stored.
      obtain ⟨_, _, _, _, _, _, _, _, _, _, _, _, _, read⟩ :=
        Reference.mem_accessorNames wellFormed inside listed
      rw [form] at read
      cases read
  | onReceiver _ _ _ form _ _ _ _ => rw [mentioned?, form]

/-- Only the store that declares a member mentions it if the count finds it unused. -/
theorem eq_store_of_mentioned (wellFormed : tree.WellFormed)
    (isStore : store ∈ tree.nodes) (declared : member.DeclaredBy definition store)
    (unmentioned : isUnmentioned tree member = true) (inside : node ∈ tree.nodes)
    (mentioned : mentioned? (Reference.accessorNames tree) node = some member.name) :
    member.kind = .field ∧ node = store := by
  rw [isUnmentioned, decide_eq_true_eq, mentions] at unmentioned
  have walked := Node.mem_walk.mpr inside
  have isMention : decide (mentioned? (Reference.accessorNames tree) node = some member.name) =
      true := by simpa using mentioned
  split at unmentioned
  · next isField =>
      refine ⟨isField, ?_⟩
      apply eq_of_countP_le_one unmentioned walked (Node.mem_walk.mpr isStore) isMention
      simpa using mentioned_of_declaredBy wellFormed isStore declared isField
  · have none := List.countP_eq_zero.mp (Nat.le_zero.mp unmentioned) node walked
    exact absurd isMention none

/-- A member that passes the count passes the search of its file. -/
theorem isUnused_of_isUnmentioned {unit : SourceUnit} {fault : Option ParseFault} {model : Model}
    (content : unit.content = .parsed tree fault) (wellFormed : tree.WellFormed)
    (lengths : tree.NamesSpanLength) (built : Model.build unit.path tree = .ok model)
    (isListed : member ∈ listed tree) (unmentioned : isUnmentioned tree member = true) :
    isUnused ((Snapshot.ofUnits [unit]).withUnit unit) unit.path member = true := by
  obtain ⟨definition, isDefinition, _, isMember⟩ := exists_class_of_listed isListed
  obtain ⟨_, store, inClass, declared⟩ := Member.exists_declaredBy wellFormed isDefinition isMember
  have isStore : store ∈ tree.nodes := Node.nodes_trans inClass isDefinition
  rw [isUnused_iff]
  intro other isOther
  obtain rfl := Snapshot.eq_of_mem_single isOther
  refine ⟨_, Reference.inUnit_here content built, ?_⟩
  intro location listed
  obtain ⟨span, found, rfl⟩ := List.mem_map.mp listed
  apply congrArg (Location.mk other.path)
  rcases List.mem_append.mp found with access | bare
  · obtain ⟨node, inside, seen⟩ := Reference.mem_attributeSpans.mp access
    obtain ⟨isField, rfl⟩ := eq_store_of_mentioned wellFormed isStore declared unmentioned inside
      (mentioned_of_attributeSpan seen)
    unfold Reference.attributeSpan? at seen
    cases declared with
    | function _ _ other _ => exact absurd isField other
    | inBody _ _ form _ _ =>
        rw [form] at seen
        simp only [Reference.reflected?, form] at seen
        cases seen
    | onReceiver _ _ _ form _ _ _ place =>
        rw [form] at seen
        simp only [if_true, Option.some.injEq] at seen
        rw [← seen, Node.attributeNameSpan_eq, ← place]
        rfl
  · obtain ⟨node, inside, free, ⟨context, form⟩, rfl⟩ :=
      Reference.exists_name_of_classBodySpans wellFormed built bare
    obtain ⟨isField, rfl⟩ := eq_store_of_mentioned wellFormed isStore declared unmentioned inside
      (mentioned_of_name form free)
    cases declared with
    | function _ _ other _ => exact absurd isField other
    | inBody _ _ _ _ place =>
        have identifier : member.name ∈ node.identifier? := by
          rw [Node.identifier?, form]
          rfl
        rw [Reference.spanOf, lengths node inside member.name identifier, Option.getD_some, ← place]
        rfl
    | onReceiver _ _ _ access _ _ _ _ =>
        rw [form] at access
        cases access

end

theorem members_eq_nil {unit : SourceUnit} {tree : Node} {fault : Option ParseFault}
    (content : unit.content = .parsed tree fault)
    (fails : ¬ ∃ model, Model.build unit.path tree = .ok model) :
    (ofUnit (some (.ofUnits [unit])) unit).members = [] := by
  rw [ofUnit, members_symbolAware content, List.map_eq_nil_iff, List.filter_eq_nil_iff]
  intro member _ unused
  obtain ⟨here, found, _⟩ := isUnused_iff.mp unused unit (Snapshot.mem_withUnit _ unit)
  exact fails (Reference.exists_build_of_inUnit content found)

/-- The search confirms whatever the count reports in a file, in the same order, just when the file
has a model or the count reports nothing. -/
theorem syntactic_sublist_iff (unit : SourceUnit) {tree : Node} {fault : Option ParseFault}
    (content : unit.content = .parsed tree fault) (wellFormed : tree.WellFormed)
    (lengths : tree.NamesSpanLength) :
    (ofUnit none unit).members.Sublist (ofUnit (some (.ofUnits [unit])) unit).members ↔
      (∃ model, Model.build unit.path tree = .ok model) ∨ (ofUnit none unit).members = [] := by
  have counted : (ofUnit none unit).members =
      ((listed tree).filter (isUnmentioned tree)).map (UnusedMember.ofMember unit.path) :=
    members_syntactic content
  have searched : (ofUnit (some (.ofUnits [unit])) unit).members =
      ((listed tree).filter (isUnused ((Snapshot.ofUnits [unit]).withUnit unit) unit.path)).map
        (UnusedMember.ofMember unit.path) :=
    members_symbolAware content
  by_cases isBuilt : ∃ model, Model.build unit.path tree = .ok model
  · obtain ⟨model, built⟩ := isBuilt
    refine ⟨fun _ => Or.inl ⟨model, built⟩, fun _ => ?_⟩
    rw [counted, searched]
    apply List.Sublist.map
    apply filter_sublist_filter
    intro member isListed
    exact isUnused_of_isUnmentioned content wellFormed lengths built isListed
  · rw [members_eq_nil content isBuilt, List.sublist_nil]
    exact ⟨Or.inr, fun either => either.resolve_left isBuilt⟩

theorem syntactic_sublist_field :
    let unit := privateFieldUnit "a.py" "class C:\n    _x = 1\n" none []
    (ofUnit none unit).members.Sublist (ofUnit (some (.ofUnits [unit])) unit).members := by
  intro unit
  apply (syntactic_sublist_iff unit rfl ⟨by decide, by decide⟩ (by decide)).mpr
  left
  apply exists_ok_iff.mpr
  decide +kernel

/-- A module with a class and with a function that declares its parameter global. -/
def withdrawnUnit : SourceUnit :=
  privateFieldUnit "a.py" "class C:\n    _x = 1\n\n\ndef f(row):\n    global row\n"
    (some { message := "name 'row' is parameter and global", line := some 6, offset := some 5 }) [
    .mk (.functionDef false "f" none) ⟨5, .body, some ⟨⟨5, 0⟩, ⟨6, 14⟩⟩⟩ [
      .mk (.parameters []) ⟨6, .parameters, none⟩ [
        .mk (.parameter "row" none) ⟨7, .positional, some ⟨⟨5, 6⟩, ⟨5, 9⟩⟩⟩ []],
      .mk (.globalStmt ["row"]) ⟨8, .body, some ⟨⟨6, 4⟩, ⟨6, 14⟩⟩⟩ []]]

/-- The count reports the field, and the search withdraws it. -/
theorem syntactic_finding_withdrawn :
    (∃ tree fault, withdrawnUnit.content = .parsed tree fault ∧ tree.WellFormed ∧
        tree.NamesSpanLength) ∧
      ¬ (ofUnit none withdrawnUnit).members.Sublist
        (ofUnit (some (.ofUnits [withdrawnUnit])) withdrawnUnit).members := by
  refine ⟨⟨_, _, rfl, ⟨by decide, by decide⟩, by decide⟩, ?_⟩
  have counted : (ofUnit none withdrawnUnit).members = [⟨"_x", .field, "C", "a.py", 2⟩] := by
    decide +kernel
  have searched : (ofUnit (some (.ofUnits [withdrawnUnit])) withdrawnUnit).members = [] := by
    apply members_eq_nil rfl
    rw [exists_ok_iff]
    decide +kernel
  rw [counted, searched]
  exact nofun

end UnusedReport

end SafeRefactor
