import SafeRefactor.Proofs.SafeDelete
import SafeRefactor.Proofs.Strategies

/-!
# The spans of fields

The columns of a tree count bytes, and the span of a field ends as many columns after its start as
its name has characters.  The two agree for a name that is written in as many bytes as it has
characters, and then the search knows the store that declares the field for its declaration.
Otherwise the field refers to itself.
-/

namespace SafeRefactor

private theorem length_le_utf8Len (chars : List Char) : chars.length ≤ String.utf8Len chars := by
  induction chars with
  | nil => exact Nat.le_refl 0
  | cons c rest induction =>
      have positive := c.utf8Size_pos
      rw [List.length_cons, String.utf8Len_cons]
      omega

/-- A text has as many bytes as characters just when it is plain. -/
theorem utf8ByteSize_eq_length_iff (text : String) :
    text.utf8ByteSize = text.length ↔ ∀ c ∈ text.toList, c.val ≤ 127 := by
  rw [← String.utf8Len_toList, ← String.length_toList]
  generalize text.toList = chars
  induction chars with
  | nil => simp
  | cons c rest induction =>
      have positive := c.utf8Size_pos
      have others := length_le_utf8Len rest
      rw [List.forall_mem_cons, ← induction, ← Char.utf8Size_eq_one_iff, List.length_cons,
        String.utf8Len_cons]
      omega

namespace Node

/-- Names stand on one line and take as many columns as the texts written for them have bytes. -/
def NamesSpanBytes (tree : Node) (written : Node → String) : Prop :=
  ∀ node ∈ tree.nodes, ∀ id ∈ node.identifier?,
    node.span = some ⟨node.start,
      ⟨node.start.line, node.start.column + (written node).utf8ByteSize⟩⟩

instance (tree : Node) (written : Node → String) : Decidable (tree.NamesSpanBytes written) :=
  inferInstanceAs (Decidable (∀ node ∈ tree.nodes, ∀ id ∈ node.identifier?, _))

/-- What an assignment to a target binds: the target, or what its parts bind if it is unpacked. -/
inductive Unpacks : Node → Node → Prop where
  | here (target : Node) : Unpacks target target
  | inside {target part store : Node} {context : Context} :
      target.form = .tuple context ∨ target.form = .list context ∨ target.form = .starred context →
      part ∈ target.children → Unpacks part store → Unpacks target store

theorem Unpacks.mem {target store : Node} (unpacks : target.Unpacks store) :
    store ∈ target.nodes := by
  induction unpacks with
  | here target => exact self_mem_nodes target
  | inside _ isPart _ induction => exact nodes_of_child isPart induction

/-- What a target binds is evaluated in the scope of the target. -/
theorem Unpacks.visited {tree target store : Node} {spot : Spot} (unpacks : target.Unpacks store)
    (visited : Spot.Visited tree spot target) :
    ∃ inner, Spot.Visited tree inner store ∧ inner.place.scope = spot.place.scope := by
  induction unpacks generalizing spot with
  | here target => exact ⟨spot, visited, rfl⟩
  | inside form isPart _ induction =>
      obtain ⟨inner, reached, scope⟩ := induction (visited.child isPart)
      refine ⟨inner, reached, scope.trans ?_⟩
      unfold Spot.toChild Spot.step
      rcases form with form | form | form <;> simp only [form] <;> rfl

/-- A construct spells a name: as a bare name or as that of an attribute. -/
def Spells (name : String) (node : Node) : Prop :=
  (∃ context, node.form = .name name context) ∨ node.NamesAttribute name

theorem namesAttribute_of_reflected {node literal : Node} {name : String}
    (reflected : Reference.reflected? node = some (name, literal)) : node.NamesAttribute name := by
  unfold Reference.reflected? at reflected
  split at reflected
  · next form =>
      split at reflected
      · next reflective =>
          obtain ⟨function, called, isReflective⟩ := (Option.any_eq_true ..).mp reflective
          obtain ⟨callee, isCallee, named⟩ := Option.bind_eq_some_iff.mp called
          obtain ⟨context, calleeForm⟩ := form_of_identifier named
          split at reflected
          · next first second rest arguments =>
              split at reflected
              · next text literalForm =>
                  obtain ⟨rfl, rfl⟩ := Prod.mk.inj (Option.some.inj reflected)
                  exact .reflection form isCallee calleeForm (List.contains_iff_mem.mp isReflective)
                    arguments literalForm
              · cases reflected
          · cases reflected
      · cases reflected
  · cases reflected

theorem namesAttribute_of_seen {node : Node} {name : String} {span : Span}
    (seen : Reference.attributeSpan? name node = some span) : node.NamesAttribute name := by
  unfold Reference.attributeSpan? at seen
  split at seen
  · next other context form =>
      split at seen
      · next same => exact .access (same ▸ form)
      · cases seen
  · split at seen
    · next other literal reflected =>
        split at seen
        · next same => exact namesAttribute_of_reflected (same ▸ reflected)
        · cases seen
    · cases seen

end Node

namespace Member

/-- The name that an assignment in the body of a class binds declares a field of the class. -/
structure AssignedBy (definition : Node) (member : Member) (store : Node) : Prop where
  isMember : member ∈ ofClass definition
  isStore : ∃ name, store.form = .name name .store
  assigned : ∃ statement ∈ definition.field .body,
    (statement.form = .assign ∨ ∃ hint, statement.form = .annAssign hint) ∧
      (∃ target ∈ statement.field .target, target.Unpacks store) ∧
      ∃ declaredType isStatic,
        member = ofName definition.className store declaredType isStatic statement

namespace AssignedBy

variable {definition store : Node} {member : Member}

theorem form (assigned : member.AssignedBy definition store) :
    store.form = .name member.name .store := by
  obtain ⟨name, form⟩ := assigned.isStore
  obtain ⟨_, _, _, _, _, _, rfl⟩ := assigned.assigned
  rw [ofName, Node.identifier?, form, Option.getD_some]

theorem className (assigned : member.AssignedBy definition store) :
    member.className = definition.className := by
  obtain ⟨_, _, _, _, _, _, rfl⟩ := assigned.assigned
  rfl

theorem kind (assigned : member.AssignedBy definition store) : member.kind = .field := by
  obtain ⟨_, _, _, _, _, _, rfl⟩ := assigned.assigned
  rfl

theorem span (assigned : member.AssignedBy definition store) :
    member.span = ⟨store.start,
      ⟨store.start.line, store.start.column + member.name.length⟩⟩ := by
  obtain ⟨_, _, _, _, _, _, rfl⟩ := assigned.assigned
  rfl

theorem mem (assigned : member.AssignedBy definition store) : store ∈ definition.nodes := by
  obtain ⟨statement, isStatement, _, ⟨target, isTarget, unpacks⟩, _⟩ := assigned.assigned
  apply Node.nodes_of_child (Node.mem_field.mp isStatement).1
  exact Node.nodes_of_child (Node.mem_field.mp isTarget).1 unpacks.mem

/-- The span of the field is that of the store if the written name has a byte for each character. -/
theorem span_iff {tree : Node} {written : Node → String}
    (assigned : member.AssignedBy definition store) (spans : tree.NamesSpanBytes written)
    (inside : store ∈ tree.nodes) :
    member.span = Reference.spanOf store ↔
      (written store).utf8ByteSize = member.name.length := by
  have identifier : member.name ∈ store.identifier? := by
    rw [Node.identifier?, assigned.form]
    rfl
  rw [assigned.span, Reference.spanOf, spans store inside member.name identifier, Option.getD_some]
  simp only [Span.mk.injEq, Position.mk.injEq, true_and]
  omega

theorem namesInBody {tree : Node} (assigned : member.AssignedBy definition store)
    (wellFormed : tree.WellFormed) (inside : definition ∈ tree.nodes)
    (isClass : definition.form = .classDef definition.className) :
    tree.NamesInBody member.className member.name store := by
  obtain ⟨statement, isStatement, form, ⟨target, isTarget, unpacks⟩, _⟩ := assigned.assigned
  obtain ⟨isPart, role⟩ := Node.mem_field.mp isStatement
  obtain ⟨outer, visited⟩ := Spot.Visited.exists_of_mem inside
  have targeted := (visited.child isPart).child (Node.mem_field.mp isTarget).1
  obtain ⟨spot, reached, scope⟩ := unpacks.visited targeted
  have placed : definition.id = spot.place.scope := by
    rw [scope]
    unfold Spot.toChild
    rw [role]
    unfold Spot.step
    rcases form with form | ⟨hint, form⟩ <;> simp only [isClass, form] <;> rfl
  refine ⟨definition, inside, ?_, ?_, ⟨_, assigned.form⟩, ?_⟩
  · rw [assigned.className]
    exact isClass
  · apply (Event.places_iff wellFormed reached ?_).mpr placed
    intro id hint
    rw [assigned.form]
    exact nofun
  · intro continues
    obtain ⟨_, _, _, _, _, _, _, _, _, _, _, _, _, read⟩ := continues
    rw [assigned.form] at read
    cases read

end AssignedBy

end Member

namespace Location

private theorem before_irrefl (location : Location) : location.before location = false := by
  simp [before, Span.before, Position.lt_iff]

end Location

namespace Reference

private theorem foldr_insertLocation_same {location : Location} {found : List Location}
    (same : ∀ other ∈ found, other = location) :
    (location :: found).foldr insertLocation [] = [location] := by
  have again : insertLocation location [location] = [location] := by
    rw [insertLocation, location.before_irrefl, if_neg Bool.false_ne_true, if_pos rfl]
  induction found with
  | nil => rfl
  | cons other rest induction =>
      obtain ⟨rfl, later⟩ := List.forall_mem_cons.mp same
      rw [List.foldr_cons, induction later, again]

/-- The search finds one location just when it finds nothing but the declaration. -/
theorem find_single_iff {snapshot : Snapshot} {member : Member} {path : String} :
    (∃ location, find snapshot member path = .ok [location]) ↔
      UnusedReport.isUnused snapshot path member = true := by
  rw [UnusedReport.isUnused_iff, ← inUnits_iff, find]
  cases inUnits member path snapshot.units with
  | error fault => simp
  | ok found =>
      simp only [Except.ok.injEq, exists_eq_left']
      constructor
      · intro isSingle other isFound
        obtain ⟨location, single⟩ := isSingle
        have only : ∀ candidate ∈ declaration member path :: found, candidate = location := by
          intro candidate listed
          apply List.mem_singleton.mp
          rw [← single]
          exact mem_foldr_insertLocation.mpr listed
        rw [only other (List.mem_cons_of_mem _ isFound), only _ List.mem_cons_self]
      · intro same
        exact ⟨_, foldr_insertLocation_same same⟩

end Reference

namespace Snapshot

/-- A construct of a unit is the only one of the program that spells a name. -/
def OnlySpelling (program : Snapshot) (unit : SourceUnit) (store : Node) (name : String) : Prop :=
  ∀ other ∈ program.units, ∀ tree fault, other.content = .parsed tree fault →
    ∀ node ∈ tree.nodes, node.Spells name → other = unit ∧ node = store

/-- Every text of the program can be read, and the tree at the path has a model. -/
def Searchable (program : Snapshot) (path : String) (tree : Node) : Prop :=
  (∀ unit ∈ program.units, ∀ kind reason, unit.content ≠ .unreadable kind reason) ∧
    ∃ model, Model.build path tree = .ok model

end Snapshot

namespace UnusedReport

section

variable {program : Snapshot} {unit : SourceUnit} {tree definition store : Node} {member : Member}
  {fault : Option ParseFault}

theorem isUnused_congr {path : String} {other : Member} (name : other.name = member.name)
    (className : other.className = member.className) (span : other.span = member.span) :
    isUnused program path other = isUnused program path member := by
  rw [Bool.eq_iff_iff, isUnused_iff, isUnused_iff]
  simp only [Reference.inUnit, Reference.declaration, name, className, span]

/-- No unit accesses an attribute of a name that only a store spells. -/
theorem attributeSpans_of_onlySpelling {name : String} {other : SourceUnit} {otherTree : Node}
    {otherFault : Option ParseFault} (form : store.form = .name name .store)
    (only : program.OnlySpelling unit store name) (isOther : other ∈ program.units)
    (content : other.content = .parsed otherTree otherFault) :
    Reference.attributeSpans otherTree name = [] := by
  apply List.eq_nil_iff_forall_not_mem.mpr
  intro span found
  obtain ⟨node, inside, seen⟩ := Reference.mem_attributeSpans.mp found
  have names := Node.namesAttribute_of_seen seen
  obtain ⟨_, rfl⟩ := only other isOther otherTree otherFault content node inside (Or.inr names)
  cases names with
  | access other | reflection other | pattern other =>
      rw [form] at other
      cases other

theorem spanOf_store_of_onlySpelling {model : Model} {className name : String} {span : Span}
    (content : unit.content = .parsed tree fault) (wellFormed : tree.WellFormed)
    (built : Model.build unit.path tree = .ok model) (isUnit : unit ∈ program.units)
    (only : program.OnlySpelling unit store name)
    (found : span ∈ Reference.classBodySpans model className name) :
    span = Reference.spanOf store := by
  obtain ⟨node, inTree, _, bare, rfl⟩ :=
    Reference.exists_name_of_classBodySpans wellFormed built found
  rw [(only unit isUnit tree fault content node inTree (Or.inl bare)).2]

section

variable (content : unit.content = .parsed tree fault) (wellFormed : tree.WellFormed)
  (inside : definition ∈ tree.nodes) (isClass : definition.form = .classDef definition.className)
  (assigned : member.AssignedBy definition store) (isUnit : unit ∈ program.units)
  (only : program.OnlySpelling unit store member.name)

include content wellFormed inside isClass assigned isUnit only

/-- The search finds nothing but the declaration if it takes the store for it. -/
theorem isUnused_iff_of_onlySpelling :
    isUnused program unit.path member = true ↔
      member.span = Reference.spanOf store ∧ program.Searchable unit.path tree := by
  have inTree : store ∈ tree.nodes := Node.nodes_trans assigned.mem inside
  rw [isUnused_iff]
  constructor
  · intro unused
    obtain ⟨here, searched, all⟩ := unused unit isUnit
    obtain ⟨model, built⟩ := Reference.exists_build_of_inUnit content searched
    have seen := (assigned.namesInBody wellFormed inside isClass).seen wellFormed built inTree
    rw [Reference.inUnit_here content built] at searched
    obtain rfl := Except.ok.inj searched
    have same := all _ (List.mem_map_of_mem (List.mem_append_right _ seen))
    refine ⟨(congrArg Location.span same).symm, ?_, model, built⟩
    intro other isOther kind reason unreadable
    obtain ⟨_, found, _⟩ := unused other isOther
    rw [Reference.inUnit, unreadable] at found
    cases found
  · intro answered other isOther
    obtain ⟨span, readable, model, built⟩ := answered
    cases otherContent : other.content with
    | unreadable kind reason => exact absurd otherContent (readable other isOther kind reason)
    | rejected refusal =>
        refine ⟨[], ?_, List.forall_mem_nil _⟩
        rw [Reference.inUnit, otherContent]
    | parsed otherTree otherFault =>
        have away := attributeSpans_of_onlySpelling assigned.form only isOther otherContent
        by_cases same : other.path = unit.path
        · obtain rfl := Snapshot.eq_of_mem_units isOther isUnit same
          obtain ⟨rfl, _⟩ := Content.parsed.inj (content.symm.trans otherContent)
          refine ⟨_, Reference.inUnit_here content built, ?_⟩
          rw [away, List.nil_append]
          intro location listed
          obtain ⟨found, isFound, rfl⟩ := List.mem_map.mp listed
          rw [spanOf_store_of_onlySpelling content wellFormed built isUnit only isFound, ← span]
          rfl
        · refine ⟨[], ?_, List.forall_mem_nil _⟩
          simp only [Reference.inUnit, otherContent, away, if_neg same, List.map_nil]

omit inside isClass in
theorem span_eq_of_onlySpelling {other : Member} (isListed : other ∈ listed tree)
    (isField : other.kind = .field) (name : other.name = member.name) :
    other.span = member.span := by
  obtain ⟨outer, isOuter, _, isMember⟩ := exists_class_of_listed isListed
  obtain ⟨_, node, inClass, declared⟩ := Member.exists_declaredBy wellFormed isOuter isMember
  have inTree : node ∈ tree.nodes := Node.nodes_trans inClass isOuter
  have isStore : node.Spells member.name → node = store := fun spells =>
    (only unit isUnit tree fault content node inTree spells).2
  have start : other.span.start = store.start := by
    cases declared with
    | function _ _ notField _ => exact absurd isField notField
    | inBody _ _ form _ place =>
        rw [name] at form
        rw [place, isStore (Or.inl ⟨_, form⟩)]
    | onReceiver _ _ _ form _ _ _ _ =>
        rw [name] at form
        obtain rfl := isStore (Or.inr (.access form))
        rw [assigned.form] at form
        cases form
  rw [assigned.span, ← start, ← name]
  rfl

theorem isReported_iff_of_onlySpelling {snapshot : Snapshot}
    (isProgram : program = snapshot.withUnit unit) (isPrivate : member.isPublic = false) :
    UnusedMember.ofMember unit.path member ∈ (symbolAware snapshot unit).members ↔
      isUnused program unit.path member = true ∧ listingFault? tree = none := by
  rw [members_symbolAware content, ← isProgram, List.mem_map]
  constructor
  · intro isReported
    obtain ⟨other, found, same⟩ := isReported
    obtain ⟨isListed, unused⟩ := List.mem_filter.mp found
    have name : other.name = member.name := congrArg UnusedMember.name same
    have className : other.className = member.className := congrArg UnusedMember.className same
    have isField : other.kind = .field := (congrArg UnusedMember.kind same).trans assigned.kind
    have span : other.span = member.span :=
      span_eq_of_onlySpelling content wellFormed assigned isUnit only isListed isField name
    rw [← isUnused_congr name className span, unused]
    exact ⟨rfl, (mem_listed_iff.mp isListed).1⟩
  · rintro ⟨unused, listable⟩
    have isCandidate : member ∈ candidates tree := by
      apply List.mem_flatMap.mpr
      refine ⟨definition, List.mem_filter.mpr ⟨Node.mem_walk.mpr inside, ?_⟩, ?_⟩
      · rw [isClass]
        rfl
      · exact List.mem_filter.mpr ⟨assigned.isMember, by rw [isPrivate]; rfl⟩
    have isListed := mem_listed_iff.mpr ⟨listable, isCandidate⟩
    exact ⟨member, List.mem_filter.mpr ⟨isListed, unused⟩, rfl⟩

end

end

/-- The field that an assignment in a class declares has the span of the name that it assigns to
just when the name is written in as many bytes as it has characters, so for a name that is written
as it is read, when the name is plain.  That decides whether a field that is mentioned nowhere else
is the one thing that the search finds, and whether it is reported, provided that the members of
the unit can be listed. -/
theorem field_is_its_declaration_iff (snapshot : Snapshot) (unit : SourceUnit) {tree : Node}
    {fault : Option ParseFault} (content : unit.content = .parsed tree fault)
    (wellFormed : tree.WellFormed) {written : Node → String} (spans : tree.NamesSpanBytes written)
    {definition store : Node} {member : Member} (inside : definition ∈ tree.nodes)
    (isClass : definition.form.isClass = true) (assigned : member.AssignedBy definition store) :
    (member.span = Reference.spanOf store ↔
        (written store).utf8ByteSize = member.name.length) ∧
      (written store = member.name →
        (member.span = Reference.spanOf store ↔ ∀ c ∈ member.name.toList, c.val ≤ 127)) ∧
      ((snapshot.withUnit unit).OnlySpelling unit store member.name →
        ((∃ location, Reference.find (snapshot.withUnit unit) member unit.path = .ok [location]) ↔
          member.span = Reference.spanOf store ∧
            (snapshot.withUnit unit).Searchable unit.path tree) ∧
        (member.isPublic = false →
          (UnusedMember.ofMember unit.path member ∈ (ofUnit (some snapshot) unit).members ↔
            member.span = Reference.spanOf store ∧
              (snapshot.withUnit unit).Searchable unit.path tree ∧
              listingFault? tree = none))) := by
  have inTree : store ∈ tree.nodes := Node.nodes_trans assigned.mem inside
  have bytes := assigned.span_iff spans inTree
  refine ⟨bytes, ?_, ?_⟩
  · intro same
    rw [bytes, same]
    exact utf8ByteSize_eq_length_iff member.name
  · intro only
    have isUnit := Snapshot.mem_withUnit snapshot unit
    have form := Node.form_of_isClass isClass
    have unused := isUnused_iff_of_onlySpelling content wellFormed inside form assigned isUnit only
    constructor
    · rw [Reference.find_single_iff]
      exact unused
    · intro isPrivate
      rw [← and_assoc, ← unused]
      exact isReported_iff_of_onlySpelling content wellFormed inside form assigned isUnit only rfl
        isPrivate

/-- A name in the body of a class, stored from the column 4 up to another. -/
def fieldName (name : String) (stop : Int) : Node :=
  .mk (.name name .store) ⟨3, .target, some ⟨⟨2, 4⟩, ⟨2, stop⟩⟩⟩ []

def fieldStatement (name : String) (stop : Int) : Node :=
  .mk .assign ⟨2, .body, some ⟨⟨2, 4⟩, ⟨2, stop + 4⟩⟩⟩ [
    fieldName name stop,
    .mk (.constant .int "1") ⟨4, .value, some ⟨⟨2, stop + 3⟩, ⟨2, stop + 4⟩⟩⟩ []]

/-- A class `C` with the assignment in its body. -/
def fieldClass (name : String) (stop : Int) : Node :=
  .mk (.classDef "C") ⟨1, .body, some ⟨⟨1, 0⟩, ⟨2, stop + 4⟩⟩⟩ [fieldStatement name stop]

def fieldModule (name : String) (stop : Int) : Node :=
  .mk .module ⟨0, .root, none⟩ [fieldClass name stop]

def fieldUnit (name : String) (stop : Int) : SourceUnit where
  path := "a.py"
  source := "class C:\n    " ++ name ++ " = 1\n"
  content := .parsed (fieldModule name stop) none

def fieldMember (name : String) (stop : Int) : Member :=
  .ofName "C" (fieldName name stop) (.text "int") false (fieldStatement name stop)

private theorem fieldMember_assigned (name : String) (stop : Int) :
    (fieldMember name stop).AssignedBy (fieldClass name stop) (fieldName name stop) where
  isMember := by
    have only : Member.ofClass (fieldClass name stop) = [fieldMember name stop] := rfl
    rw [only]
    exact List.mem_singleton_self _
  isStore := ⟨name, rfl⟩
  assigned := by
    refine ⟨_, List.mem_singleton_self _, Or.inl rfl, ⟨_, List.mem_singleton_self _, .here _⟩, ?_⟩
    exact ⟨.text "int", false, rfl⟩

private theorem fieldUnit_onlySpelling (name : String) (stop : Int) :
    ((Snapshot.ofUnits [fieldUnit name stop]).withUnit (fieldUnit name stop)).OnlySpelling
      (fieldUnit name stop) (fieldName name stop) name := by
  intro other isOther tree fault content node inside spells
  obtain rfl := Snapshot.eq_of_mem_single isOther
  obtain ⟨rfl, _⟩ := Content.parsed.inj content
  refine ⟨rfl, ?_⟩
  have others : node = fieldName name stop ∨ node.form = .module ∨ node.form = .classDef "C" ∨
      node.form = .assign ∨ node.form = .constant .int "1" := by
    simp only [fieldModule, fieldClass, fieldStatement, fieldName, Node.nodes, Node.nodesList,
      List.append_nil, List.cons_append, List.nil_append, List.mem_cons, List.not_mem_nil,
      or_false] at inside
    rcases inside with rfl | rfl | rfl | rfl | rfl <;> simp [Node.form, fieldName]
  rcases others with store | silent
  · exact store
  · rcases spells with ⟨context, form⟩ | names
    · simp [form] at silent
    · cases names with
      | access form | reflection form | pattern form => simp [form] at silent

private theorem fieldUnit_searchable {name : String} {stop : Int}
    (built : ∃ model, Model.build "a.py" (fieldModule name stop) = .ok model) :
    ((Snapshot.ofUnits [fieldUnit name stop]).withUnit (fieldUnit name stop)).Searchable
      "a.py" (fieldModule name stop) := by
  refine ⟨?_, built⟩
  intro other isOther kind reason unreadable
  obtain rfl := Snapshot.eq_of_mem_single isOther
  cases unreadable

/-- A plain name is found at its declaration alone, and its field is reported. -/
theorem field_is_its_declaration_iff_plain :
    let unit := fieldUnit "_x" 6
    let program := Snapshot.ofUnits [unit]
    let member := fieldMember "_x" 6
    member.span = Reference.spanOf (fieldName "_x" 6) ∧
      (∃ location, Reference.find (program.withUnit unit) member unit.path = .ok [location]) ∧
      UnusedMember.ofMember unit.path member ∈ (ofUnit (some program) unit).members := by
  intro unit program member
  have spans : (fieldModule "_x" 6).NamesSpanBytes (fun _ => "_x") := by decide
  have searchable : (program.withUnit unit).Searchable unit.path (fieldModule "_x" 6) := by
    apply fieldUnit_searchable
    apply exists_ok_iff.mpr
    decide +kernel
  obtain ⟨_, plain, found⟩ := field_is_its_declaration_iff program unit rfl
    ⟨by decide, by decide⟩ spans (List.mem_cons_of_mem _ (List.mem_cons_self)) rfl
    (fieldMember_assigned "_x" 6)
  have span : member.span = Reference.spanOf (fieldName "_x" 6) := by
    apply (plain rfl).mpr
    show ∀ c ∈ "_x".toList, c.val ≤ 127
    simp
  obtain ⟨single, reported⟩ := found (fieldUnit_onlySpelling "_x" 6)
  have listable : listingFault? (fieldModule "_x" 6) = none := by decide
  exact ⟨span, single.mpr ⟨span, searchable⟩,
    (reported (by decide)).mpr ⟨span, searchable, listable⟩⟩

/-- An accented letter has two bytes: the field is mentioned nowhere but in its declaration, which
refers to it all the same. -/
theorem accented_field_refers_to_itself :
    let unit := fieldUnit "_é" 7
    let program := Snapshot.ofUnits [unit]
    let member := fieldMember "_é" 7
    ((fieldModule "_é" 7).WellFormed ∧ (fieldModule "_é" 7).NamesSpanBytes (fun _ => "_é") ∧
        member.AssignedBy (fieldClass "_é" 7) (fieldName "_é" 7) ∧
        (program.withUnit unit).OnlySpelling unit (fieldName "_é" 7) member.name ∧
        (program.withUnit unit).Searchable unit.path (fieldModule "_é" 7) ∧
        listingFault? (fieldModule "_é" 7) = none ∧ member.isPublic = false) ∧
      member.span ≠ Reference.spanOf (fieldName "_é" 7) ∧
      (¬ ∃ location, Reference.find (program.withUnit unit) member unit.path = .ok [location]) ∧
      UnusedMember.ofMember unit.path member ∉ (ofUnit (some program) unit).members := by
  intro unit program member
  have wellFormed : (fieldModule "_é" 7).WellFormed := ⟨by decide, by decide⟩
  have isClass : fieldClass "_é" 7 ∈ (fieldModule "_é" 7).nodes :=
    List.mem_cons_of_mem _ List.mem_cons_self
  have assigned := fieldMember_assigned "_é" 7
  have only := fieldUnit_onlySpelling "_é" 7
  have searchable : (program.withUnit unit).Searchable unit.path (fieldModule "_é" 7) := by
    apply fieldUnit_searchable
    apply exists_ok_iff.mpr
    decide +kernel
  have different : member.span ≠ Reference.spanOf (fieldName "_é" 7) := by decide
  have isUnit := Snapshot.mem_withUnit program unit
  have used : ¬ isUnused (program.withUnit unit) unit.path member = true := by
    rw [isUnused_iff_of_onlySpelling rfl wellFormed isClass rfl assigned isUnit only]
    exact fun unused => different unused.1
  refine ⟨⟨wellFormed, by decide, assigned, only, searchable, by decide, by decide⟩,
    different, ?_, ?_⟩
  · rw [Reference.find_single_iff]
    exact used
  · exact fun reported => used
      ((isReported_iff_of_onlySpelling rfl wellFormed isClass rfl assigned isUnit only rfl
        (by decide)).mp reported).1

end UnusedReport

end SafeRefactor
