import SafeRefactor.Proofs.DeclaredMember

/-!
# The search for references

A member counts as unused when the search comes through every unit of the program and
finds nothing but the declaration.  What it finds are the attributes and reflective calls
of the name in every unit and, in the unit that declares the member, the bare names in the
bodies of classes of the right name.
-/

namespace SafeRefactor

namespace Snapshot

theorem mem_units {snapshot : Snapshot} {unit : SourceUnit} :
    unit ∈ snapshot.units ↔ snapshot.get? unit.path = some unit := by
  constructor
  · intro member
    obtain ⟨path, _, found⟩ := List.mem_filterMap.mp member
    rw [snapshot.keyed found]
    exact found
  · intro found
    have listed : unit.path ∈ snapshot.table.keys :=
      List.mem_map.mpr ⟨(unit.path, unit), Table.mem_of_lookup found, rfl⟩
    exact List.mem_filterMap.mpr ⟨unit.path, Text.mem_sortedNames.mpr listed, found⟩

theorem mem_withUnit (snapshot : Snapshot) (unit : SourceUnit) :
    unit ∈ (snapshot.withUnit unit).units :=
  mem_units.mpr (Table.get?_insert_self _ _ _)

theorem eq_of_mem_units {snapshot : Snapshot} {first second : SourceUnit}
    (isFirst : first ∈ snapshot.units) (isSecond : second ∈ snapshot.units)
    (same : first.path = second.path) : first = second := by
  have found := mem_units.mp isFirst
  rw [same, mem_units.mp isSecond] at found
  exact (Option.some.inj found).symm

theorem eq_of_mem_withUnit {snapshot : Snapshot} {unit other : SourceUnit}
    (member : other ∈ (snapshot.withUnit unit).units) (same : other.path = unit.path) :
    other = unit :=
  eq_of_mem_units member (mem_withUnit snapshot unit) same

theorem eq_of_mem_single {unit other : SourceUnit}
    (member : other ∈ ((ofUnits [unit]).withUnit unit).units) : other = unit := by
  apply eq_of_mem_withUnit member
  have found := mem_units.mp member
  by_contra different
  have away : unit.path ≠ other.path := fun same => different same.symm
  have absent : ((ofUnits [unit]).withUnit unit).get? other.path = none := by
    rw [get?, withUnit, Table.get?_insert_of_ne _ away, ofUnits, List.foldl_cons, List.foldl_nil,
      withUnit, Table.get?_insert_of_ne _ away]
    rfl
  rw [absent] at found
  cases found

end Snapshot

namespace Reference

theorem start_spanOf (node : Node) : (spanOf node).start = node.start := by
  unfold spanOf Node.start
  cases node.span with
  | none => rfl
  | some span => rfl

private theorem mem_insertLocation {location first : Location} {rest : List Location} :
    location ∈ insertLocation first rest ↔ location = first ∨ location ∈ rest := by
  induction rest with
  | nil => simp [insertLocation]
  | cons other rest induction =>
      unfold insertLocation
      split
      · exact List.mem_cons
      · split
        · next same => simp [same]
        · rw [List.mem_cons, List.mem_cons, induction]
          exact or_left_comm

theorem mem_foldr_insertLocation {location : Location} {found : List Location} :
    location ∈ found.foldr insertLocation [] ↔ location ∈ found := by
  induction found with
  | nil => rfl
  | cons first rest induction =>
      rw [List.foldr_cons, mem_insertLocation, induction, List.mem_cons]

theorem inUnits_iff {member : Member} {path : String} {units : List SourceUnit}
    {good : Location → Prop} :
    (∃ found, inUnits member path units = .ok found ∧ ∀ location ∈ found, good location) ↔
      ∀ unit ∈ units, ∃ here, inUnit member path unit = .ok here ∧
        ∀ location ∈ here, good location := by
  induction units with
  | nil => simp [inUnits]
  | cons unit rest induction =>
      rw [List.forall_mem_cons, ← induction]
      constructor
      · rintro ⟨found, searched, all⟩
        unfold inUnits at searched
        cases first : inUnit member path unit with
        | error fault =>
            rw [first] at searched
            cases searched
        | ok here =>
            cases later : inUnits member path rest with
            | error fault =>
                rw [first, later] at searched
                cases searched
            | ok others =>
                rw [first, later] at searched
                obtain rfl := Except.ok.inj searched
                rw [List.forall_mem_append] at all
                exact ⟨⟨here, rfl, all.1⟩, others, rfl, all.2⟩
      · rintro ⟨⟨here, first, own⟩, others, later, all⟩
        refine ⟨here ++ others, ?_, List.forall_mem_append.mpr ⟨own, all⟩⟩
        rw [inUnits, first, later]

section

variable {member : Member} {unit : SourceUnit} {tree : Node} {fault : Option ParseFault}
  (content : unit.content = .parsed tree fault)

include content

/-- What the search finds in the unit that declares the member. -/
theorem inUnit_here {model : Model} (built : Model.build unit.path tree = .ok model) :
    inUnit member unit.path unit =
      .ok ((attributeSpans tree member.name ++
        classBodySpans model member.className member.name).map (Location.mk unit.path)) := by
  simp only [inUnit, content, if_true, built]

theorem exists_build_of_inUnit {here : List Location}
    (searched : inUnit member unit.path unit = .ok here) :
    ∃ model, Model.build unit.path tree = .ok model := by
  simp only [inUnit, content, if_true] at searched
  cases built : Model.build unit.path tree with
  | error other =>
      rw [built] at searched
      cases searched
  | ok model => exact ⟨model, rfl⟩

/-- The attributes and reflective calls of the name are found in every unit. -/
theorem mem_inUnit_of_attribute {path : String} {here : List Location} {span : Span}
    (searched : inUnit member path unit = .ok here)
    (isThere : span ∈ attributeSpans tree member.name) :
    ⟨unit.path, span⟩ ∈ here := by
  by_cases same : unit.path = path
  · subst same
    obtain ⟨model, built⟩ := exists_build_of_inUnit content searched
    rw [inUnit_here content built] at searched
    obtain rfl := Except.ok.inj searched
    exact List.mem_map_of_mem (List.mem_append_left _ isThere)
  · simp only [inUnit, content, if_neg same] at searched
    obtain rfl := Except.ok.inj searched
    exact List.mem_map_of_mem isThere

end

section

variable {tree node : Node} {name : String} {span : Span}

theorem mem_attributeSpans :
    span ∈ attributeSpans tree name ↔
      ∃ node ∈ tree.nodes, attributeSpan? name node = some span := by
  simp only [attributeSpans, List.mem_filterMap, Node.mem_walk]

theorem mem_classBodySpans {model : Model} {className : String} :
    span ∈ classBodySpans model className name ↔
      ∃ scope ∈ model.scopes, (scope.name = className ∧ scope.node.form.isClass = true) ∧
        ∃ node ∈ scope.node.nodes, (node.id ∉ accessorNames model.tree ∧
          node.isNamed name = true ∧ (model.scopeOf node).key = scope.key) ∧
        spanOf node = span := by
  unfold classBodySpans
  rw [List.mem_flatMap]
  apply exists_congr
  intro scope
  apply and_congr_right
  intro _
  split
  · next isClass =>
      simp only [Bool.and_eq_true, decide_eq_true_eq] at isClass
      simp only [isClass, List.mem_map, List.mem_filter, Node.mem_walk, Bool.and_eq_true,
        Bool.not_eq_true', List.contains_eq_mem, decide_eq_false_iff_not, decide_eq_true_eq,
        and_assoc, true_and, and_self]
  · next other =>
      simp only [Bool.and_eq_true, decide_eq_true_eq] at other
      simp [other]

theorem form_of_isNamed (named : node.isNamed name = true) :
    ∃ context, node.form = .name name context := by
  unfold Node.isNamed at named
  split at named
  · next id context form =>
      obtain rfl : id = name := by simpa using named
      exact ⟨context, form⟩
  · cases named

theorem isNamed_of_form {context : Context} (form : node.form = .name name context) :
    node.isNamed name = true := by
  rw [Node.isNamed, form]
  simp

theorem mem_accessorNames (wellFormed : tree.WellFormed) (inside : node ∈ tree.nodes)
    (listed : node.id ∈ accessorNames tree) :
    ∃ isAsync function returns accessor context, ∃ definition ∈ tree.nodes,
      ∃ decorator ∈ definition.field .decorator,
        definition.form = .functionDef isAsync function returns ∧
        decorator.form = .attribute accessor context ∧ accessor ∈ Node.accessorNames ∧
        decorator.only? .value = some node ∧ node.form = .name function .load := by
  obtain ⟨definition, walked, inDefinition⟩ := List.mem_flatMap.mp listed
  have isDefinition := Node.mem_walk.mp walked
  split at inDefinition
  · next isAsync function returns form =>
      obtain ⟨decorator, isDecorator, named⟩ := List.mem_filterMap.mp inDefinition
      obtain ⟨object, found, id⟩ := Option.map_eq_some_iff.mp named
      unfold accessorName? at found
      split at found
      · next accessor context shape =>
          split at found
          · next isAccessor =>
              obtain ⟨isObject, isNamed⟩ := Option.filter_eq_some_iff.mp found
              have isChild : object ∈ decorator.children := List.mem_of_find?_eq_some isObject
              have role : object.role = .value := by simpa using List.find?_some isObject
              have inTree : decorator ∈ tree.nodes :=
                Node.nodes_trans
                  (Node.child_mem_nodes (Node.mem_field.mp isDecorator).1) isDefinition
              obtain rfl : object = node := wellFormed.distinct.eq_of_id
                (Node.nodes_trans (Node.child_mem_nodes isChild) inTree) inside id
              obtain ⟨use, objectForm⟩ := form_of_isNamed isNamed
              have fitting := wellFormed.fits_of_slot inTree isChild
                (show (object.role, Slot.expression) ∈ decorator.form.slots by
                  rw [shape, role]
                  simp [Form.slots])
              have admitted := Node.admits_of_fits fitting
              rw [objectForm] at admitted
              cases use with
              | load =>
                  exact ⟨isAsync, function, returns, accessor, context, definition, isDefinition,
                    decorator, isDecorator, form, shape, by simpa using isAccessor, isObject,
                    objectForm⟩
              | _ => cases admitted
          · cases found
      · cases found
  · cases inDefinition

end

end Reference

theorem Node.form_of_isClass {definition : Node} (isClass : definition.form.isClass = true) :
    definition.form = .classDef definition.className := by
  unfold className
  generalize definition.form = form at isClass
  cases form with
  | classDef => rfl
  | _ => cases isClass

namespace UnusedReport

/-- The search comes through the program and finds nothing but the declaration of the member. -/
def isUnused (snapshot : Snapshot) (path : String) (member : Member) : Bool :=
  (Reference.find snapshot member path).toOption.any (isUnreferenced path member)

theorem isUnused_iff {snapshot : Snapshot} {path : String} {member : Member} :
    isUnused snapshot path member = true ↔
      ∀ unit ∈ snapshot.units, ∃ here, Reference.inUnit member path unit = .ok here ∧
        ∀ location ∈ here, location = Reference.declaration member path := by
  rw [← Reference.inUnits_iff, isUnused, Reference.find]
  cases Reference.inUnits member path snapshot.units with
  | error fault => simp [Except.toOption]
  | ok found =>
      simp only [Except.toOption, Option.any_some, isUnreferenced, List.all_eq_true,
        Reference.mem_foldr_insertLocation, List.forall_mem_cons, decide_eq_true_eq, true_and,
        Except.ok.injEq, exists_eq_left']

private theorem search_eq (snapshot : Snapshot) (path : String) (members : List Member) :
    (search snapshot path members).1 =
      (members.filter (isUnused snapshot path)).map (UnusedMember.ofMember path) := by
  induction members with
  | nil => rfl
  | cons member rest induction =>
      unfold search
      cases searched : Reference.find snapshot member path with
      | error fault =>
          have unknown : isUnused snapshot path member = false := by
            rw [isUnused, searched]
            rfl
          rw [List.filter_cons_of_neg (by simp [unknown])]
          exact induction
      | ok found =>
          have known : isUnused snapshot path member = isUnreferenced path member found := by
            rw [isUnused, searched]
            rfl
          simp only
          split
          · next unused =>
              rw [List.filter_cons_of_pos (by rw [known]; exact unused), List.map_cons, ← induction]
          · next used =>
              rw [List.filter_cons_of_neg (by rw [known]; exact used)]
              exact induction

/-- The members that are looked for: none if those of a class cannot be listed. -/
def listed (tree : Node) : List Member :=
  if listingFault? tree = none then candidates tree else []

theorem mem_listed_iff {tree : Node} {member : Member} :
    member ∈ listed tree ↔ listingFault? tree = none ∧ member ∈ candidates tree := by
  unfold listed
  split
  · next plain => exact (and_iff_right plain).symm
  · next refused => exact ⟨nofun, fun both => absurd both.1 refused⟩

section

variable {snapshot : Snapshot} {unit : SourceUnit} {tree : Node} {fault : Option ParseFault}

theorem members_symbolAware (content : unit.content = .parsed tree fault) :
    (symbolAware snapshot unit).members =
      ((listed tree).filter (isUnused (snapshot.withUnit unit) unit.path)).map
        (UnusedMember.ofMember unit.path) := by
  rw [symbolAware, content, ofContent, listed]
  cases listingFault? tree with
  | some => rfl
  | none => exact search_eq _ _ _

theorem members_syntactic (content : unit.content = .parsed tree fault) :
    (syntactic unit).members =
      ((listed tree).filter (isUnmentioned tree)).map (UnusedMember.ofMember unit.path) := by
  rw [syntactic, content, ofContent, listed]
  cases listingFault? tree with
  | some => rfl
  | none => rfl

end

theorem exists_class_of_listed {tree : Node} {member : Member} (isListed : member ∈ listed tree) :
    ∃ definition ∈ tree.nodes, definition.form = .classDef definition.className ∧
      member ∈ Member.ofClass definition := by
  obtain ⟨definition, listed, declared⟩ := List.mem_flatMap.mp (mem_listed_iff.mp isListed).2
  obtain ⟨walked, isClass⟩ := List.mem_filter.mp listed
  exact ⟨definition, Node.mem_walk.mp walked, Node.form_of_isClass isClass,
    (List.mem_filter.mp declared).1⟩

end UnusedReport

/-- A module with a class `C` that has a private field `_x`, and further statements. -/
def privateFieldUnit (path source : String) (fault : Option ParseFault) (statements : List Node) :
    SourceUnit where
  path := path
  source := source
  content := .parsed
    (.mk .module ⟨0, .root, none⟩
      (.mk (.classDef "C") ⟨1, .body, some ⟨⟨1, 0⟩, ⟨2, 10⟩⟩⟩ [
        .mk .assign ⟨2, .body, some ⟨⟨2, 4⟩, ⟨2, 10⟩⟩⟩ [
          .mk (.name "_x" .store) ⟨3, .target, some ⟨⟨2, 4⟩, ⟨2, 6⟩⟩⟩ [],
          .mk (.constant .int "1") ⟨4, .value, some ⟨⟨2, 9⟩, ⟨2, 10⟩⟩⟩ []]] :: statements)) fault

end SafeRefactor
