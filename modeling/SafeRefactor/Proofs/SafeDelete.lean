import SafeRefactor.Proofs.Locality
import SafeRefactor.Proofs.Resolution
import SafeRefactor.Proofs.UnusedSearch

/-!
# Members that may be deleted

A member is reported as unused when the search finds nothing but its declaration.  The
search comes to every construct of the program that names an attribute literally, except
that it does not look at the keywords of class patterns.  So apart from these a reported
member is named nowhere but in its declaration.
-/

namespace SafeRefactor

/-- The scopes of a place are opened by constructs around a node. -/
def Place.Encloses (tree : Node) (place : Place) (node : Node) : Prop :=
  ∀ key ∈ place.frame :: place.chain, ∃ opener ∈ tree.nodes, opener.id = key ∧ node ∈ opener.nodes

namespace Place.Encloses

variable {tree parent child : Node} {place : Place}

theorem toChild (encloses : place.Encloses tree parent) (isChild : child ∈ parent.children) :
    place.Encloses tree child := by
  intro key member
  obtain ⟨opener, inTree, id, inside⟩ := encloses key member
  exact ⟨opener, inTree, id, Node.nodes_trans (Node.child_mem_nodes isChild) inside⟩

theorem enter (encloses : place.Encloses tree parent) (inTree : parent ∈ tree.nodes)
    (isChild : child ∈ parent.children) : (place.enter parent).Encloses tree child := by
  have own : ∃ opener ∈ tree.nodes, opener.id = parent.id ∧ child ∈ opener.nodes :=
    ⟨parent, inTree, rfl, Node.child_mem_nodes isChild⟩
  intro key member
  rcases List.mem_cons.mp member with rfl | member
  · exact own
  · rcases List.mem_cons.mp member with rfl | outer
    · exact own
    · exact encloses.toChild isChild key (List.mem_cons_of_mem _ outer)

theorem enterComprehension (encloses : place.Encloses tree parent) (inTree : parent ∈ tree.nodes)
    (isChild : child ∈ parent.children) :
    (place.enterComprehension parent).Encloses tree child := by
  intro key member
  rcases List.mem_cons.mp member with rfl | member
  · exact encloses.toChild isChild _ List.mem_cons_self
  · rcases List.mem_cons.mp member with rfl | outer
    · exact ⟨parent, inTree, rfl, Node.child_mem_nodes isChild⟩
    · exact encloses.toChild isChild key (List.mem_cons_of_mem _ outer)

theorem atRoot (tree node : Node) (inside : node ∈ tree.nodes) :
    (Event.atRoot tree).place.Encloses tree node := by
  intro key member
  have own : key = tree.id := by simpa [Event.atRoot, Spot.of, Place.chain] using member
  exact ⟨tree, Node.self_mem_nodes tree, own.symm, inside⟩

end Place.Encloses

namespace Spot

theorem Visited.enclosed {tree node : Node} {spot : Spot} (wellFormed : tree.WellFormed)
    (visited : Visited tree spot node) :
    spot.place.Encloses tree node ∧ spot.iterables.Encloses tree node := by
  have start := Place.Encloses.atRoot tree tree (Node.self_mem_nodes tree)
  apply Reaches.invariant visited ⟨start, start⟩
  intro spot parent child reached isChild ⟨here, iterables⟩
  have inTree : parent ∈ tree.nodes := reached.mem
  have inner := here.enterComprehension inTree isChild
  unfold toChild step
  split
  · next form =>
      obtain rfl := wellFormed.eq_of_module inTree form
      have root := Place.Encloses.atRoot parent child (Node.child_mem_nodes isChild)
      exact ⟨root, root⟩
  · exact ⟨here.enter inTree isChild, here.enter inTree isChild⟩
  · exact ⟨here.enter inTree isChild, here.enter inTree isChild⟩
  · exact ⟨here.enter inTree isChild, here.enter inTree isChild⟩
  · split
    · exact ⟨inner, here.toChild isChild⟩
    · exact ⟨inner, inner⟩
  · exact ⟨inner, inner⟩
  · have framed : Place.Encloses tree { spot.place.inside parent with scope := spot.place.frame }
        child := by
      intro key member
      apply here.toChild isChild key
      simp only [Place.inside, Place.chain, List.mem_cons] at member ⊢
      tauto
    exact ⟨framed, framed⟩
  · split
    · exact ⟨here.toChild isChild, iterables.toChild isChild⟩
    · exact ⟨here.toChild isChild, here.toChild isChild⟩
  · exact ⟨iterables.toChild isChild, iterables.toChild isChild⟩
  · exact ⟨here.toChild isChild, here.toChild isChild⟩

end Spot

namespace Node

/-- A construct names an attribute literally: in an access, in a call of a reflective function, or
as a keyword of a class pattern. -/
inductive NamesAttribute (name : String) (node : Node) : Prop where
  | access {context : Context} : node.form = .attribute name context → NamesAttribute name node
  | reflection {callee first literal : Node} {rest : List Node} {function : String}
      {context : Context} : node.form = .call → node.only? .callee = some callee →
      callee.form = .name function context →
      function ∈ ["getattr", "setattr", "hasattr", "delattr"] →
      node.field .argument = first :: literal :: rest → literal.form = .constant .str name →
      NamesAttribute name node
  | pattern {keywords : List String} : node.form = .matchClass keywords → name ∈ keywords →
      NamesAttribute name node

/-- A name in the decorator of an accessor continues the property that the decorated function is
named after. -/
def ContinuesProperty (tree node : Node) : Prop :=
  ∃ isAsync function returns accessor context, ∃ definition ∈ tree.nodes,
    ∃ decorator ∈ definition.field .decorator,
      definition.form = .functionDef isAsync function returns ∧
      decorator.form = .attribute accessor context ∧ accessor ∈ ["setter", "getter", "deleter"] ∧
      decorator.only? .value = some node ∧ node.form = .name function .load

/-- A bare name is evaluated in the body of a class of the given name and continues no property. -/
def NamesInBody (tree : Node) (className name : String) (node : Node) : Prop :=
  ∃ definition ∈ tree.nodes, definition.form = .classDef className ∧
    .places node.id definition.id ∈ Event.ofModule tree ∧
    (∃ context, node.form = .name name context) ∧ ¬ tree.ContinuesProperty node

/-- The name that a construct writes and where it writes it. -/
def written? (node : Node) : Option (String × Position) :=
  match node.form with
  | .attribute name _ => some (name, (node.attributeNameSpan name).start)
  | .name name _ => some (name, node.start)
  | .functionDef _ name _ => some (name, ⟨node.start.line, node.functionNameColumn⟩)
  | _ => (Reference.reflected? node).map (fun found => (found.1, found.2.start))

/-- No two constructs write one name at one place.  In a replacement field of a string over several
lines they may: the places there are not the true ones. -/
def Apart (tree : Node) : Prop :=
  (tree.nodes.filterMap written?).Nodup

instance (tree : Node) : Decidable tree.Apart :=
  inferInstanceAs (Decidable (List.Nodup _))

/-- The characters that a construct has for the name it writes: a name or a literal as a whole, what
follows the object in an access, and the keyword and the name of a function. -/
def token? (node : Node) : Option Span :=
  match node.form with
  | .attribute _ _ =>
      node.span.bind fun whole =>
        ((node.only? .value).bind span).map fun object => ⟨object.stop, whole.stop⟩
  | .name _ _ => node.span
  | .functionDef isAsync name _ =>
      node.span.map fun whole =>
        ⟨whole.start,
          ⟨whole.start.line, whole.start.column + (if isAsync then 10 else 4) + name.length⟩⟩
  | _ => (Reference.reflected? node).bind (fun found => found.2.span)

end Node

/-- A name has room in a span: the span goes over several lines, or is long enough. -/
def Span.HasRoom (span : Span) (name : String) : Prop :=
  0 < name.length ∧ (span.start.line < span.stop.line ∨
    span.start.line = span.stop.line ∧ span.start.column + name.length ≤ span.stop.column)

instance (span : Span) (name : String) : Decidable (span.HasRoom name) :=
  inferInstanceAs (Decidable (_ ∧ _))

namespace Node

/-- Every construct that writes a name has characters for it, and they are its own. -/
structure Spaced (tree : Node) : Prop where
  room : ∀ node ∈ tree.nodes, ∀ written ∈ node.written?, ∃ token ∈ node.token?,
    token.HasRoom written.1
  separate : (tree.nodes.filterMap token?).Pairwise
    (fun first second => first.intersects second = false)

private theorem written_in_token {node : Node} {name : String} {place : Position} {token : Span}
    (writes : node.written? = some (name, place)) (isToken : node.token? = some token)
    (room : token.HasRoom name) : token.start ≤ place ∧ place < token.stop := by
  obtain ⟨long, wide⟩ := room
  have atStart : token.start ≤ token.start ∧ token.start < token.stop := by
    rw [Position.le_iff, Position.lt_iff]
    omega
  unfold written? at writes
  unfold token? at isToken
  split at writes
  · next other context form =>
      rw [form] at isToken
      obtain ⟨rfl, rfl⟩ := Prod.mk.inj (Option.some.inj writes)
      obtain ⟨whole, isWhole, within⟩ := Option.bind_eq_some_iff.mp isToken
      obtain ⟨object, _, rfl⟩ := Option.map_eq_some_iff.mp within
      simp only [attributeNameSpan, isWhole] at wide ⊢
      rw [Position.le_iff, Position.lt_iff]
      dsimp only
      omega
  · next other context form =>
      rw [form] at isToken
      obtain ⟨rfl, rfl⟩ := Prod.mk.inj (Option.some.inj writes)
      simp only at isToken
      rw [Node.start, isToken]
      exact atStart
  · next isAsync other returns form =>
      rw [form] at isToken
      obtain ⟨rfl, rfl⟩ := Prod.mk.inj (Option.some.inj writes)
      obtain ⟨whole, isWhole, rfl⟩ := Option.map_eq_some_iff.mp isToken
      have start : node.start = whole.start := by rw [Node.start, isWhole]
      have column : node.functionNameColumn = whole.start.column + if isAsync then 10 else 4 := by
        cases isAsync <;> simp only [functionNameColumn, form, start] <;> rfl
      rw [start, column]
      rw [Position.le_iff, Position.lt_iff]
      dsimp only
      split <;> omega
  · next notAttribute notName notFunction =>
      obtain ⟨⟨other, literal⟩, reflected, same⟩ := Option.map_eq_some_iff.mp writes
      obtain ⟨rfl, rfl⟩ := Prod.mk.inj same
      split at isToken
      · next form => exact absurd form (notAttribute _ _)
      · next form => exact absurd form (notName _ _)
      · next form => exact absurd form (notFunction _ _ _)
      · rw [reflected, Option.bind_some] at isToken
        rw [Node.start, isToken]
        exact atStart

/-- Constructs with characters of their own write their names at places of their own. -/
theorem Spaced.apart {tree : Node} (spaced : tree.Spaced) : tree.Apart := by
  apply List.pairwise_filterMap.mpr
  apply List.Pairwise.imp_of_mem _ (List.pairwise_filterMap.mp spaced.separate)
  rintro first second isFirst isSecond separate ⟨name, place⟩ left _ right rfl
  obtain ⟨token, isToken, room⟩ := spaced.room first isFirst _ left
  obtain ⟨other, isOther, otherRoom⟩ := spaced.room second isSecond _ right
  have inFirst := written_in_token left isToken room
  have inSecond := written_in_token right isOther otherRoom
  have meets : token.intersects other = true := by
    rw [Span.intersects, Bool.and_eq_true, decide_eq_true_eq, decide_eq_true_eq]
    exact ⟨Position.lt_of_le_of_lt inFirst.1 inSecond.2,
      Position.lt_of_le_of_lt inSecond.1 inFirst.2⟩
  rw [separate token isToken other isOther] at meets
  cases meets

private theorem eq_of_nodup_filterMap {α β : Type} {view : α → Option β} {items : List α}
    (nodup : (items.filterMap view).Nodup) {first second : α} {value : β}
    (left : first ∈ items) (right : second ∈ items) (isFirst : view first = some value)
    (isSecond : view second = some value) : first = second := by
  induction items with
  | nil => cases left
  | cons item rest induction =>
      have later : ∀ other ∈ rest, view other = some value → value ∈ rest.filterMap view :=
        fun other member seen => List.mem_filterMap.mpr ⟨other, member, seen⟩
      rcases List.mem_cons.mp left with rfl | leftLater
      · rw [List.filterMap_cons_some isFirst, List.nodup_cons] at nodup
        rcases List.mem_cons.mp right with rfl | rightLater
        · rfl
        · exact absurd (later second rightLater isSecond) nodup.1
      · rcases List.mem_cons.mp right with rfl | rightLater
        · rw [List.filterMap_cons_some isSecond, List.nodup_cons] at nodup
          exact absurd (later first leftLater isFirst) nodup.1
        · apply induction _ leftLater rightLater
          cases seen : view item with
          | none =>
              rw [List.filterMap_cons_none seen] at nodup
              exact nodup
          | some other =>
              rw [List.filterMap_cons_some seen] at nodup
              exact nodup.of_cons

private theorem reflected?_of_names {node callee first literal : Node} {rest : List Node}
    {name : String}
    {function : String} {context : Context} (form : node.form = .call)
    (isCallee : node.only? .callee = some callee) (named : callee.form = .name function context)
    (isReflective : function ∈ ["getattr", "setattr", "hasattr", "delattr"])
    (arguments : node.field .argument = first :: literal :: rest)
    (isLiteral : literal.form = .constant .str name) :
    Reference.reflected? node = some (name, literal) := by
  have reflective : Reference.reflectionNames.contains function = true := by
    simpa [Reference.reflectionNames] using isReflective
  unfold Reference.reflected?
  rw [form, isCallee]
  simp only [Option.bind_some, identifier?, named, Option.any_some, reflective, if_true, arguments,
    isLiteral]

end Node

namespace Member

theorem DeclaredBy.written {definition node : Node} {member : Member}
    (declared : DeclaredBy definition member node) :
    node.written? = some (member.name, member.span.start) := by
  unfold Node.written?
  cases declared with
  | function _ form _ place => rw [form, place]
  | inBody _ _ form _ place => rw [form, place]
  | onReceiver _ _ _ form _ _ _ place => rw [form, place]

end Member

section

variable {tree node : Node} {className name : String}

private theorem Node.written?_of_name {context : Context} (form : node.form = .name name context) :
    node.written? = some (name, node.start) := by
  rw [written?, form]

/-- The search sees a construct that names an attribute, unless it is a class pattern. -/
theorem Node.NamesAttribute.seen (names : node.NamesAttribute name) :
    (∃ keywords, node.form = .matchClass keywords) ∨
      ∃ span, Reference.attributeSpan? name node = some span ∧
        node.written? = some (name, span.start) := by
  unfold Reference.attributeSpan? Node.written?
  cases names with
  | access form =>
      rw [form]
      exact Or.inr ⟨_, if_pos rfl, rfl⟩
  | reflection form isCallee named isReflective arguments isLiteral =>
      have reflected :=
        Node.reflected?_of_names form isCallee named isReflective arguments isLiteral
      rw [form, reflected]
      refine Or.inr ⟨_, if_pos rfl, ?_⟩
      rw [Reference.start_spanOf]
      rfl
  | pattern form _ => exact Or.inl ⟨_, form⟩

theorem Node.NamesInBody.seen {path : String} {model : Model} (wellFormed : tree.WellFormed)
    (built : Model.build path tree = .ok model) (inside : node ∈ tree.nodes)
    (names : tree.NamesInBody className name node) :
    Reference.spanOf node ∈ Reference.classBodySpans model className name := by
  obtain ⟨definition, isDefinition, isClass, placed, ⟨context, form⟩, continues⟩ := names
  have settles := Model.settles_of_build built
  have other : ∀ id hint, node.form ≠ .parameter id hint := by
    intro id hint
    rw [form]
    exact nofun
  obtain ⟨spot, visited⟩ := Spot.Visited.exists_of_mem inside
  have scopeId := (Event.places_iff wellFormed visited other).mp placed
  -- The node lies inside the construct that opens its scope.
  have below : node ∈ definition.nodes := by
    obtain ⟨opener, isOpener, id, around⟩ :=
      (visited.enclosed wellFormed).1 spot.place.scope (by simp [Place.chain])
    rw [← wellFormed.distinct.eq_of_id isOpener isDefinition (id.trans scopeId.symm)]
    exact around
  obtain ⟨scope, isScope, received, isSettled, key⟩ :=
    Model.scopeOf_visited settles wellFormed visited other
  have opens := ((recorded path tree).records scope isScope).opens
  obtain ⟨place, reached, _, named, _⟩ := (Event.opens_iff wellFormed).mp opens
  have isNode : scope.node = definition :=
    wellFormed.distinct.eq_of_id reached.mem isDefinition (key.trans scopeId.symm)
  have opened : (model.scopeOf node).node = definition := received.node.trans isNode
  have title : (model.scopeOf node).name = className := by
    rw [show (model.scopeOf node).name = scope.name from
      congrArg Scope.Header.name received.header, named, isNode, isClass, Event.scopeName]
  apply Reference.mem_classBodySpans.mpr
  refine ⟨model.scopeOf node, isSettled, ⟨title, ?_⟩, node, ?_, ⟨?_, ?_, rfl⟩, rfl⟩
  · rw [opened, isClass]
    rfl
  · rw [opened]
    exact below
  · rw [settles.source]
    exact fun listed => continues (Reference.mem_accessorNames wellFormed inside listed)
  · exact Reference.isNamed_of_form form

end

namespace Snapshot

/-- A member that is reported as unused is named nowhere in the program but in its declaration and
perhaps in class patterns. -/
theorem reported_is_unnamed (snapshot : Snapshot) (unit : SourceUnit) {tree : Node}
    {fault : Option ParseFault} (content : unit.content = .parsed tree fault)
    (wellFormed : tree.WellFormed) (apart : tree.Apart) {reported : UnusedMember}
    (isReported : reported ∈ (UnusedReport.symbolAware snapshot unit).members) :
    ∃ definition ∈ tree.nodes, ∃ member ∈ Member.ofClass definition, ∃ store ∈ definition.nodes,
      definition.form = .classDef reported.className ∧ reported = .ofMember unit.path member ∧
      member.DeclaredBy definition store ∧
      (∀ other ∈ (snapshot.withUnit unit).units, ∀ otherTree otherFault,
        other.content = .parsed otherTree otherFault → ∀ node ∈ otherTree.nodes,
          node.NamesAttribute reported.name →
            (other = unit ∧ node = store) ∨ ∃ keywords, node.form = .matchClass keywords) ∧
      ∀ node ∈ tree.nodes, tree.NamesInBody reported.className reported.name node →
        node = store := by
  rw [UnusedReport.members_symbolAware content] at isReported
  obtain ⟨member, isUnused, rfl⟩ := List.mem_map.mp isReported
  obtain ⟨isListed, unused⟩ := List.mem_filter.mp isUnused
  rw [UnusedReport.isUnused_iff] at unused
  obtain ⟨definition, isDefinition, isClass, isMember⟩ :=
    UnusedReport.exists_class_of_listed isListed
  obtain ⟨className, store, inClass, declared⟩ :=
    Member.exists_declaredBy wellFormed isDefinition isMember
  have inTree : store ∈ tree.nodes := Node.nodes_trans inClass isDefinition
  -- A construct of the unit that writes the name where the member is declared is the declaration.
  have isStore : ∀ node ∈ tree.nodes, ∀ span : Span,
      node.written? = some (member.name, span.start) →
      (⟨unit.path, span⟩ : Location) = Reference.declaration member unit.path → node = store := by
    intro node inside span written same
    have place : span = member.span := congrArg Location.span same
    rw [place] at written
    exact Node.eq_of_nodup_filterMap apart inside inTree written declared.written
  refine ⟨definition, isDefinition, member, isMember, store, inClass, ?_, rfl, declared, ?_, ?_⟩
  · rw [isClass]
    exact congrArg Form.classDef className.symm
  · intro other isOther otherTree otherFault otherContent node inside names
    obtain ⟨here, searched, all⟩ := unused other isOther
    rcases names.seen with pattern | ⟨span, seen, written⟩
    · exact Or.inr pattern
    · left
      have found := Reference.mem_inUnit_of_attribute otherContent searched
        (Reference.mem_attributeSpans.mpr ⟨node, inside, seen⟩)
      have same := all _ found
      obtain rfl := eq_of_mem_withUnit isOther (congrArg Location.path same)
      rw [content] at otherContent
      obtain ⟨rfl, _⟩ := Content.parsed.inj otherContent
      exact ⟨rfl, isStore node inside span written same⟩
  · intro node inside names
    obtain ⟨here, searched, all⟩ := unused unit (mem_withUnit snapshot unit)
    obtain ⟨model, built⟩ := Reference.exists_build_of_inUnit content searched
    have seen := names.seen wellFormed built inside
    rw [Reference.inUnit_here content built] at searched
    obtain rfl := Except.ok.inj searched
    obtain ⟨_, _, _, _, ⟨context, form⟩, _⟩ := names
    apply isStore node inside (Reference.spanOf node)
    · rw [Node.written?_of_name form, Reference.start_spanOf]
      rfl
    · exact all _ (List.mem_map_of_mem (List.mem_append_right _ seen))

/-- The field of a class that another unit imports is named nowhere but in its declaration. -/
theorem reported_is_unnamed_field :
    let unit := privateFieldUnit "a.py" "class C:\n    _x = 1\n" none []
    let program := ofUnits [unit, importingUnit "b.py" "a" "C"]
    ∃ store, ∀ other ∈ (program.withUnit unit).units, ∀ otherTree otherFault,
      other.content = .parsed otherTree otherFault → ∀ node ∈ otherTree.nodes,
        node.NamesAttribute "_x" →
          (other = unit ∧ node = store) ∨ ∃ keywords, node.form = .matchClass keywords := by
  intro unit program
  have isReported : (⟨"_x", .field, "C", "a.py", 2⟩ : UnusedMember) ∈
      (UnusedReport.symbolAware program unit).members := by
    apply of_decide_eq_true
    cbv
  obtain ⟨_, _, _, _, store, _, _, _, _, unnamed, _⟩ :=
    reported_is_unnamed program unit rfl ⟨by decide, by decide⟩
      (Node.Spaced.apart ⟨by decide, by decide⟩) isReported
  exact ⟨store, unnamed⟩

/-- A class pattern that matches on the private field. -/
def fieldPattern : Node :=
  .mk (.matchClass ["_x"]) ⟨11, .pattern, some ⟨⟨7, 13⟩, ⟨7, 20⟩⟩⟩ [
    .mk (.name "C" .load) ⟨12, .matchedClass, some ⟨⟨7, 13⟩, ⟨7, 14⟩⟩⟩ [],
    .mk .matchValue ⟨13, .keywordPattern, some ⟨⟨7, 18⟩, ⟨7, 19⟩⟩⟩ [
      .mk (.constant .int "1") ⟨14, .value, some ⟨⟨7, 18⟩, ⟨7, 19⟩⟩⟩ []]]

/-- A module in which a function matches with that pattern. -/
def matchingUnit : SourceUnit :=
  privateFieldUnit "a.py"
    "class C:\n    _x = 1\n\n\ndef f(c):\n    match c:\n        case C(_x=1):\n            pass\n" none [
    .mk (.functionDef false "f" none) ⟨5, .body, some ⟨⟨5, 0⟩, ⟨8, 16⟩⟩⟩ [
      .mk (.parameters []) ⟨6, .parameters, none⟩ [
        .mk (.parameter "c" none) ⟨7, .positional, some ⟨⟨5, 6⟩, ⟨5, 7⟩⟩⟩ []],
      .mk .matchStmt ⟨8, .body, some ⟨⟨6, 4⟩, ⟨8, 16⟩⟩⟩ [
        .mk (.name "c" .load) ⟨9, .subject, some ⟨⟨6, 10⟩, ⟨6, 11⟩⟩⟩ [],
        .mk .matchCase ⟨10, .arm, none⟩ [
          fieldPattern,
          .mk .passStmt ⟨15, .body, some ⟨⟨8, 12⟩, ⟨8, 16⟩⟩⟩ []]]]]

/-- The field is reported as unused although the pattern names it. -/
theorem pattern_keyword_unseen :
    (⟨"_x", .field, "C", "a.py", 2⟩ : UnusedMember) ∈
        (UnusedReport.symbolAware (ofUnits [matchingUnit]) matchingUnit).members ∧
      ∃ tree, matchingUnit.content = .parsed tree none ∧ tree.WellFormed ∧ tree.Apart ∧
        fieldPattern ∈ tree.nodes ∧ fieldPattern.NamesAttribute "_x" := by
  refine ⟨?_, _, rfl, ⟨by decide, by decide⟩, Node.Spaced.apart ⟨by decide, by decide⟩, ?_,
    .pattern rfl List.mem_cons_self⟩
  · apply of_decide_eq_true
    cbv
  · simp [Node.nodes, Node.nodesList, fieldPattern]

end Snapshot

end SafeRefactor
