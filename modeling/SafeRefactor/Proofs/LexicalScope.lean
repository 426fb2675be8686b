import SafeRefactor.Proofs.Environment
import SafeRefactor.Proofs.Standing

/-!
# The lexical scope of a node

`LexicalScope` states the rule of the language for the scope in which a node is
evaluated: from the construct that the node is a part of, or else from its parent.
The table that the visit of a module fills gives every node the one scope that the rule
gives it.
-/

namespace SafeRefactor

namespace Model

/-- The construct introduces the scope. -/
def Introduces (model : Model) (construct : Node) (scope : Scope) : Prop :=
  scope ∈ model.scopes ∧ scope.node = construct

/-- The nearest scope at or above a scope that is not a comprehension. -/
def nearestFrame? (model : Model) (scope : Scope) : Option Scope :=
  (scope :: model.around scope).find? (fun other => other.kind != .comprehension)

/-- The scope in which a node is evaluated, by the rule of the language. -/
inductive LexicalScope (model : Model) : Node → Scope → Prop where
  | module : LexicalScope model model.tree model.moduleScope
  | statement {node : Node} : node ∈ model.tree.field .body →
      LexicalScope model node model.moduleScope
  | inner {construct node : Node} {scope : Scope} : construct ∈ model.tree.nodes →
      node ∈ construct.innerParts → model.Introduces construct scope →
      LexicalScope model node scope
  | outer {construct node : Node} {scope : Scope} : construct ∈ model.tree.nodes →
      node ∈ construct.outerParts → LexicalScope model construct scope →
      LexicalScope model node scope
  | assigned {expression node : Node} {scope frame : Scope} : expression ∈ model.tree.nodes →
      node ∈ expression.assignedParts → LexicalScope model expression scope →
      model.nearestFrame? scope = some frame → LexicalScope model node frame
  | other {parent node : Node} {scope : Scope} : parent ∈ model.tree.nodes →
      node ∈ parent.children → ¬ model.tree.IsRuled node → LexicalScope model parent scope →
      LexicalScope model node scope

end Model

/-- The first of the scopes that a construct other than a comprehension opens. -/
inductive NearestFrame (tree : Node) : List NodeId → NodeId → Prop where
  | here {opener : Node} {kind : ScopeKind} {rest : List NodeId} : opener ∈ tree.nodes →
      opener.form.scopeKind? = some kind → kind ≠ .comprehension →
      NearestFrame tree (opener.id :: rest) opener.id
  | beyond {opener : Node} {rest : List NodeId} {frame : NodeId} : opener ∈ tree.nodes →
      opener.form.scopeKind? = some .comprehension → NearestFrame tree rest frame →
      NearestFrame tree (opener.id :: rest) frame

/-- The frame of a place is the nearest one of its scopes. -/
def Place.Framed (tree : Node) (place : Place) : Prop :=
  NearestFrame tree place.chain place.frame

namespace Spot

/-- The frames of a spot are the nearest ones, unless no node is visited from it: the target of an
assignment expression, which is moved to its frame, has no children. -/
def Framed (tree : Node) (spot : Spot) (node : Node) : Prop :=
  node.children = [] ∨ spot.place.Framed tree ∧ spot.iterables.Framed tree

theorem Framed.atRoot {tree : Node} (wellFormed : tree.WellFormed) (node : Node) :
    Framed tree (Event.atRoot tree) node := by
  have opens : tree.form.scopeKind? = some .module := by
    rw [Node.Grammatical.form_eq wellFormed.grammatical]
    rfl
  have framed : (Event.atRoot tree).place.Framed tree :=
    .here (Node.self_mem_nodes tree) opens (by decide)
  exact Or.inr ⟨framed, framed⟩

theorem Visited.framed {tree node : Node} {spot : Spot} (wellFormed : tree.WellFormed)
    (visited : Visited tree spot node) : Framed tree spot node := by
  apply Reaches.invariant visited (Framed.atRoot wellFormed tree)
  intro spot parent child reached isChild framed
  have inside : parent ∈ tree.nodes := reached.mem
  rcases framed with none | ⟨framed, iterables⟩
  · rw [none] at isChild
    cases isChild
  · have here : (spot.place.inside parent).Framed tree := framed
    have entered : ∀ kind, parent.form.scopeKind? = some kind → kind ≠ .comprehension →
        (spot.place.enter parent).Framed tree := fun _ opens other => .here inside opens other
    -- A comprehension keeps the frame and puts itself in front of the scopes.
    have comprehended : parent.form.scopeKind? = some .comprehension →
        (spot.place.enterComprehension parent).Framed tree :=
      fun opens => .beyond inside opens framed
    unfold toChild step
    split
    · next form =>
        obtain rfl := wellFormed.eq_of_module inside form
        exact Framed.atRoot wellFormed child
    · next form _ =>
        have inner := entered .function (by rw [form]; rfl) (by decide)
        exact Or.inr ⟨inner, inner⟩
    · next form _ =>
        have inner := entered .classBody (by rw [form]; rfl) (by decide)
        exact Or.inr ⟨inner, inner⟩
    · next form _ =>
        have inner := entered .lambda (by rw [form]; rfl) (by decide)
        exact Or.inr ⟨inner, inner⟩
    · next form _ =>
        have inner := comprehended (by rw [form]; rfl)
        split
        · exact Or.inr ⟨inner, here⟩
        · exact Or.inr ⟨inner, inner⟩
    · next form _ =>
        have inner := comprehended (by rw [form]; rfl)
        exact Or.inr ⟨inner, inner⟩
    · next form role =>
        have asked : (child.role, Slot.nameTarget) ∈ parent.form.slots := by
          rw [form, role]
          simp [Form.slots]
        have fitting := wellFormed.fits_of_slot inside isChild asked
        obtain ⟨id, named⟩ := Node.form_of_nameTarget fitting
        exact Or.inl (Node.children_eq_nil fitting (by rw [named]; rfl))
    · next form _ =>
        split
        · exact Or.inr ⟨framed, iterables⟩
        · exact Or.inr ⟨here, here⟩
    · exact Or.inr ⟨iterables, iterables⟩
    · exact Or.inr ⟨here, here⟩

end Spot

namespace Model

section

variable {path : String} {tree : Node} {model : Model} (settles : model.Settles path tree)
  (wellFormed : tree.WellFormed)

include settles wellFormed

theorem eq_of_settled_key {first second : Scope} (left : first ∈ model.scopes)
    (right : second ∈ model.scopes) (same : first.key = second.key) : first = second :=
  List.inj_on_of_nodup_map (settled_keys_nodup settles wellFormed) left right same

theorem exists_introduced {construct : Node} {kind : ScopeKind} (inside : construct ∈ tree.nodes)
    (opens : construct.form.scopeKind? = some kind) :
    ∃ scope, model.Introduces construct scope ∧ scope.kind = kind ∧
      findScope? model.scopes construct.id = some scope := by
  obtain ⟨spot, visited⟩ := Spot.Visited.exists_of_mem inside
  obtain ⟨rest, nested, _⟩ := visited.nested wellFormed opens
  obtain ⟨origin, isOrigin, scope, isScope, received, node, _, found⟩ :=
    find_of_nested settles wellFormed nested
  have told := ((recorded path tree).records origin isOrigin).opens
  obtain ⟨_, _, isKind, _⟩ := (Event.opens_iff wellFormed).mp told
  rw [node, opens] at isKind
  refine ⟨scope, ⟨isScope, received.node.trans node⟩, ?_, found⟩
  rw [received.kind]
  exact (Option.some.inj isKind).symm

theorem scopeOf_standsIn {node : Node} {key : NodeId} (stands : Spot.StandsIn tree node key) :
    model.scopeOf node ∈ model.scopes ∧ (model.scopeOf node).key = key := by
  obtain ⟨spot, visited, notParameter, rfl⟩ := stands
  obtain ⟨origin, _, received, isScope, key⟩ :=
    scopeOf_of_not_isParameter settles wellFormed visited notParameter
  exact ⟨isScope, received.key.trans key⟩

theorem scopeOf_eq {first second : Node} {key : NodeId} (left : Spot.StandsIn tree first key)
    (right : Spot.StandsIn tree second key) : model.scopeOf first = model.scopeOf second := by
  obtain ⟨isFirst, firstKey⟩ := scopeOf_standsIn settles wellFormed left
  obtain ⟨isSecond, secondKey⟩ := scopeOf_standsIn settles wellFormed right
  exact eq_of_settled_key settles wellFormed isFirst isSecond (firstKey.trans secondKey.symm)

theorem scopeOf_module {node : Node} (stands : Spot.StandsIn tree node tree.id) :
    model.scopeOf node = model.moduleScope := by
  obtain ⟨isScope, key⟩ := scopeOf_standsIn settles wellFormed stands
  apply eq_of_settled_key settles wellFormed isScope (moduleScope_mem settles)
  rw [key, Scope.key, (moduleScope_header settles wellFormed).1]

theorem scopes_of_chain {node : Node} {spot : Spot} (visited : Spot.Visited tree spot node)
    (notParameter : ¬ tree.IsParameter node) (general : node.children ≠ []) :
    model.scopeOf node :: model.around (model.scopeOf node) =
      spot.place.chain.filterMap (findScope? model.scopes) := by
  cases visited.sited wellFormed with
  | target _ none _ _ => exact absurd none general
  | @general openers _ within _ _ =>
      cases openers with
      | nil => cases within.nested
      | cons opener rest =>
          obtain ⟨origin, _, scope, isScope, received, isNode, outer, found⟩ :=
            find_of_nested settles wellFormed within.nested
          obtain ⟨place, others⟩ := List.cons.inj within.chain
          obtain ⟨isSettled, key⟩ :=
            scopeOf_standsIn settles wellFormed ⟨spot, visited, notParameter, rfl⟩
          have same : model.scopeOf node = scope := by
            apply eq_of_settled_key settles wellFormed isSettled isScope
            rw [key, place, received.key, Scope.key, isNode]
          unfold Model.around scopesAround
          rw [same, received.outer, outer, within.chain, List.map_cons, List.filterMap_cons, found]

private theorem find_of_nearestFrame {keys : List NodeId} {frame : NodeId}
    (nearest : NearestFrame tree keys frame) :
    ∃ scope ∈ model.scopes, scope.key = frame ∧
      (keys.filterMap (findScope? model.scopes)).find? (fun other => other.kind != .comprehension) =
        some scope := by
  induction nearest with
  | @here opener kind rest inside opens other =>
      obtain ⟨scope, ⟨isScope, node⟩, isKind, found⟩ :=
        exists_introduced settles wellFormed inside opens
      refine ⟨scope, isScope, by rw [Scope.key, node], ?_⟩
      rw [List.filterMap_cons, found]
      exact List.find?_cons_of_pos (by simpa [isKind] using other)
  | @beyond opener rest frame inside opens _ induction =>
      obtain ⟨scope, _, isKind, found⟩ := exists_introduced settles wellFormed inside opens
      obtain ⟨target, isTarget, key, climbed⟩ := induction
      refine ⟨target, isTarget, key, ?_⟩
      rw [List.filterMap_cons, found]
      exact (List.find?_cons_of_neg (by simp [isKind])).trans climbed

theorem introduces_scopeOf {construct node : Node} (inside : construct ∈ tree.nodes)
    (member : node ∈ construct.innerParts) : model.Introduces construct (model.scopeOf node) := by
  obtain ⟨spot, visited⟩ := Spot.Visited.exists_of_mem inside
  have opens : ∃ kind, construct.form.scopeKind? = some kind := by
    unfold Node.innerParts at member
    split at member
    all_goals first
      | next form => exact ⟨_, by rw [form]; rfl⟩
      | cases member
  obtain ⟨kind, opens⟩ := opens
  obtain ⟨scope, introduced, _, found⟩ := exists_introduced settles wellFormed inside opens
  have same : model.scopeOf node = scope := by
    rcases Spot.standsIn_inner wellFormed visited member with ⟨isCallable, isParameter⟩ | stands
    · have placed := (Event.Parameterised.mk wellFormed inside isCallable isParameter).placement_eq
      rw [scopeOf, settles.placement, placed, Option.bind_some, found]
      rfl
    · obtain ⟨isScope, key⟩ := scopeOf_standsIn settles wellFormed stands
      apply eq_of_settled_key settles wellFormed isScope introduced.1
      rw [key, Scope.key, introduced.2]
  rw [same]
  exact introduced

theorem scopeOf_outer {construct node : Node} (inside : construct ∈ tree.nodes)
    (member : node ∈ construct.outerParts) : model.scopeOf node = model.scopeOf construct := by
  obtain ⟨spot, visited⟩ := Spot.Visited.exists_of_mem inside
  have notParameter : ¬ tree.IsParameter construct := by
    apply wellFormed.not_isParameter
    intro name hint form
    rw [Node.outerParts, form] at member
    cases member
  exact scopeOf_eq settles wellFormed (Spot.standsIn_outer wellFormed visited member)
    ⟨spot, visited, notParameter, rfl⟩

theorem scopeOf_assigned {expression node : Node} (inside : expression ∈ tree.nodes)
    (member : node ∈ expression.assignedParts) :
    model.nearestFrame? (model.scopeOf expression) = some (model.scopeOf node) := by
  obtain ⟨spot, visited⟩ := Spot.Visited.exists_of_mem inside
  have notParameter : ¬ tree.IsParameter expression := by
    apply wellFormed.not_isParameter
    intro name hint form
    rw [Node.assignedParts, form] at member
    cases member
  have general := List.ne_nil_of_mem (Node.assigned_mem_children member)
  obtain ⟨framed, _⟩ := (visited.framed wellFormed).resolve_left general
  obtain ⟨frame, isFrame, frameKey, found⟩ := find_of_nearestFrame settles wellFormed framed
  obtain ⟨isScope, key⟩ :=
    scopeOf_standsIn settles wellFormed (Spot.standsIn_assigned wellFormed visited member)
  rw [nearestFrame?, scopes_of_chain settles wellFormed visited notParameter general, found,
    eq_of_settled_key settles wellFormed isScope isFrame (key.trans frameKey.symm)]

theorem scopeOf_other {parent node : Node} (inside : parent ∈ tree.nodes)
    (isChild : node ∈ parent.children) (free : ¬ tree.IsRuled node) :
    model.scopeOf node = model.scopeOf parent := by
  obtain ⟨spot, visited⟩ := Spot.Visited.exists_of_mem inside
  have notParameter : ¬ tree.IsParameter parent := by
    rintro ⟨callable, member, isCallable, isParameter⟩
    exact free (wellFormed.isRuled_of_hint member isCallable isParameter isChild)
  exact scopeOf_eq settles wellFormed (Spot.standsIn_other wellFormed visited isChild free)
    ⟨spot, visited, notParameter, rfl⟩

/-- The table gives a node no scope but the one that the rule gives it. -/
theorem LexicalScope.eq_scopeOf {node : Node} {scope : Scope}
    (lexical : model.LexicalScope node scope) : scope = model.scopeOf node := by
  have source := settles.source
  induction lexical with
  | module =>
      rw [source]
      exact (scopeOf_module settles wellFormed (Spot.standsIn_root wellFormed)).symm
  | statement member =>
      rw [source] at member
      have stands := Spot.standsIn_statement wellFormed member
      exact (scopeOf_module settles wellFormed stands).symm
  | inner inside member introduced =>
      rw [source] at inside
      have other := introduces_scopeOf settles wellFormed inside member
      apply eq_of_settled_key settles wellFormed introduced.1 other.1
      rw [Scope.key, Scope.key, introduced.2, other.2]
  | outer inside member _ induction =>
      rw [source] at inside
      rw [induction, scopeOf_outer settles wellFormed inside member]
  | assigned inside member _ nearest induction =>
      rw [source] at inside
      rw [induction, scopeOf_assigned settles wellFormed inside member] at nearest
      exact (Option.some.inj nearest).symm
  | other inside isChild free _ induction =>
      rw [source] at inside free
      rw [induction, scopeOf_other settles wellFormed inside isChild free]

/-- The rule gives every node the scope of the table. -/
theorem lexicalScope_scopeOf {node : Node} (member : node ∈ tree.nodes) :
    model.LexicalScope node (model.scopeOf node) := by
  have source := settles.source
  -- The rule for a part asks for the scope of its construct, which lies around it.
  refine Node.outwardInduction ?_ member
  clear member node
  intro node member induction
  rcases Node.exists_parent member with rfl | ⟨parent, inside, isChild⟩
  · rw [scopeOf_module settles wellFormed (Spot.standsIn_root wellFormed)]
    rw [← source]
    exact .module
  · by_cases ruled : tree.IsRuled node
    · rcases ruled with isStatement | ⟨construct, within, isInner | isOuter | isAssigned⟩
      · have stands := Spot.standsIn_statement wellFormed isStatement
        rw [scopeOf_module settles wellFormed stands]
        rw [← source] at isStatement
        exact .statement isStatement
      · have introduced := introduces_scopeOf settles wellFormed within isInner
        rw [← source] at within
        exact .inner within isInner introduced
      · obtain ⟨child, isChild, below⟩ := Node.exists_child_of_outerParts isOuter
        have around := induction construct within child isChild below
        rw [scopeOf_outer settles wellFormed within isOuter]
        rw [← source] at within
        exact .outer within isOuter around
      · have below := Node.assigned_mem_children isAssigned
        have around := induction construct within node below (Node.self_mem_nodes node)
        have nearest := scopeOf_assigned settles wellFormed within isAssigned
        rw [← source] at within
        exact .assigned within isAssigned around nearest
    · have around := induction parent inside node isChild (Node.self_mem_nodes node)
      rw [scopeOf_other settles wellFormed inside isChild ruled]
      rw [← source] at inside ruled
      exact .other inside isChild ruled around

end

/-- The scope of every node is the one that the rule of the language gives it. -/
theorem scopeOf_is_lexical {path : String} {tree : Node} {model : Model}
    (wellFormed : tree.WellFormed) (built : build path tree = .ok model) {node : Node}
    (member : node ∈ tree.nodes) (scope : Scope) :
    model.LexicalScope node scope ↔ scope = model.scopeOf node := by
  have settles := settles_of_build built
  constructor
  · exact LexicalScope.eq_scopeOf settles wellFormed
  · rintro rfl
    exact lexicalScope_scopeOf settles wellFormed member

/-- A function with an annotated parameter that has a default; it returns a list comprehension whose
elements are assignment expressions. -/
def collectingModule : Node :=
  .mk .module ⟨0, .root, none⟩ [
    .mk (.functionDef false "f" none) ⟨1, .body, some ⟨⟨1, 0⟩, ⟨2, 32⟩⟩⟩ [
      .mk (.parameters []) ⟨2, .parameters, none⟩ [
        .mk (.parameter "a" (some (.text "T"))) ⟨3, .positional, some ⟨⟨1, 6⟩, ⟨1, 10⟩⟩⟩ [
          .mk (.name "T" .load) ⟨4, .typeHint, some ⟨⟨1, 9⟩, ⟨1, 10⟩⟩⟩ []],
        .mk (.name "x" .load) ⟨5, .default, some ⟨⟨1, 13⟩, ⟨1, 14⟩⟩⟩ []],
      .mk .returnStmt ⟨6, .body, some ⟨⟨2, 4⟩, ⟨2, 32⟩⟩⟩ [
        .mk (.comprehension .list) ⟨7, .value, some ⟨⟨2, 11⟩, ⟨2, 32⟩⟩⟩ [
          .mk .namedExpr ⟨8, .element, some ⟨⟨2, 13⟩, ⟨2, 19⟩⟩⟩ [
            .mk (.name "y" .store) ⟨9, .target, some ⟨⟨2, 13⟩, ⟨2, 14⟩⟩⟩ [],
            .mk (.name "b" .load) ⟨10, .value, some ⟨⟨2, 18⟩, ⟨2, 19⟩⟩⟩ []],
          .mk (.clause false) ⟨11, .clause, none⟩ [
            .mk (.name "b" .store) ⟨12, .target, some ⟨⟨2, 25⟩, ⟨2, 26⟩⟩⟩ [],
            .mk (.name "a" .load) ⟨13, .iterable, some ⟨⟨2, 30⟩, ⟨2, 31⟩⟩⟩ []]]]]]

/-- The parameter belongs to the function, its annotation and its default to the module; the target
of the assignment expression and the first iterable belong to the function, the value of the
assignment expression and the target of the clause to the comprehension. -/
theorem scopeOf_is_lexical_collecting :
    collectingModule.WellFormed ∧ ∃ model, build "m.py" collectingModule = .ok model ∧
      ∀ entry ∈ [(3, "m.py::f"), (4, "m.py::<module>"), (5, "m.py::<module>"), (9, "m.py::f"),
          (10, "m.py::f.<listcomp>"), (12, "m.py::f.<listcomp>"), (13, "m.py::f")],
        ∃ node ∈ collectingModule.nodes, node.id = entry.1 ∧
          ∃ scope, model.LexicalScope node scope ∧ scope.id = entry.2 := by
  have wellFormed : collectingModule.WellFormed := ⟨by decide, by decide⟩
  have checked : (build "m.py" collectingModule).toOption.any (fun model =>
      [(3, "m.py::f"), (4, "m.py::<module>"), (5, "m.py::<module>"), (9, "m.py::f"),
        (10, "m.py::f.<listcomp>"), (12, "m.py::f.<listcomp>"), (13, "m.py::f")].all (fun entry =>
          collectingModule.nodes.any (fun node =>
            node.id = entry.1 && (model.scopeOf node).id = entry.2))) = true := by cbv
  obtain ⟨model, built, known⟩ := exists_of_check checked
  refine ⟨wellFormed, model, built, ?_⟩
  intro entry listed
  have found := List.all_eq_true.mp known entry listed
  simp only [List.any_eq_true, Bool.and_eq_true, decide_eq_true_eq] at found
  obtain ⟨node, member, id, scopeId⟩ := found
  exact ⟨node, member, id, _, (scopeOf_is_lexical wellFormed built member _).mpr rfl, scopeId⟩

end Model

end SafeRefactor
