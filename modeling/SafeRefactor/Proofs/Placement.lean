import SafeRefactor.Proofs.Visit
import SafeRefactor.Scope.Model

/-!
# Where nodes are evaluated

Every node of a module is visited at one spot.  The scopes around the spot are opened
by nodes that lie around each other, the module last, and the table of placements
gives the innermost of them.  Statements are never inside a lambda or a
comprehension, so the scopes around a statement are functions, classes and the
module.
-/

namespace SafeRefactor

namespace Spot

namespace Reaches

theorem mem {spot inner : Spot} {node lower : Node} (reached : spot.Reaches node inner lower) :
    lower ∈ node.nodes := by
  induction reached with
  | here spot node => exact Node.self_mem_nodes node
  | there isChild _ induction => exact Node.nodes_of_child isChild induction

theorem exists_of_mem {spot : Spot} {node lower : Node} (member : lower ∈ node.nodes) :
    ∃ inner, spot.Reaches node inner lower := by
  induction node using Node.induction generalizing spot with
  | step form info children induction =>
      rcases Node.mem_nodes_mk.mp member with rfl | ⟨child, isChild, inside⟩
      · exact ⟨spot, .here spot _⟩
      · obtain ⟨inner, reached⟩ := induction child isChild inside
        exact ⟨inner, .there isChild reached⟩

/-- The visit comes to each node once. -/
theorem unique {spot first second : Spot} {node lower : Node} (distinct : node.Distinct)
    (left : spot.Reaches node first lower) (right : spot.Reaches node second lower) :
    first = second := by
  induction left with
  | here spot node =>
      cases right with
      | here => rfl
      | there isChild reached => exact absurd reached.mem (Node.not_mem_nodes_of_child isChild)
  | there isChild reached induction =>
      cases right with
      | here => exact absurd reached.mem (Node.not_mem_nodes_of_child isChild)
      | there isOther other =>
          obtain rfl := distinct.child_eq isChild isOther reached.mem other.mem
          exact induction (distinct.of_mem (Node.child_mem_nodes isChild)) other

theorem trans {spot middle inner : Spot} {node between lower : Node}
    (first : spot.Reaches node middle between) (second : middle.Reaches between inner lower) :
    spot.Reaches node inner lower := by
  induction first with
  | here => exact second
  | there isChild _ induction => exact .there isChild (induction second)

/-- What holds of the first node and passes from each node to its children holds of every node
that the visit comes to. -/
theorem invariant {holds : Spot → Node → Prop} {spot inner : Spot} {node lower : Node}
    (reached : spot.Reaches node inner lower) (start : holds spot node)
    (step : ∀ {inner : Spot} {parent child : Node}, spot.Reaches node inner parent →
      child ∈ parent.children → holds inner parent → holds (inner.toChild parent child) child) :
    holds inner lower := by
  induction reached with
  | here => exact start
  | there isChild _ induction =>
      apply induction
      · exact step (.here _ _) isChild start
      · intro inner parent child further
        exact step (.there isChild further)

end Reaches

/-- The pass over a module comes to the node at the spot. -/
def Visited (tree : Node) (spot : Spot) (node : Node) : Prop :=
  (Event.atRoot tree).Reaches tree spot node

end Spot

def Form.scopeKind? : Form → Option ScopeKind
  | .module => some .module
  | .functionDef .. => some .function
  | .classDef _ => some .classBody
  | .lambda => some .lambda
  | .comprehension _ => some .comprehension
  | _ => none

/-- The name that a construct binds in the scope in which it is evaluated. -/
def Form.boundName? : Form → Option String
  | .functionDef _ id _ | .classDef id | .name id .store | .name id .del => some id
  | .alias id asName => if id = "*" then none else some (importedName id asName)
  | .handler (some id) _ | .matchAs (some id) | .matchStar (some id) | .matchMapping (some id) =>
      if id.isEmpty then none else some id
  | _ => none

def Form.isCallable : Form → Bool
  | .functionDef .. | .lambda => true
  | _ => false

namespace Event

def scopeName : Form → String
  | .functionDef _ name _ | .classDef name => name
  | .lambda => "<lambda>"
  | .comprehension kind => kind.scopeName
  | _ => "<module>"

/-- The scopes around the scope that a node opens. -/
def outerOf (place : Place) (node : Node) : List NodeId :=
  match node.form with
  | .module => []
  | _ => place.chain

/-- The events that a node contributes by itself, by what the node is. -/
inductive Owned (place : Place) (node : Node) : Event → Prop where
  | placed : Owned place node (.places node.id place.scope)
  | opened (kind : ScopeKind) : node.form.scopeKind? = some kind →
      Owned place node (.opens node kind (scopeName node.form) (outerOf place node))
  | bound (name : String) : node.form.boundName? = some name →
      Owned place node (.binds place.scope name ⟨node, place.parent⟩)
  | parameterPlaced (parameter : Node) : node.form.isCallable = true →
      parameter ∈ node.parameters → Owned place node (.places parameter.id node.id)
  | parameterBound (parameter : Node) : node.form.isCallable = true →
      parameter ∈ node.parameters →
      Owned place node (.binds node.id parameter.parameterName
        ⟨parameter, node.only? .parameters⟩)
  | declaredGlobal (names : List String) : node.form = .globalStmt names →
      Owned place node (.declaresGlobal place.scope names)
  | declaredNonlocal (names : List String) : node.form = .nonlocalStmt names →
      Owned place node (.declaresNonlocal place.scope names)

theorem owned_iff {place : Place} {node : Node} {event : Event} :
    Owned place node event ↔
      event = .places node.id place.scope ∨
      (∃ kind, node.form.scopeKind? = some kind ∧
        event = .opens node kind (scopeName node.form) (outerOf place node)) ∨
      (∃ name, node.form.boundName? = some name ∧
        event = .binds place.scope name ⟨node, place.parent⟩) ∨
      (node.form.isCallable = true ∧ event ∈ ofParameters node) ∨
      (∃ names, node.form = .globalStmt names ∧ event = .declaresGlobal place.scope names) ∨
      ∃ names, node.form = .nonlocalStmt names ∧ event = .declaresNonlocal place.scope names := by
  simp only [ofParameters, List.mem_flatMap, List.mem_cons, List.not_mem_nil, or_false]
  constructor
  · rintro (_ | _ | _ | _ | _ | _ | _)
    · exact Or.inl rfl
    all_goals grind
  · rintro (rfl | ⟨kind, opens, rfl⟩ | ⟨name, binds, rfl⟩ |
      ⟨callable, parameter, member, rfl | rfl⟩ | ⟨names, form, rfl⟩ | ⟨names, form, rfl⟩)
    · exact .placed
    · exact .opened kind opens
    · exact .bound name binds
    · exact .parameterPlaced parameter callable member
    · exact .parameterBound parameter callable member
    · exact .declaredGlobal names form
    · exact .declaredNonlocal names form

theorem mem_own_iff {place : Place} {node : Node} (isModule : node.form = .module →
    place.scope = node.id) {event : Event} :
    event ∈ own place node ↔ Owned place node event := by
  rw [owned_iff]
  obtain ⟨form, info, children⟩ := node
  cases form with
  | functionDef isAsync name returns =>
      simp only [own, Form.scopeKind?, Form.boundName?, Form.isCallable, scopeName, outerOf,
        Node.form_mk, List.mem_cons, Option.some.injEq, exists_eq_left', reduceCtorEq, false_and,
        exists_false, or_false, true_and]
      grind
  | classDef name =>
      simp only [own, Form.scopeKind?, Form.boundName?, Form.isCallable, scopeName, outerOf,
        Node.form_mk, List.mem_cons, Option.some.injEq, exists_eq_left', reduceCtorEq, false_and,
        exists_false, or_false, List.not_mem_nil, Bool.false_eq_true]
      grind
  | module =>
      have scope : place.scope = info.id := isModule rfl
      simp [own, Form.scopeKind?, Form.boundName?, Form.isCallable, scopeName, outerOf, scope,
        or_comm]
  | name id context =>
      cases context <;>
        simp [own, Form.scopeKind?, Form.boundName?, Form.isCallable]
  | handler name caught =>
      cases name with
      | none => simp [own, Form.scopeKind?, Form.boundName?, Form.isCallable, ofCapture]
      | some name =>
          by_cases empty : name = "" <;>
            simp [own, Form.scopeKind?, Form.boundName?, Form.isCallable, ofCapture, empty]
  | matchAs name | matchStar name | matchMapping name =>
      cases name with
      | none => simp [own, Form.scopeKind?, Form.boundName?, Form.isCallable, ofCapture]
      | some name =>
          by_cases empty : name = "" <;>
            simp [own, Form.scopeKind?, Form.boundName?, Form.isCallable, ofCapture, empty]
  | _ =>
      simp [own, Form.scopeKind?, Form.boundName?, Form.isCallable, scopeName, outerOf, ofCapture]
      try grind

end Event

namespace Spot.Visited

theorem mem {tree node : Node} {spot : Spot} (visited : Visited tree spot node) :
    node ∈ tree.nodes :=
  Reaches.mem visited

theorem exists_of_mem {tree node : Node} (member : node ∈ tree.nodes) :
    ∃ spot, Visited tree spot node :=
  Reaches.exists_of_mem member

theorem root (tree : Node) : Visited tree (Event.atRoot tree) tree :=
  .here _ _

theorem unique {tree node : Node} {first second : Spot} (wellFormed : tree.WellFormed)
    (left : Visited tree first node) (right : Visited tree second node) : first = second :=
  Reaches.unique wellFormed.distinct left right

private theorem scope_of_module {tree node : Node} {spot : Spot} (wellFormed : tree.WellFormed)
    (visited : Visited tree spot node) (form : node.form = .module) :
    spot.place.scope = node.id := by
  obtain rfl := wellFormed.eq_of_module visited.mem form
  obtain rfl := visited.unique wellFormed (root node)
  rfl

end Spot.Visited

theorem Node.WellFormed.parameter_form {tree callable parameter : Node}
    (wellFormed : tree.WellFormed) (inside : callable ∈ tree.nodes)
    (isCallable : callable.form.isCallable = true) (member : parameter ∈ callable.parameters) :
    parameter ∈ tree.nodes ∧ ∃ name hint, parameter.form = .parameter name hint := by
  simp only [Node.parameters, Node.parameterParts, List.mem_filter] at member
  obtain ⟨member, role⟩ := member
  cases found : callable.only? .parameters with
  | none =>
      rw [found] at member
      cases member
  | some list =>
      rw [found] at member
      have isList : list ∈ callable.children := List.mem_of_find?_eq_some found
      have listRole : list.role = .parameters := by simpa using List.find?_some found
      have asked : (list.role, Slot.parameterList) ∈ callable.form.slots := by
        rw [listRole]
        generalize callable.form = form at isCallable
        cases form with
        | functionDef | lambda => simp [Form.slots]
        | _ => cases isCallable
      have fitting := wellFormed.fits_of_slot inside isList asked
      obtain ⟨defaults, form⟩ := Node.form_of_parameterList fitting
      have inList : list ∈ tree.nodes := Node.nodes_trans (Node.child_mem_nodes isList) inside
      refine ⟨Node.nodes_trans (Node.child_mem_nodes member) inList, ?_⟩
      apply Node.form_of_parameter
      apply Node.fits_of_slot fitting member
      rw [form]
      exact Event.parameter_slot role

/-- A function or lambda of the tree has the node as a parameter. -/
def Node.IsParameter (tree node : Node) : Prop :=
  ∃ callable ∈ tree.nodes, callable.form.isCallable = true ∧ node ∈ callable.parameters

theorem Node.WellFormed.not_isParameter {tree node : Node} (wellFormed : tree.WellFormed)
    (other : ∀ name hint, node.form ≠ .parameter name hint) : ¬ tree.IsParameter node := by
  rintro ⟨callable, inside, isCallable, member⟩
  obtain ⟨_, name, hint, form⟩ := wellFormed.parameter_form inside isCallable member
  exact other name hint form

namespace Event

/-- The events of a module, by the nodes that contribute them. -/
theorem mem_ofModule_iff_owned {tree : Node} {event : Event} (wellFormed : tree.WellFormed) :
    event ∈ ofModule tree ↔
      ∃ spot node, Spot.Visited tree spot node ∧ Owned spot.place node event := by
  rw [mem_ofModule_iff wellFormed.grammatical wellFormed.distinct]
  constructor
  · rintro ⟨spot, node, visited, member⟩
    have isModule := Spot.Visited.scope_of_module wellFormed visited
    exact ⟨spot, node, visited, (mem_own_iff isModule).mp member⟩
  · rintro ⟨spot, node, visited, owned⟩
    have isModule := Spot.Visited.scope_of_module wellFormed visited
    exact ⟨spot, node, visited, (mem_own_iff isModule).mpr owned⟩

/-- A node that no callable has as a parameter is placed in the scope in which it is visited, only
there. -/
theorem places_iff_of_not_isParameter {tree node : Node} {spot : Spot} {scope : NodeId}
    (wellFormed : tree.WellFormed) (visited : Spot.Visited tree spot node)
    (other : ¬ tree.IsParameter node) :
    .places node.id scope ∈ ofModule tree ↔ scope = spot.place.scope := by
  rw [mem_ofModule_iff_owned wellFormed]
  constructor
  · rintro ⟨place, placed, reached, owned⟩
    generalize same : Event.places node.id scope = event at owned
    cases owned with
    | placed =>
        simp only [Event.places.injEq] at same
        obtain rfl := wellFormed.distinct.eq_of_id visited.mem reached.mem same.1
        rw [same.2, reached.unique wellFormed visited]
    | parameterPlaced parameter callable member =>
        simp only [Event.places.injEq] at same
        have inside := (wellFormed.parameter_form reached.mem callable member).1
        obtain rfl := wellFormed.distinct.eq_of_id visited.mem inside same.1
        exact absurd ⟨placed, reached.mem, callable, member⟩ other
    | _ => cases same
  · rintro rfl
    exact ⟨spot, node, visited, .placed⟩

/-- A node that is not a parameter is placed in the scope in which it is visited, only there. -/
theorem places_iff {tree node : Node} {spot : Spot} {scope : NodeId}
    (wellFormed : tree.WellFormed) (visited : Spot.Visited tree spot node)
    (other : ∀ name hint, node.form ≠ .parameter name hint) :
    .places node.id scope ∈ ofModule tree ↔ scope = spot.place.scope :=
  places_iff_of_not_isParameter wellFormed visited (wellFormed.not_isParameter other)

theorem opens_iff {tree opener : Node} {kind : ScopeKind} {name : String} {outer : List NodeId}
    (wellFormed : tree.WellFormed) :
    .opens opener kind name outer ∈ ofModule tree ↔
      ∃ spot, Spot.Visited tree spot opener ∧ opener.form.scopeKind? = some kind ∧
        name = scopeName opener.form ∧ outer = outerOf spot.place opener := by
  rw [mem_ofModule_iff_owned wellFormed]
  constructor
  · rintro ⟨spot, node, visited, owned⟩
    generalize same : Event.opens opener kind name outer = event at owned
    cases owned with
    | opened kind opens =>
        obtain ⟨rfl, rfl, rfl, rfl⟩ := Event.opens.inj same
        exact ⟨spot, visited, opens, rfl, rfl⟩
    | _ => cases same
  · rintro ⟨spot, visited, opens, rfl, rfl⟩
    exact ⟨spot, opener, visited, .opened kind opens⟩

/-- A scope binds a name by a construct that is evaluated in it or by a parameter of the callable
that opens it. -/
theorem binds_iff {tree : Node} {scope : NodeId} {name : String} {binding : Binding}
    (wellFormed : tree.WellFormed) :
    .binds scope name binding ∈ ofModule tree ↔
      (∃ spot, Spot.Visited tree spot binding.node ∧ binding.node.form.boundName? = some name ∧
        scope = spot.place.scope ∧ binding.parent = spot.place.parent) ∨
      ∃ callable ∈ tree.nodes, callable.form.isCallable = true ∧
        binding.node ∈ callable.parameters ∧ scope = callable.id ∧
        name = binding.node.parameterName ∧ binding.parent = callable.only? .parameters := by
  rw [mem_ofModule_iff_owned wellFormed]
  constructor
  · rintro ⟨spot, node, visited, owned⟩
    generalize same : Event.binds scope name binding = event at owned
    cases owned with
    | bound name bound =>
        obtain ⟨rfl, rfl, rfl⟩ := Event.binds.inj same
        exact Or.inl ⟨spot, visited, bound, rfl, rfl⟩
    | parameterBound parameter callable member =>
        obtain ⟨rfl, rfl, rfl⟩ := Event.binds.inj same
        exact Or.inr ⟨node, visited.mem, callable, member, rfl, rfl, rfl⟩
    | _ => cases same
  · obtain ⟨node, parent⟩ := binding
    rintro (⟨spot, visited, bound, rfl, rfl⟩ |
      ⟨callable, inside, isCallable, member, rfl, rfl, rfl⟩)
    · exact ⟨spot, node, visited, .bound name bound⟩
    · obtain ⟨spot, visited⟩ := Spot.Visited.exists_of_mem inside
      exact ⟨spot, callable, visited, .parameterBound node isCallable member⟩

end Event

/-- Openers of scopes around each other, innermost first, the module last. -/
inductive Nested (tree : Node) : List Node → Prop where
  | module : Nested tree [tree]
  | inside {spot : Spot} {opener : Node} {openers : List Node} :
      Spot.Visited tree spot opener → opener.form ≠ .module → opener.form.scopeKind?.isSome →
      Nested tree openers → spot.place.chain = openers.map Node.id → Nested tree (opener :: openers)

namespace Nested

theorem visited {tree opener : Node} {openers : List Node} (nested : Nested tree openers)
    (member : opener ∈ openers) : opener ∈ tree.nodes := by
  induction nested with
  | module =>
      obtain rfl := List.mem_singleton.mp member
      exact Node.self_mem_nodes _
  | inside visited _ _ _ _ induction =>
      rcases List.mem_cons.mp member with rfl | later
      · exact visited.mem
      · exact induction later

theorem suffix {tree opener : Node} {openers : List Node} (nested : Nested tree openers)
    (member : opener ∈ openers) : ∃ rest, Nested tree (opener :: rest) ∧ rest ⊆ openers := by
  induction nested with
  | module =>
      obtain rfl := List.mem_singleton.mp member
      exact ⟨[], .module, List.nil_subset _⟩
  | inside visited form opens nested chain induction =>
      rcases List.mem_cons.mp member with rfl | later
      · exact ⟨_, .inside visited form opens nested chain, List.subset_cons_self _ _⟩
      · obtain ⟨rest, inner, covered⟩ := induction later
        exact ⟨rest, inner, List.subset_cons_of_subset _ covered⟩

end Nested

/-- Whether a construct opens a scope in which statements stand. -/
def Form.holdsBody : Form → Bool
  | .module | .functionDef .. | .classDef _ => true
  | _ => false

/-- The scopes of a place are opened by the given nodes, one of which opens its frame. -/
structure Place.Within (tree : Node) (place : Place) (openers : List Node) : Prop where
  nested : Nested tree openers
  chain : place.chain = openers.map Node.id
  frame : ∃ opener ∈ openers, opener.id = place.frame ∧
    ∀ kind, opener.form ≠ .comprehension kind

namespace Place.Within

private theorem ofChain {tree : Node} {place other : Place} {openers : List Node}
    (within : place.Within tree openers) (chain : other.chain = place.chain)
    (frame : other.frame = place.frame) : other.Within tree openers where
  nested := within.nested
  chain := chain.trans within.chain
  frame := by
    rw [frame]
    exact within.frame

theorem enter {tree : Node} {spot : Spot} {openers : List Node} {opener : Node}
    (within : spot.place.Within tree openers) (visited : Spot.Visited tree spot opener)
    (form : opener.form.holdsBody = true ∨ opener.form = .lambda) (inner : opener.form ≠ .module) :
    (spot.place.enter opener).Within tree (opener :: openers) where
  nested := by
    refine .inside visited inner ?_ within.nested within.chain
    generalize opener.form = shape at form
    cases shape with
    | module | functionDef | classDef | lambda => rfl
    | _ => rcases form with form | form <;> cases form
  chain := congrArg (opener.id :: ·) within.chain
  frame := by
    refine ⟨opener, List.mem_cons_self, rfl, ?_⟩
    intro kind same
    rw [same] at form
    rcases form with form | form <;> cases form

theorem enterComprehension {tree : Node} {spot : Spot} {openers : List Node} {opener : Node}
    {kind : ComprehensionKind} (within : spot.place.Within tree openers)
    (visited : Spot.Visited tree spot opener) (form : opener.form = .comprehension kind) :
    (spot.place.enterComprehension opener).Within tree (opener :: openers) where
  nested := by
    refine .inside visited ?_ ?_ within.nested within.chain
    · rw [form]
      exact nofun
    · rw [form]
      rfl
  chain := congrArg (opener.id :: ·) within.chain
  frame := by
    obtain ⟨frame, member, same⟩ := within.frame
    exact ⟨frame, List.mem_cons_of_mem _ member, same⟩

end Place.Within

theorem Node.WellFormed.isBlock_of_child {tree parent child : Node} (wellFormed : tree.WellFormed)
    (inside : parent ∈ tree.nodes) (isChild : child ∈ parent.children)
    (block : child.form.isBlock = true) : parent.form.isBlock = true := by
  obtain ⟨slot, listed, fitting⟩ := wellFormed.slot_of_child inside isChild
  exact Form.isBlock_of_slot listed (Slot.isBlock_of_admits (Node.admits_of_fits fitting) block)

namespace Spot

/-- What is known of the spot at which a node is visited.  The target of an assignment expression
is the one kind of node whose scopes are not those around its scope, and it has no children. -/
inductive Sited (tree : Node) (spot : Spot) (node : Node) : Prop where
  | general {openers others : List Node} : spot.place.Within tree openers →
      spot.iterables.Within tree others →
      (node.form.isBlock = true → ∀ opener ∈ openers, opener.form.holdsBody = true) →
      Sited tree spot node
  | target {name : String} {opener : Node} {rest : List Node} : node.form = .name name .store →
      node.children = [] → Nested tree (opener :: rest) → spot.place.scope = opener.id →
      Sited tree spot node

namespace Sited

private theorem of_within {tree node : Node} {place : Place} {openers : List Node}
    (within : place.Within tree openers)
    (block : node.form.isBlock = true → ∀ opener ∈ openers, opener.form.holdsBody = true) :
    Sited tree (Spot.of place) node :=
  .general within within block

theorem atRoot {tree : Node} (wellFormed : tree.WellFormed) (node : Node) :
    Sited tree (Event.atRoot tree) node := by
  have form := Node.Grammatical.form_eq wellFormed.grammatical
  apply of_within
  · refine ⟨.module, rfl, tree, List.mem_singleton_self tree, rfl, ?_⟩
    intro kind same
    rw [form] at same
    cases same
  · intro _ opener member
    rw [List.mem_singleton.mp member, form]
    rfl

end Sited

theorem Visited.sited {tree node : Node} {spot : Spot} (wellFormed : tree.WellFormed)
    (visited : Visited tree spot node) : Sited tree spot node := by
  apply Reaches.invariant visited (Sited.atRoot wellFormed tree)
  intro spot parent child reached isChild sited
  have inside : parent ∈ tree.nodes := reached.mem
  cases sited with
  | target _ none _ _ =>
      rw [none] at isChild
      cases isChild
  | @general openers others within iterables block =>
      have blockChild : child.form.isBlock = true →
          ∀ opener ∈ openers, opener.form.holdsBody = true :=
        fun isBlock => block (wellFormed.isBlock_of_child inside isChild isBlock)
      have here : (spot.place.inside parent).Within tree openers := within.ofChain rfl rfl
      -- A statement below an expression would make the expression a block.
      have expression : parent.form.isBlock = false → child.form.isBlock = true → False := by
        intro other isBlock
        have isParent := wellFormed.isBlock_of_child inside isChild isBlock
        rw [other] at isParent
        cases isParent
      have entered : parent.form.holdsBody = true → parent.form ≠ .module →
          Sited tree (of (spot.place.enter parent)) child := by
        intro holds inner
        apply Sited.of_within (within.enter reached (Or.inl holds) inner)
        intro isBlock opener member
        rcases List.mem_cons.mp member with rfl | later
        · exact holds
        · exact blockChild isBlock opener later
      unfold toChild step
      split
      · next form =>
          obtain rfl := wellFormed.eq_of_module inside form
          exact Sited.atRoot wellFormed child
      · next form _ => exact entered (by rw [form]; rfl) (by rw [form]; exact nofun)
      · next form _ => exact entered (by rw [form]; rfl) (by rw [form]; exact nofun)
      · next form _ =>
          apply Sited.of_within (within.enter reached (Or.inr form) (by rw [form]; exact nofun))
          intro isBlock
          exact absurd isBlock (expression (by rw [form]; rfl))
      · next form _ =>
          have inner := within.enterComprehension reached form
          have other := expression (by rw [form]; rfl)
          split
          · exact .general inner here (fun isBlock => absurd isBlock other)
          · exact Sited.of_within inner (fun isBlock => absurd isBlock other)
      · next form _ =>
          apply Sited.of_within (within.enterComprehension reached form)
          intro isBlock
          exact absurd isBlock (expression (by rw [form]; rfl))
      · next form role =>
          have asked : (child.role, Slot.nameTarget) ∈ parent.form.slots := by
            rw [form, role]
            simp [Form.slots]
          have fitting := wellFormed.fits_of_slot inside isChild asked
          obtain ⟨id, named⟩ := Node.form_of_nameTarget fitting
          have alone : child.children = [] := Node.children_eq_nil fitting (by rw [named]; rfl)
          obtain ⟨opener, member, same, _⟩ := within.frame
          obtain ⟨rest, nested, _⟩ := within.nested.suffix member
          exact .target named alone nested same.symm
      · next form _ =>
          split
          · exact .general within iterables blockChild
          · exact Sited.of_within here blockChild
      · next form _ =>
          have around : (spot.iterables.inside parent).Within tree others :=
            iterables.ofChain rfl rfl
          apply Sited.of_within around
          intro isBlock
          exact absurd isBlock (expression (by rw [form]; rfl))
      · exact Sited.of_within here blockChild

/-- The scope in which a node is evaluated is opened by a node with the module around it. -/
theorem Visited.scope_opened {tree node : Node} {spot : Spot} (wellFormed : tree.WellFormed)
    (visited : Visited tree spot node) :
    ∃ opener rest, Nested tree (opener :: rest) ∧ opener.id = spot.place.scope := by
  cases visited.sited wellFormed with
  | @general openers _ within _ _ =>
      cases openers with
      | nil => cases within.nested
      | cons opener rest => exact ⟨opener, rest, within.nested, (List.cons.inj within.chain).1.symm⟩
  | target _ _ nested same => exact ⟨_, _, nested, same.symm⟩

/-- The scopes around a statement are those of functions, classes and the module. -/
theorem Visited.block_within {tree node : Node} {spot : Spot} (wellFormed : tree.WellFormed)
    (visited : Visited tree spot node) (block : node.form.isBlock = true) :
    ∃ openers, spot.place.Within tree openers ∧
      ∀ opener ∈ openers, opener.form.holdsBody = true := by
  cases visited.sited wellFormed with
  | general within _ holds => exact ⟨_, within, holds block⟩
  | target named _ _ _ =>
      rw [named] at block
      cases block

theorem Visited.nested {tree node : Node} {spot : Spot} {kind : ScopeKind}
    (wellFormed : tree.WellFormed) (visited : Visited tree spot node)
    (opens : node.form.scopeKind? = some kind) :
    ∃ rest, Nested tree (node :: rest) ∧ Event.outerOf spot.place node = rest.map Node.id := by
  by_cases form : node.form = .module
  · obtain rfl := wellFormed.eq_of_module visited.mem form
    exact ⟨[], .module, by simp [Event.outerOf, form]⟩
  · have outer : Event.outerOf spot.place node = spot.place.chain := by
      unfold Event.outerOf
      split
      · next same => exact absurd same form
      · rfl
    cases visited.sited wellFormed with
    | @general openers _ within _ _ =>
        have nested : Nested tree (node :: openers) :=
          .inside visited form (by rw [opens]; rfl) within.nested within.chain
        exact ⟨openers, nested, outer.trans within.chain⟩
    | target named _ _ _ =>
        rw [named] at opens
        cases opens

end Spot

namespace Event

theorem nested_of_opens {tree opener : Node} {kind : ScopeKind} {name : String}
    {outer : List NodeId} (wellFormed : tree.WellFormed)
    (opens : .opens opener kind name outer ∈ ofModule tree) :
    ∃ rest, Nested tree (opener :: rest) ∧ outer = rest.map Node.id := by
  obtain ⟨spot, visited, kind, _, rfl⟩ := (opens_iff wellFormed).mp opens
  exact visited.nested wellFormed kind

theorem opens_of_nested {tree opener : Node} {rest : List Node} (wellFormed : tree.WellFormed)
    (nested : Nested tree (opener :: rest)) :
    ∃ kind name, .opens opener kind name (rest.map Node.id) ∈ ofModule tree := by
  cases nested with
  | module =>
      have form := Node.Grammatical.form_eq wellFormed.grammatical
      refine ⟨.module, _, (opens_iff wellFormed).mpr ⟨_, .root tree, ?_, rfl, ?_⟩⟩
      · rw [form]
        rfl
      · simp [outerOf, form]
  | @inside spot _ _ visited form opens _ chain =>
      obtain ⟨kind, opens⟩ := Option.isSome_iff_exists.mp opens
      refine ⟨kind, _, (opens_iff wellFormed).mpr ⟨spot, visited, opens, rfl, ?_⟩⟩
      unfold outerOf
      split
      · next same => exact absurd same form
      · exact chain.symm

end Event

end SafeRefactor
