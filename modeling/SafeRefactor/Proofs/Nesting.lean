import SafeRefactor.Proofs.ScopeTree
import SafeRefactor.Proofs.Tracking

/-!
# Scopes and statements nest alike

A node that lies in a statement is evaluated in the scope of the statement or in one inside
it.  Conversely, what is evaluated in the scope of a function or inside it is a parameter of
the function or lies in one of its statements: decorators, defaults and annotations stand
outside.
-/

namespace SafeRefactor

theorem Form.functionDef_of_isFunction {form : Form} (isFunction : form.isFunction = true) :
    ∃ isAsync name returns, form = .functionDef isAsync name returns := by
  cases form with
  | functionDef isAsync name returns => exact ⟨isAsync, name, returns, rfl⟩
  | _ => cases isFunction

theorem Form.isCallable_of_isFunction {form : Form} (isFunction : form.isFunction = true) :
    form.isCallable = true := by
  obtain ⟨isAsync, name, returns, rfl⟩ := functionDef_of_isFunction isFunction
  rfl

namespace Node

/-- A node below a construct with no statement between them. -/
inductive HasPart (construct : Node) : Node → Prop where
  | child {part : Node} : part ∈ construct.children → HasPart construct part
  | further {middle part : Node} : HasPart construct middle → middle.role.isBlock = false →
      part ∈ middle.children → HasPart construct part

namespace HasPart

theorem field {construct part : Node} {role : Role} (member : part ∈ construct.field role) :
    construct.HasPart part :=
  .child (mem_field.mp member).1

theorem exists_child {construct part : Node} (isPart : construct.HasPart part) :
    ∃ child ∈ construct.children, part ∈ child.nodes := by
  induction isPart with
  | child isChild => exact ⟨_, isChild, self_mem_nodes _⟩
  | further _ _ isChild induction =>
      obtain ⟨child, member, inside⟩ := induction
      exact ⟨child, member, nodes_trans (child_mem_nodes isChild) inside⟩

/-- A statement around a part of a construct is the part or lies around the construct. -/
theorem mem_statement {root construct part statement : Node} (distinct : root.Distinct)
    (isPart : construct.HasPart part) (within : construct ∈ root.nodes)
    (isStatement : statement ∈ root.nodes) (block : statement.role.isBlock = true)
    (inside : part ∈ statement.nodes) (other : part ≠ statement) : construct ∈ statement.nodes := by
  have parent : ∀ {above below : Node}, above ∈ root.nodes → below ∈ above.children →
      below ∈ statement.nodes → below ≠ statement → above ∈ statement.nodes := by
    intro above below isAbove isChild isBelow different
    rcases exists_parent isBelow with same | ⟨middle, isMiddle, isOther⟩
    · exact absurd same different
    · rw [distinct.parent_eq isAbove (nodes_trans isMiddle isStatement) isChild isOther]
      exact isMiddle
  induction isPart with
  | child isChild => exact parent within isChild inside other
  | @further middle part isPart notBlock isChild induction =>
      obtain ⟨child, isFirst, below⟩ := isPart.exists_child
      have inTree : middle ∈ root.nodes := nodes_trans (nodes_of_child isFirst below) within
      have inStatement := parent inTree isChild inside other
      apply induction inStatement
      rintro rfl
      rw [block] at notBlock
      cases notBlock

private theorem parameterPart {construct part : Node} (member : part ∈ construct.parameterParts) :
    construct.HasPart part := by
  obtain ⟨list, isList, role, inList⟩ := exists_list_of_part member
  exact .further (.child isList) (by rw [role]; rfl) inList

private theorem clausePart {construct clause part : Node} {role : Role}
    (isClause : clause ∈ construct.field .clause) (member : part ∈ clause.field role) :
    construct.HasPart part := by
  have isRole := (mem_field.mp isClause).2
  exact .further (.field isClause) (by rw [isRole]; rfl) (mem_field.mp member).1

private theorem of_innerParts {construct part : Node} (member : part ∈ construct.innerParts) :
    construct.HasPart part := by
  unfold innerParts at member
  split at member
  · rcases List.mem_append.mp member with isParameter | inBody
    · exact parameterPart (List.mem_filter.mp isParameter).1
    · exact field inBody
  · rcases List.mem_append.mp member with isParameter | isResult
    · exact parameterPart (List.mem_filter.mp isParameter).1
    · exact field isResult
  · exact field member
  · simp only [List.mem_append, List.mem_flatMap] at member
    rcases member with ((((element | key) | value) | clause) | ⟨clause, isClause, isPart⟩) |
      ⟨clause, isClause, isPart⟩
    · exact field element
    · exact field key
    · exact field value
    · exact field clause
    · rcases isPart with isTarget | isCondition
      · exact clausePart isClause isTarget
      · exact clausePart isClause isCondition
    · exact clausePart (List.mem_of_mem_tail isClause) isPart
  · cases member

private theorem of_signatureParts {construct part : Node}
    (member : part ∈ construct.signatureParts) :
    construct.HasPart part := by
  rcases List.mem_append.mp member with isDefault | isHint
  · exact parameterPart (List.mem_filter.mp isDefault).1
  · obtain ⟨parameter, isParameter, isField⟩ := List.mem_flatMap.mp isHint
    obtain ⟨listed, role⟩ := List.mem_filter.mp isParameter
    refine .further (parameterPart listed) ?_ (mem_field.mp isField).1
    generalize parameter.role = kind at role
    cases kind with
    | positionalOnly | positional | variadic | keywordOnly | keywordVariadic => rfl
    | _ => cases role

private theorem of_outerParts {construct part : Node} (member : part ∈ construct.outerParts) :
    construct.HasPart part := by
  unfold outerParts at member
  split at member
  · simp only [List.mem_append] at member
    rcases member with (isDecorator | inSignature) | isReturns
    · exact field isDecorator
    · exact of_signatureParts inSignature
    · exact field isReturns
  · exact of_signatureParts member
  · simp only [List.mem_append] at member
    rcases member with (isDecorator | isBase) | isKeyword
    · exact field isDecorator
    · exact field isBase
    · exact field isKeyword
  · obtain ⟨clause, isFirst, isPart⟩ := List.mem_flatMap.mp member
    exact clausePart (List.mem_of_mem_take isFirst) isPart
  · cases member

end HasPart

end Node

namespace Model

/-- How the scope of a node follows from the construct of which it is a part. -/
inductive Derives (model : Model) (tree node : Node) : Prop where
  | module : model.scopeOf node = model.moduleScope → node = tree ∨ node ∈ tree.field .body →
      Derives model tree node
  | inner {construct : Node} : construct ∈ tree.nodes → node ∈ construct.innerParts →
      Derives model tree node
  | same {construct : Node} : construct ∈ tree.nodes → construct.HasPart node →
      ¬ tree.IsParameter construct → model.scopeOf node = model.scopeOf construct →
      Derives model tree node
  | assigned {expression : Node} : expression ∈ tree.nodes → expression.HasPart node →
      ¬ tree.IsParameter expression →
      model.nearestFrame? (model.scopeOf expression) = some (model.scopeOf node) →
      Derives model tree node

section

variable {path : String} {tree : Node} {model : Model} (settles : model.Settles path tree)
  (wellFormed : tree.WellFormed)

include settles wellFormed

theorem mem_chain_nearestFrame {scope frame outer : Scope} (member : scope ∈ model.scopes)
    (nearest : model.nearestFrame? scope = some frame) (isOuter : outer ∈ model.chain scope)
    (kind : outer.kind ≠ .comprehension) : outer ∈ model.chain frame := by
  revert nearest isOuter
  apply inwardInduction settles wellFormed ?_ ?_ member
  · intro nearest isOuter
    have isModule := (moduleScope_header settles wellFormed).2.1
    rw [nearestFrame?, around_module settles wellFormed] at nearest
    simp only [List.find?_cons, isModule] at nearest
    rw [← Option.some.inj nearest]
    exact isOuter
  · intro scope isScope inner induction nearest isOuter
    obtain ⟨_, _, around⟩ := around_of_mem settles wellFormed isScope inner
    by_cases isComprehension : scope.kind = .comprehension
    · rcases List.mem_cons.mp isOuter with rfl | further
      · exact absurd isComprehension kind
      · rw [nearestFrame?, List.find?_cons_of_neg (by simp [isComprehension]), around] at nearest
        rw [around] at further
        exact induction nearest further
    · rw [nearestFrame?, List.find?_cons_of_pos (by simp [isComprehension])] at nearest
      rw [← Option.some.inj nearest]
      exact isOuter

theorem chain_of_inner {construct node : Node} (inside : construct ∈ tree.nodes)
    (member : node ∈ construct.innerParts) :
    model.Introduces construct (model.scopeOf node) ∧
      model.chain (model.scopeOf node) =
        model.scopeOf node :: model.chain (model.scopeOf construct) := by
  have introduced := introduces_scopeOf settles wellFormed inside member
  refine ⟨introduced, ?_⟩
  have opens := (opens_of_mem settles wellFormed introduced.1).2
  have inner : (model.scopeOf node).kind ≠ .module := by
    intro isModule
    rw [isModule, introduced.2] at opens
    unfold Node.innerParts at member
    generalize construct.form = form at opens member
    cases form with
    | module => cases member
    | _ => cases opens
  have around := (around_of_mem settles wellFormed introduced.1 inner).2.2
  rw [introduced.2] at around
  rw [← around]
  rfl

theorem derives_scopeOf {node : Node} (member : node ∈ tree.nodes) : model.Derives tree node := by
  rcases Node.exists_parent member with rfl | ⟨parent, inside, isChild⟩
  · exact .module (scopeOf_module settles wellFormed (Spot.standsIn_root wellFormed)) (Or.inl rfl)
  by_cases ruled : tree.IsRuled node
  · rcases ruled with isStatement | ⟨construct, within, isInner | isOuter | isAssigned⟩
    · have stands := Spot.standsIn_statement wellFormed isStatement
      exact .module (scopeOf_module settles wellFormed stands) (Or.inr isStatement)
    · exact .inner within isInner
    · apply Derives.same within (.of_outerParts isOuter)
      · apply wellFormed.not_isParameter
        intro name hint form
        rw [Node.outerParts, form] at isOuter
        cases isOuter
      · exact scopeOf_outer settles wellFormed within isOuter
    · apply Derives.assigned within (.child (Node.assigned_mem_children isAssigned))
      · apply wellFormed.not_isParameter
        intro name hint form
        rw [Node.assignedParts, form] at isAssigned
        cases isAssigned
      · exact scopeOf_assigned settles wellFormed within isAssigned
  · apply Derives.same inside (.child isChild)
    · rintro ⟨callable, isCallable, callableForm, isParameter⟩
      exact ruled (wellFormed.isRuled_of_hint isCallable callableForm isParameter isChild)
    · exact scopeOf_other settles wellFormed inside isChild ruled

/-- What lies in a statement is evaluated in the scope of the statement or inside it. -/
theorem chain_of_statement {parent statement node : Node} (within : parent ∈ tree.nodes)
    (isStatement : statement ∈ parent.children) (block : statement.role.isBlock = true)
    (kind : (model.scopeOf statement).kind ≠ .comprehension) (inside : node ∈ statement.nodes) :
    model.scopeOf statement ∈ model.chain (model.scopeOf node) := by
  have distinct := wellFormed.distinct
  have inTree : statement ∈ tree.nodes := Node.nodes_trans (Node.child_mem_nodes isStatement) within
  have outside : tree ∉ statement.nodes := fun around =>
    Node.not_mem_nodes_of_child isStatement (Node.nodes_trans within around)
  have all : ∀ node ∈ tree.nodes, node ∈ statement.nodes →
      model.scopeOf statement ∈ model.chain (model.scopeOf node) := by
    intro node member
    refine Node.outwardInduction ?_ member
    clear member node inside
    intro node member induction inside
    by_cases same : node = statement
    · rw [same]
      exact List.mem_cons_self
    have around : ∀ {construct : Node}, construct ∈ tree.nodes → construct.HasPart node →
        model.scopeOf statement ∈ model.chain (model.scopeOf construct) := by
      intro construct isConstruct isPart
      obtain ⟨child, isChild, below⟩ := isPart.exists_child
      apply induction construct isConstruct child isChild below
      exact isPart.mem_statement distinct isConstruct inTree block inside same
    cases derives_scopeOf settles wellFormed member with
    | module _ top =>
        rcases top with rfl | isTop
        · exact absurd inside outside
        · have isPart : tree.HasPart node := .field isTop
          exact absurd (isPart.mem_statement distinct (Node.self_mem_nodes tree) inTree block inside
            same) outside
    | inner isConstruct isInner =>
        rw [(chain_of_inner settles wellFormed isConstruct isInner).2]
        exact List.mem_cons_of_mem _ (around isConstruct (.of_innerParts isInner))
    | same isConstruct isPart _ equal =>
        rw [equal]
        exact around isConstruct isPart
    | assigned isConstruct isPart _ nearest =>
        exact mem_chain_nearestFrame settles wellFormed (scopeOf_mem settles _) nearest
          (around isConstruct isPart) kind
  exact all node (Node.nodes_trans inside inTree) inside

/-- What is evaluated in the scope of a function or inside it is a parameter of the function or lies
in one of its statements. -/
theorem body_of_chain {function node : Node} {own : Scope}
    (isFunction : function.form.isFunction = true) (introduced : model.Introduces function own)
    (member : node ∈ tree.nodes) (inside : own ∈ model.chain (model.scopeOf node)) :
    node ∈ function.parameters ∨ ∃ statement ∈ function.field .body, node ∈ statement.nodes := by
  obtain ⟨inTree, opens⟩ := opens_of_mem settles wellFormed introduced.1
  rw [introduced.2] at inTree opens
  obtain ⟨isAsync, name, returns, form⟩ := Form.functionDef_of_isFunction isFunction
  rw [form] at opens
  revert inside
  refine Node.outwardInduction ?_ member
  clear member node
  intro node member induction inside
  have ofConstruct : ∀ {construct : Node}, construct ∈ tree.nodes → construct.HasPart node →
      ¬ tree.IsParameter construct → own ∈ model.chain (model.scopeOf construct) →
      ∃ statement ∈ function.field .body, node ∈ statement.nodes := by
    intro construct isConstruct isPart notParameter around
    obtain ⟨child, isChild, below⟩ := isPart.exists_child
    rcases induction construct isConstruct child isChild below around with
      isParameter | ⟨statement, isStatement, within⟩
    · have callable := Form.isCallable_of_isFunction isFunction
      exact absurd ⟨function, inTree, callable, isParameter⟩ notParameter
    · exact ⟨statement, isStatement, Node.nodes_trans (Node.nodes_of_child isChild below) within⟩
  cases derives_scopeOf settles wellFormed member with
  | module isModule _ =>
      rw [isModule, chain, around_module settles wellFormed, List.mem_singleton] at inside
      rw [inside, (moduleScope_header settles wellFormed).2.1] at opens
      cases opens
  | @inner construct isConstruct isInner =>
      obtain ⟨opened, whole⟩ := chain_of_inner settles wellFormed isConstruct isInner
      rw [whole] at inside
      rcases List.mem_cons.mp inside with rfl | further
      · obtain rfl : construct = function := opened.2.symm.trans introduced.2
        rw [Node.innerParts, form] at isInner
        rcases List.mem_append.mp isInner with isParameter | inBody
        · exact Or.inl isParameter
        · exact Or.inr ⟨node, inBody, Node.self_mem_nodes node⟩
      · right
        apply ofConstruct isConstruct (.of_innerParts isInner) _ further
        apply wellFormed.not_isParameter
        intro name hint form
        rw [Node.innerParts, form] at isInner
        cases isInner
  | same isConstruct isPart notParameter equal =>
      rw [equal] at inside
      exact Or.inr (ofConstruct isConstruct isPart notParameter inside)
  | assigned isConstruct isPart notParameter nearest =>
      right
      apply ofConstruct isConstruct isPart notParameter
      have isFrame := List.mem_of_find?_eq_some nearest
      exact (chain_suffix settles wellFormed (scopeOf_mem settles _) isFrame).subset inside

end

end Model

end SafeRefactor
