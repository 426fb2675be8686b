import SafeRefactor.Proofs.ParameterScope

/-!
# Where the parts of a construct stand

A construct that introduces a scope has parts inside that scope and parts outside of it.
The visit of a module comes to each part in the scope named here; a node that is no such
part is visited in the scope of its parent.
-/

namespace SafeRefactor

namespace Node

/-- The defaults and the annotations of the parameters of a callable. -/
def signatureParts (callable : Node) : List Node :=
  callable.parameterParts.filter
      (fun part => part.role = .default || part.role = .keywordDefault) ++
    callable.parameters.flatMap (fun parameter => parameter.field .typeHint)

/-- The parts of a construct that are evaluated in the scope it introduces. -/
def innerParts (construct : Node) : List Node :=
  match construct.form with
  | .functionDef .. => construct.parameters ++ construct.field .body
  | .lambda => construct.parameters ++ construct.field .result
  | .classDef _ => construct.field .body
  | .comprehension _ =>
      let clauses := construct.field .clause
      construct.field .element ++ construct.field .key ++ construct.field .value ++ clauses ++
        clauses.flatMap (fun clause => clause.field .target ++ clause.field .condition) ++
        clauses.tail.flatMap (fun clause => clause.field .iterable)
  | _ => []

/-- The parts of a construct that are evaluated where the construct stands, although it introduces
a scope. -/
def outerParts (construct : Node) : List Node :=
  match construct.form with
  | .functionDef .. =>
      construct.field .decorator ++ construct.signatureParts ++ construct.field .returns
  | .lambda => construct.signatureParts
  | .classDef _ =>
      construct.field .decorator ++ construct.field .base ++ construct.field .keyword
  | .comprehension _ => ((construct.field .clause).take 1).flatMap (fun clause =>
      clause.field .iterable)
  | _ => []

/-- The target of an assignment expression. -/
def assignedParts (construct : Node) : List Node :=
  match construct.form with
  | .namedExpr => construct.field .target
  | _ => []

/-- The rule speaks of the node by itself and not only by its parent. -/
def IsRuled (tree node : Node) : Prop :=
  node ∈ tree.field .body ∨ ∃ construct ∈ tree.nodes,
    node ∈ construct.innerParts ∨ node ∈ construct.outerParts ∨ node ∈ construct.assignedParts

end Node

namespace Form

private theorem comprehension_of_slot {form : Form} {role : Role}
    (listed : (role, .clause) ∈ form.slots) :
    role = .clause ∧ ∃ kind, form = .comprehension kind := by
  cases form with
  | starred context | list context | tuple context =>
      cases context <;> simp [Form.slots, Context.slot] at listed
  | comprehension kind => simpa [Form.slots] using listed
  | _ => simp [Form.slots] at listed

end Form

theorem Node.WellFormed.comprehension_of_clause {tree clause : Node} {isAsync : Bool}
    (wellFormed : tree.WellFormed) (inside : clause ∈ tree.nodes)
    (form : clause.form = .clause isAsync) :
    ∃ construct ∈ tree.nodes, (∃ kind, construct.form = .comprehension kind) ∧
      clause ∈ construct.field .clause := by
  rcases Node.exists_parent inside with rfl | ⟨construct, member, isChild⟩
  · rw [Node.Grammatical.form_eq wellFormed.grammatical] at form
    cases form
  · obtain ⟨slot, listed, fitting⟩ := wellFormed.slot_of_child member isChild
    have admitted := Node.admits_of_fits fitting
    rw [form] at admitted
    cases slot with
    | clause =>
        obtain ⟨role, kind⟩ := Form.comprehension_of_slot listed
        exact ⟨construct, member, kind, Node.mem_field.mpr ⟨isChild, role⟩⟩
    | _ => cases admitted

theorem Node.WellFormed.mem_innerParts {tree construct part : Node} {kind : ComprehensionKind}
    (wellFormed : tree.WellFormed) (inside : construct ∈ tree.nodes)
    (form : construct.form = .comprehension kind) (isChild : part ∈ construct.children) :
    part ∈ construct.innerParts := by
  obtain ⟨slot, listed, _⟩ := wellFormed.slot_of_child inside isChild
  rw [form] at listed
  simp only [Form.slots, List.mem_cons, Prod.mk.injEq, List.not_mem_nil, or_false] at listed
  rw [Node.innerParts, form]
  simp only [List.mem_append, Node.mem_field]
  rcases listed with ⟨role, _⟩ | ⟨role, _⟩ | ⟨role, _⟩ | ⟨role, _⟩
  all_goals simp [role, isChild]

/-- Iterables are evaluated inside their comprehension, but for the first. -/
theorem Node.iterable_mem_parts {construct clause part : Node} {kind : ComprehensionKind}
    (form : construct.form = .comprehension kind) (isClause : clause ∈ construct.field .clause)
    (isPart : part ∈ clause.field .iterable) :
    part ∈ construct.innerParts ∨ part ∈ construct.outerParts := by
  rw [Node.innerParts, Node.outerParts, form]
  cases all : construct.field .clause with
  | nil =>
      rw [all] at isClause
      cases isClause
  | cons first rest =>
      rw [all] at isClause
      rcases List.mem_cons.mp isClause with rfl | later
      · right
        exact List.mem_flatMap.mpr ⟨clause, List.mem_singleton_self _, isPart⟩
      · left
        apply List.mem_append_right
        exact List.mem_flatMap.mpr ⟨clause, later, isPart⟩

theorem Node.WellFormed.not_isParameter_of_fits {tree node : Node} {slot : Slot}
    (wellFormed : tree.WellFormed) (fitting : node.fits slot = true) (other : slot ≠ .parameter) :
    ¬ tree.IsParameter node := by
  apply wellFormed.not_isParameter
  intro name hint form
  have admitted := Node.admits_of_fits fitting
  rw [form] at admitted
  cases slot with
  | parameter => exact other rfl
  | _ => cases admitted

private theorem Node.signature_subset_outerParts {callable : Node}
    (isCallable : callable.form.isCallable = true) :
    callable.signatureParts ⊆ callable.outerParts := by
  intro part member
  unfold Node.outerParts
  generalize callable.form = form at isCallable
  cases form with
  | functionDef => exact List.mem_append_left _ (List.mem_append_right _ member)
  | lambda => exact member
  | _ => cases isCallable

theorem Node.assigned_mem_children {expression node : Node}
    (member : node ∈ expression.assignedParts) : node ∈ expression.children := by
  unfold Node.assignedParts at member
  split at member
  · exact (Node.mem_field.mp member).1
  · cases member

theorem Node.exists_child_of_outerParts {construct node : Node}
    (member : node ∈ construct.outerParts) :
    ∃ child ∈ construct.children, node ∈ child.nodes := by
  have field : ∀ {role : Role}, node ∈ construct.field role →
      ∃ child ∈ construct.children, node ∈ child.nodes :=
    fun isField => ⟨node, (Node.mem_field.mp isField).1, Node.self_mem_nodes node⟩
  have signature : node ∈ construct.signatureParts →
      ∃ child ∈ construct.children, node ∈ child.nodes := by
    intro isPart
    rcases List.mem_append.mp isPart with isDefault | isHint
    · obtain ⟨list, isList, _, inList⟩ :=
        Node.exists_list_of_part (List.mem_filter.mp isDefault).1
      exact ⟨list, isList, Node.child_mem_nodes inList⟩
    · obtain ⟨parameter, isParameter, isField⟩ := List.mem_flatMap.mp isHint
      obtain ⟨list, isList, _, inList⟩ :=
        Node.exists_list_of_part (List.mem_filter.mp isParameter).1
      have inParameter := Node.child_mem_nodes (Node.mem_field.mp isField).1
      exact ⟨list, isList, Node.nodes_trans inParameter (Node.child_mem_nodes inList)⟩
  unfold Node.outerParts at member
  split at member
  · simp only [List.mem_append] at member
    rcases member with (isDecorator | inSignature) | isReturns
    · exact field isDecorator
    · exact signature inSignature
    · exact field isReturns
  · exact signature member
  · simp only [List.mem_append] at member
    rcases member with (isDecorator | isBase) | isKeyword
    · exact field isDecorator
    · exact field isBase
    · exact field isKeyword
  · obtain ⟨clause, isFirst, isPart⟩ := List.mem_flatMap.mp member
    have isClause := (Node.mem_field.mp (List.mem_of_mem_take isFirst)).1
    exact ⟨clause, isClause, Node.child_mem_nodes (Node.mem_field.mp isPart).1⟩
  · cases member

/-- The rule speaks of annotations by the callable of their parameter. -/
theorem Node.WellFormed.isRuled_of_hint {tree callable parameter hint : Node}
    (wellFormed : tree.WellFormed) (inside : callable ∈ tree.nodes)
    (isCallable : callable.form.isCallable = true) (member : parameter ∈ callable.parameters)
    (isChild : hint ∈ parameter.children) : tree.IsRuled hint := by
  obtain ⟨within, name, text, form⟩ := wellFormed.parameter_form inside isCallable member
  obtain ⟨slot, listed, _⟩ := wellFormed.slot_of_child within isChild
  rw [form] at listed
  have role : hint.role = .typeHint := congrArg Prod.fst (List.mem_singleton.mp listed)
  refine Or.inr ⟨callable, inside, Or.inr (Or.inl (signature_subset_outerParts isCallable ?_))⟩
  apply List.mem_append_right
  exact List.mem_flatMap.mpr ⟨parameter, member, Node.mem_field.mpr ⟨isChild, role⟩⟩

/-- The rule speaks of parameters by their callables. -/
theorem Node.IsParameter.isRuled {tree node : Node} (isParameter : tree.IsParameter node) :
    tree.IsRuled node := by
  obtain ⟨callable, inside, isCallable, member⟩ := isParameter
  refine Or.inr ⟨callable, inside, Or.inl ?_⟩
  unfold Node.innerParts
  generalize callable.form = form at isCallable
  cases form with
  | functionDef | lambda => exact List.mem_append_left _ member
  | _ => cases isCallable

namespace Spot

theorem Visited.child {tree parent child : Node} {spot : Spot} (visited : Visited tree spot parent)
    (isChild : child ∈ parent.children) : Visited tree (spot.toChild parent child) child :=
  Reaches.trans visited (.there isChild (.here _ _))

/-- The visit comes to the node in the scope with the given number and leaves it there. -/
def StandsIn (tree node : Node) (scope : NodeId) : Prop :=
  ∃ spot, Visited tree spot node ∧ ¬ tree.IsParameter node ∧ spot.place.scope = scope

section

variable {tree construct part : Node} {spot : Spot} (wellFormed : tree.WellFormed)
  (visited : Visited tree spot construct)

include wellFormed visited

theorem standsIn_child {scope : NodeId} (isChild : part ∈ construct.children) (slot : Slot)
    (asked : (part.role, slot) ∈ construct.form.slots) (other : slot ≠ .parameter)
    (place : (spot.step construct part.role part.id).place.scope = scope) :
    StandsIn tree part scope := by
  have fitting := wellFormed.fits_of_slot visited.mem isChild asked
  exact ⟨_, visited.child isChild, wellFormed.not_isParameter_of_fits fitting other, place⟩

theorem standsIn_field {role : Role} {scope : NodeId} (member : part ∈ construct.field role)
    (slot : Slot) (asked : (role, slot) ∈ construct.form.slots) (other : slot ≠ .parameter)
    (place : ∀ id, (spot.step construct role id).place.scope = scope) :
    StandsIn tree part scope := by
  obtain ⟨isChild, rfl⟩ := Node.mem_field.mp member
  exact standsIn_child wellFormed visited isChild slot asked other (place part.id)

/-- The parts of a clause: only the iterable of the first clause stands outside. -/
theorem standsIn_clause {kind : ComprehensionKind} {clause : Node}
    (form : construct.form = .comprehension kind) (isClause : clause ∈ construct.field .clause) :
    StandsIn tree clause construct.id ∧
      (∀ part ∈ clause.field .target ++ clause.field .condition, StandsIn tree part construct.id) ∧
      ∀ part ∈ clause.field .iterable,
        StandsIn tree part (spot.step construct .clause clause.id).iterables.scope := by
  obtain ⟨isChild, role⟩ := Node.mem_field.mp isClause
  have asked : (Role.clause, Slot.clause) ∈ construct.form.slots := by simp [form, Form.slots]
  have fitting := wellFormed.fits_of_slot visited.mem isChild (role ▸ asked)
  obtain ⟨isAsync, clauseForm⟩ := Node.form_of_clause fitting
  have place : ∀ id, (spot.step construct .clause id).place.scope = construct.id := by
    intro id
    rw [Event.place_of_clause form]
    rfl
  have reached := visited.child isChild
  rw [toChild, role] at reached
  refine ⟨standsIn_field wellFormed visited isClause .clause asked (by decide) place, ?_⟩
  have here := place clause.id
  generalize spot.step construct .clause clause.id = inner at reached here ⊢
  constructor
  · intro part member
    rcases List.mem_append.mp member with isTarget | isCondition
    · apply standsIn_field wellFormed reached isTarget .target (by simp [clauseForm, Form.slots])
        (by decide)
      intro id
      simpa only [step, clauseForm, of, Place.inside] using here
    · apply standsIn_field wellFormed reached isCondition .expression
        (by simp [clauseForm, Form.slots]) (by decide)
      intro id
      simpa only [step, clauseForm, of, Place.inside] using here
  · intro part member
    apply standsIn_field wellFormed reached member .expression (by simp [clauseForm, Form.slots])
      (by decide)
    intro id
    simp only [step, clauseForm]
    rfl

theorem standsIn_inner (member : part ∈ construct.innerParts) :
    (construct.form.isCallable = true ∧ part ∈ construct.parameters) ∨
      StandsIn tree part construct.id := by
  unfold Node.innerParts at member
  split at member
  · next form =>
      rcases List.mem_append.mp member with isParameter | inBody
      · exact Or.inl ⟨by rw [form]; rfl, isParameter⟩
      · right
        apply standsIn_field wellFormed visited inBody .statement (by simp [form, Form.slots])
          (by decide)
        intro id
        simp only [step, form]
        rfl
  · next form =>
      rcases List.mem_append.mp member with isParameter | isResult
      · exact Or.inl ⟨by rw [form]; rfl, isParameter⟩
      · right
        apply standsIn_field wellFormed visited isResult .expression (by simp [form, Form.slots])
          (by decide)
        intro id
        simp only [step, form]
        rfl
  · next form =>
      right
      apply standsIn_field wellFormed visited member .statement (by simp [form, Form.slots])
        (by decide)
      intro id
      simp only [step, form]
      rfl
  · next kind form =>
      right
      have fields : ∀ role, role ≠ .clause → (role, Slot.expression) ∈ construct.form.slots →
          part ∈ construct.field role → StandsIn tree part construct.id := by
        intro role other asked isPart
        apply standsIn_field wellFormed visited isPart .expression asked (by decide)
        intro id
        cases role with
        | clause => exact absurd rfl other
        | _ =>
            simp only [step, form]
            rfl
      have clauses : ∀ clause ∈ construct.field .clause, _ := fun clause =>
        standsIn_clause wellFormed visited form
      simp only [List.mem_append, List.mem_flatMap] at member
      rcases member with ((((element | key) | value) | clause) | ⟨clause, isClause, isPart⟩) |
        ⟨clause, isClause, isPart⟩
      · exact fields .element (by decide) (by simp [form, Form.slots]) element
      · exact fields .key (by decide) (by simp [form, Form.slots]) key
      · exact fields .value (by decide) (by simp [form, Form.slots]) value
      · exact (clauses part clause).1
      · exact (clauses clause isClause).2.1 part (List.mem_append.mpr isPart)
      · have later := (clauses clause (List.mem_of_mem_tail isClause)).2.2 part isPart
        cases all : construct.field .clause with
        | nil =>
            rw [all] at isClause
            cases isClause
        | cons first rest =>
            rw [all] at isClause
            have distinct := wellFormed.distinct.of_mem visited.mem
            rw [Event.iterables_of_later distinct form all isClause] at later
            exact later
  · cases member

/-- The defaults and annotations of parameters stand where the callable stands. -/
theorem standsIn_signature (asked : (.parameters, .parameterList) ∈ construct.form.slots)
    (place : ∀ id, spot.step construct .parameters id = of (spot.place.inside construct))
    (member : part ∈ construct.signatureParts) : StandsIn tree part spot.place.scope := by
  have listed : ∀ {part : Node}, part ∈ construct.parameterParts → ∃ list,
      Visited tree (of (spot.place.inside construct)) list ∧ part ∈ list.children ∧
        ∃ defaults, list.form = .parameters defaults := by
    intro part isPart
    obtain ⟨list, isList, role, inList⟩ := Node.exists_list_of_part isPart
    have reached := visited.child isList
    rw [toChild, role, place] at reached
    have fitting := wellFormed.fits_of_slot visited.mem isList (role ▸ asked)
    exact ⟨list, reached, inList, Node.form_of_parameterList fitting⟩
  rcases List.mem_append.mp member with isDefault | isHint
  · obtain ⟨isPart, role⟩ := List.mem_filter.mp isDefault
    obtain ⟨list, reached, inList, defaults, form⟩ := listed isPart
    simp only [Bool.or_eq_true, decide_eq_true_eq] at role
    apply standsIn_child wellFormed reached inList .expression
    · rcases role with role | role <;> simp [role, form, Form.slots]
    · decide
    · rcases role with role | role <;> simp [role, form, step, Role.isParameter, of, Place.inside]
  · obtain ⟨parameter, isParameter, isField⟩ := List.mem_flatMap.mp isHint
    obtain ⟨isPart, role⟩ := List.mem_filter.mp isParameter
    obtain ⟨list, reached, inList, defaults, form⟩ := listed isPart
    have fitting : parameter.fits .parameter = true := by
      apply wellFormed.fits_of_slot reached.mem inList
      rw [form]
      exact Event.parameter_slot role
    obtain ⟨name, text, parameterForm⟩ := Node.form_of_parameter fitting
    have same : (of (spot.place.inside construct)).toChild list parameter =
        of (spot.place.inside construct) := by
      simp [toChild, step, form, role]
    have further := reached.child inList
    rw [same] at further
    apply standsIn_field wellFormed further isField .expression
    · rw [parameterForm]
      exact List.mem_singleton_self _
    · decide
    · intro id
      simp only [step, parameterForm]
      rfl

theorem standsIn_outer (member : part ∈ construct.outerParts) :
    StandsIn tree part spot.place.scope := by
  unfold Node.outerParts at member
  split at member
  · next form =>
      rcases List.mem_append.mp member with early | isReturns
      · rcases List.mem_append.mp early with isDecorator | inSignature
        · apply standsIn_field wellFormed visited isDecorator .expression
            (by simp [form, Form.slots]) (by decide)
          intro id
          simp only [step, form]
          rfl
        · apply standsIn_signature wellFormed visited (by simp [form, Form.slots]) _ inSignature
          intro id
          simp only [step, form]
      · apply standsIn_field wellFormed visited isReturns .expression (by simp [form, Form.slots])
          (by decide)
        intro id
        simp only [step, form]
        rfl
  · next form =>
      apply standsIn_signature wellFormed visited (by simp [form, Form.slots]) _ member
      intro id
      simp only [step, form]
  · next form =>
      rcases List.mem_append.mp member with early | isKeyword
      · rcases List.mem_append.mp early with isDecorator | isBase
        · apply standsIn_field wellFormed visited isDecorator .expression
            (by simp [form, Form.slots]) (by decide)
          intro id
          simp only [step, form]
          rfl
        · apply standsIn_field wellFormed visited isBase .expression (by simp [form, Form.slots])
            (by decide)
          intro id
          simp only [step, form]
          rfl
      · apply standsIn_field wellFormed visited isKeyword .keyword (by simp [form, Form.slots])
          (by decide)
        intro id
        simp only [step, form]
        rfl
  · next kind form =>
      obtain ⟨clause, isFirst, isPart⟩ := List.mem_flatMap.mp member
      have stands := (standsIn_clause wellFormed visited form (List.mem_of_mem_take isFirst)).2.2
        part isPart
      cases all : construct.field .clause with
      | nil =>
          rw [all] at isFirst
          cases isFirst
      | cons first rest =>
          rw [all] at isFirst
          obtain rfl : clause = first := by simpa using isFirst
          rw [Event.iterables_of_first form all] at stands
          exact stands
  · cases member

omit visited in
theorem standsIn_root : StandsIn tree tree tree.id := by
  refine ⟨_, .root tree, wellFormed.not_isParameter ?_, rfl⟩
  rw [Node.Grammatical.form_eq wellFormed.grammatical]
  simp

omit visited in
theorem standsIn_statement (member : part ∈ tree.field .body) : StandsIn tree part tree.id := by
  have form := Node.Grammatical.form_eq wellFormed.grammatical
  apply standsIn_field wellFormed (.root tree) member .statement (by simp [form, Form.slots])
    (by decide)
  intro id
  simp only [step, form]
  rfl

theorem standsIn_assigned (member : part ∈ construct.assignedParts) :
    StandsIn tree part spot.place.frame := by
  unfold Node.assignedParts at member
  split at member
  · next form =>
      apply standsIn_field wellFormed visited member .nameTarget (by simp [form, Form.slots])
        (by decide)
      intro id
      simp only [step, form]
      rfl
  · cases member

/-- A node that the rule does not speak of stands where its parent stands. -/
theorem standsIn_other (isChild : part ∈ construct.children) (free : ¬ tree.IsRuled part) :
    StandsIn tree part spot.place.scope := by
  refine ⟨_, visited.child isChild, fun isParameter => free isParameter.isRuled, ?_⟩
  have inside := visited.mem
  have ruled : part ∈ construct.innerParts ∨ part ∈ construct.outerParts ∨
      part ∈ construct.assignedParts → False :=
    fun listed => free (Or.inr ⟨construct, inside, listed⟩)
  -- Wherever the visit changes the scope on the way to a child, the rule speaks of the child.
  unfold toChild step
  split
  · next form =>
      obtain rfl := wellFormed.eq_of_module inside form
      have role := (Node.Grammatical.slot_of_child wellFormed.grammatical isChild).1
      exact absurd (Or.inl (Node.mem_field.mpr ⟨isChild, role⟩)) free
  · next form role =>
      refine absurd (Or.inl ?_) ruled
      rw [Node.innerParts, form]
      exact List.mem_append_right _ (Node.mem_field.mpr ⟨isChild, role⟩)
  · next form role =>
      refine absurd (Or.inl ?_) ruled
      rw [Node.innerParts, form]
      exact Node.mem_field.mpr ⟨isChild, role⟩
  · next form role =>
      refine absurd (Or.inl ?_) ruled
      rw [Node.innerParts, form]
      exact List.mem_append_right _ (Node.mem_field.mpr ⟨isChild, role⟩)
  · next form _ => exact absurd (Or.inl (wellFormed.mem_innerParts inside form isChild)) ruled
  · next form _ => exact absurd (Or.inl (wellFormed.mem_innerParts inside form isChild)) ruled
  · next form role =>
      refine absurd (Or.inr (Or.inr ?_)) ruled
      rw [Node.assignedParts, form]
      exact Node.mem_field.mpr ⟨isChild, role⟩
  · next form _ =>
      split
      · rfl
      · rfl
  · next form role =>
      obtain ⟨comprehension, member, ⟨kind, outerForm⟩, isClause⟩ :=
        wellFormed.comprehension_of_clause inside form
      have listed := Node.iterable_mem_parts outerForm isClause (Node.mem_field.mpr ⟨isChild, role⟩)
      exact absurd (Or.inr ⟨comprehension, member, listed.imp_right Or.inl⟩) free
  · rfl

end

end Spot

end SafeRefactor
