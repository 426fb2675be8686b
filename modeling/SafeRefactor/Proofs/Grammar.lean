import SafeRefactor.Proofs.Subtree

/-!
# Grammatical trees

A tree is grammatical when each constituent plays a role that its construct has and
is a construct of the sort which that role asks for.  Plain names are bound only in
targets and deleted only in deletions; everywhere else they are read.  Statements
have a place in the text.
-/

namespace SafeRefactor

/-- What sort of construct a role asks for. -/
inductive Slot where
  | statement
  | expression
  | target
  | deletion
  /-- The target of an assignment expression, a plain name. -/
  | nameTarget
  | parameterList
  | parameter
  | keyword
  | imported
  | item
  | handler
  | arm
  | pattern
  | clause
deriving DecidableEq, Repr

/-- The sort of the constituents of a display or a starred expression. -/
def Context.slot : Context → Slot
  | .load => .expression
  | .store => .target
  | .del => .deletion

namespace Slot

/-- Whether a construct is an expression that is evaluated for its value. -/
def isExpression : Form → Bool
  | .boolOp | .namedExpr | .binOp _ | .unaryOp _ | .lambda | .ifExp | .dict | .set
  | .comprehension _ | .await | .yield | .yieldFrom | .compare | .call | .formattedValue
  | .joinedStr | .constant _ _ | .attribute _ .load | .subscript .load | .starred .load
  | .name _ .load | .list .load | .tuple .load | .slice => true
  | _ => false

def isPattern : Form → Bool
  | .matchValue | .matchSingleton | .matchSequence | .matchMapping _ | .matchClass _
  | .matchStar _ | .matchAs _ | .matchOr => true
  | _ => false

/-- Whether a construct is of the sort asked for. -/
def admits : Slot → Form → Bool
  | .statement, form => form.isStatement
  | .expression, form => isExpression form
  | .target, .attribute _ .store | .target, .subscript .store | .target, .starred .store
  | .target, .name _ .store | .target, .list .store | .target, .tuple .store => true
  | .deletion, .attribute _ .del | .deletion, .subscript .del | .deletion, .name _ .del
  | .deletion, .list .del | .deletion, .tuple .del => true
  | .nameTarget, .name _ .store => true
  | .parameterList, .parameters _ => true
  | .parameter, .parameter _ _ => true
  | .keyword, .keyword _ => true
  | .imported, .alias _ _ => true
  | .item, .withItem => true
  | .handler, .handler _ _ => true
  | .arm, .matchCase => true
  | .pattern, form => isPattern form
  | .clause, .clause _ => true
  | _, _ => false

/-- Whether constructs of the sort hold statements or are statements themselves. -/
def isBlock : Slot → Bool
  | .statement | .handler | .arm => true
  | _ => false

end Slot

/-- The roles that a construct has, with the sort of construct each of them asks for. -/
def Form.slots : Form → List (Role × Slot)
  | .module => [(.body, .statement)]
  | .functionDef .. =>
      [(.parameters, .parameterList), (.body, .statement), (.decorator, .expression),
       (.returns, .expression)]
  | .classDef _ =>
      [(.base, .expression), (.keyword, .keyword), (.body, .statement), (.decorator, .expression)]
  | .returnStmt | .exprStmt => [(.value, .expression)]
  | .deleteStmt => [(.target, .deletion)]
  | .assign | .augAssign => [(.target, .target), (.value, .expression)]
  | .annAssign _ => [(.target, .target), (.typeHint, .expression), (.value, .expression)]
  | .forLoop _ =>
      [(.target, .target), (.iterable, .expression), (.body, .statement), (.orelse, .statement)]
  | .whileLoop | .ifStmt => [(.test, .expression), (.body, .statement), (.orelse, .statement)]
  | .withStmt _ => [(.item, .item), (.body, .statement)]
  | .matchStmt => [(.subject, .expression), (.arm, .arm)]
  | .raiseStmt => [(.value, .expression), (.cause, .expression)]
  | .tryStmt _ =>
      [(.body, .statement), (.handler, .handler), (.orelse, .statement), (.finalbody, .statement)]
  | .assertStmt => [(.test, .expression), (.message, .expression)]
  | .importStmt | .importFrom _ _ => [(.imported, .imported)]
  | .boolOp | .unaryOp _ => [(.operand, .expression)]
  | .namedExpr => [(.target, .nameTarget), (.value, .expression)]
  | .binOp _ | .compare => [(.left, .expression), (.right, .expression)]
  | .lambda => [(.parameters, .parameterList), (.result, .expression)]
  | .ifExp => [(.test, .expression), (.result, .expression), (.alternative, .expression)]
  | .dict => [(.key, .expression), (.value, .expression)]
  | .set => [(.element, .expression)]
  | .comprehension _ =>
      [(.element, .expression), (.key, .expression), (.value, .expression), (.clause, .clause)]
  | .await | .yield | .yieldFrom | .joinedStr | .keyword _ | .matchValue => [(.value, .expression)]
  | .call => [(.callee, .expression), (.argument, .expression), (.keyword, .keyword)]
  | .formattedValue => [(.value, .expression), (.format, .expression)]
  | .attribute _ _ => [(.value, .expression)]
  | .subscript _ => [(.value, .expression), (.index, .expression)]
  | .starred context => [(.value, context.slot)]
  | .list context | .tuple context => [(.element, context.slot)]
  | .slice => [(.lower, .expression), (.upper, .expression), (.step, .expression)]
  | .clause _ => [(.target, .target), (.iterable, .expression), (.condition, .expression)]
  | .handler _ _ => [(.caught, .expression), (.body, .statement)]
  | .parameters _ =>
      [(.positionalOnly, .parameter), (.positional, .parameter), (.variadic, .parameter),
       (.keywordOnly, .parameter), (.keywordVariadic, .parameter), (.default, .expression),
       (.keywordDefault, .expression)]
  | .parameter _ _ => [(.typeHint, .expression)]
  | .withItem => [(.context, .expression), (.target, .target)]
  | .matchCase => [(.pattern, .pattern), (.guard, .expression), (.body, .statement)]
  | .matchSequence | .matchAs _ | .matchOr => [(.pattern, .pattern)]
  | .matchMapping _ => [(.key, .expression), (.pattern, .pattern)]
  | .matchClass _ =>
      [(.matchedClass, .expression), (.pattern, .pattern), (.keywordPattern, .pattern)]
  | _ => []

/-- Whether a construct is a statement or directly holds statements. -/
def Form.isBlock : Form → Bool
  | .module | .handler _ _ | .matchCase => true
  | form => form.isStatement

theorem Form.isBlock_of_isStatement {form : Form} (isStatement : form.isStatement = true) :
    form.isBlock = true := by
  cases form <;> first | rfl | cases isStatement

theorem Slot.isBlock_of_admits {slot : Slot} {form : Form} (admitted : slot.admits form = true)
    (block : form.isBlock = true) : slot.isBlock = true := by
  cases slot with
  | statement | handler | arm => rfl
  | _ =>
      cases form
      all_goals first
        | exact absurd block Bool.false_ne_true
        | cases admitted

theorem Form.isBlock_of_slot {form : Form} {role : Role} {slot : Slot}
    (listed : (role, slot) ∈ form.slots) (block : slot.isBlock = true) : form.isBlock = true := by
  have inner : form.isBlock = false → ∀ entry ∈ form.slots, entry.2.isBlock = false := by
    intro inner
    cases form with
    | starred context | list context | tuple context =>
        cases context <;> simp [Form.slots, Context.slot, Slot.isBlock]
    | _ =>
        first
          | exact absurd inner (fun wrong => Bool.noConfusion wrong)
          | simp [Form.slots, Slot.isBlock]
  by_contra other
  rw [inner (by simpa using other) _ listed] at block
  cases block

theorem Form.nodup_slots (form : Form) : (form.slots.map Prod.fst).Nodup := by
  cases form <;> simp [Form.slots]

/-- A role asks for one sort of construct. -/
theorem Form.slot_unique {form : Form} {role : Role} {first second : Slot}
    (left : (role, first) ∈ form.slots) (right : (role, second) ∈ form.slots) :
    first = second :=
  congrArg Prod.snd (List.inj_on_of_nodup_map form.nodup_slots left right rfl)

namespace Node

mutual

/-- Whether a node is of the sort asked for and so are, for their roles, all nodes in it. -/
def fits : Slot → Node → Bool
  | slot, .mk form info children =>
      slot.admits form && (!form.isStatement || info.span.isSome) && fitsAll form children

def fitsAll : Form → List Node → Bool
  | _, [] => true
  | form, node :: rest =>
      (match form.slots.lookup node.role with
       | some slot => fits slot node
       | none => false) && fitsAll form rest

end

theorem mem_of_lookup {slots : List (Role × Slot)} {role : Role} {slot : Slot}
    (found : slots.lookup role = some slot) : (role, slot) ∈ slots := by
  obtain ⟨before, after, rfl, _⟩ := List.lookup_eq_some_iff.mp found
  simp

/-- The tree of a module built by the grammar. -/
def grammatical : Node → Bool
  | .mk .module _ children => fitsAll .module children
  | _ => false

private theorem slot_of_fitsAll {form : Form} {children : List Node}
    (fitting : fitsAll form children = true) :
    ∀ child ∈ children, ∃ slot, (child.role, slot) ∈ form.slots ∧ child.fits slot = true := by
  induction children with
  | nil =>
      intro child member
      cases member
  | cons first rest induction =>
      simp only [fitsAll, Bool.and_eq_true] at fitting
      intro child member
      rcases List.mem_cons.mp member with rfl | later
      · cases found : form.slots.lookup child.role with
        | none =>
            rw [found] at fitting
            cases fitting.1
        | some slot =>
            rw [found] at fitting
            exact ⟨slot, mem_of_lookup found, fitting.1⟩
      · exact induction fitting.2 child later

theorem admits_of_fits {slot : Slot} {node : Node} (fitting : node.fits slot = true) :
    slot.admits node.form = true := by
  cases node with
  | mk form info children =>
      simp only [fits, Bool.and_eq_true] at fitting
      exact fitting.1.1

/-- Whether a node fits depends on the slot only through the form of the node. -/
theorem fits_of_admits {slot other : Slot} {node : Node} (fitting : node.fits slot = true)
    (admitted : other.admits node.form = true) : node.fits other = true := by
  cases node with
  | mk form info children =>
      simp only [fits, Bool.and_eq_true] at fitting ⊢
      exact ⟨⟨admitted, fitting.1.2⟩, fitting.2⟩

theorem form_of_nameTarget {node : Node} (fitting : node.fits .nameTarget = true) :
    ∃ id, node.form = .name id .store := by
  have admitted := admits_of_fits fitting
  generalize node.form = form at admitted
  cases form with
  | name id context =>
      cases context with
      | store => exact ⟨id, rfl⟩
      | _ => cases admitted
  | _ => cases admitted

theorem form_of_target {node : Node} {id : String} (fitting : node.fits .target = true)
    (named : node.identifier? = some id) : node.form = .name id .store := by
  have admitted := admits_of_fits fitting
  obtain ⟨context, form⟩ := form_of_identifier named
  rw [form] at admitted ⊢
  cases context with
  | store => rfl
  | _ => cases admitted

theorem form_of_parameterList {node : Node} (fitting : node.fits .parameterList = true) :
    ∃ defaults, node.form = .parameters defaults := by
  have admitted := admits_of_fits fitting
  generalize node.form = form at admitted
  cases form with
  | parameters defaults => exact ⟨defaults, rfl⟩
  | _ => cases admitted

theorem form_of_parameter {node : Node} (fitting : node.fits .parameter = true) :
    ∃ name hint, node.form = .parameter name hint := by
  have admitted := admits_of_fits fitting
  generalize node.form = form at admitted
  cases form with
  | parameter name hint => exact ⟨name, hint, rfl⟩
  | _ => cases admitted

theorem form_of_clause {node : Node} (fitting : node.fits .clause = true) :
    ∃ isAsync, node.form = .clause isAsync := by
  have admitted := admits_of_fits fitting
  generalize node.form = form at admitted
  cases form with
  | clause isAsync => exact ⟨isAsync, rfl⟩
  | _ => cases admitted

theorem form_of_handler {node : Node} (fitting : node.fits .handler = true) :
    ∃ name caught, node.form = .handler name caught := by
  have admitted := admits_of_fits fitting
  generalize node.form = form at admitted
  cases form with
  | handler name caught => exact ⟨name, caught, rfl⟩
  | _ => cases admitted

theorem form_of_arm {node : Node} (fitting : node.fits .arm = true) : node.form = .matchCase := by
  have admitted := admits_of_fits fitting
  generalize node.form = form at admitted
  cases form with
  | matchCase => rfl
  | _ => cases admitted

theorem form_of_imported {node : Node} (fitting : node.fits .imported = true) :
    ∃ name asName, node.form = .alias name asName := by
  have admitted := admits_of_fits fitting
  generalize node.form = form at admitted
  cases form
  all_goals first
    | exact ⟨_, _, rfl⟩
    | cases admitted

theorem slot_of_child {slot : Slot} {node child : Node} (fitting : node.fits slot = true)
    (member : child ∈ node.children) :
    ∃ inner, (child.role, inner) ∈ node.form.slots ∧ child.fits inner = true := by
  cases node with
  | mk form info children =>
      simp only [fits, Bool.and_eq_true] at fitting
      exact slot_of_fitsAll fitting.2 child member

theorem role_of_child {slot : Slot} {node child : Node} (fitting : node.fits slot = true)
    (isChild : child ∈ node.children) : child.role ∈ node.form.slots.map Prod.fst := by
  obtain ⟨inner, listed, _⟩ := slot_of_child fitting isChild
  exact List.mem_map_of_mem listed

theorem children_eq_nil {slot : Slot} {node : Node} (fitting : node.fits slot = true)
    (none : node.form.slots = []) : node.children = [] := by
  apply List.eq_nil_iff_forall_not_mem.mpr
  intro child member
  obtain ⟨inner, listed, _⟩ := slot_of_child fitting member
  rw [none] at listed
  cases listed

theorem fits_of_slot {slot inner : Slot} {node child : Node} (fitting : node.fits slot = true)
    (member : child ∈ node.children) (asked : (child.role, inner) ∈ node.form.slots) :
    child.fits inner = true := by
  obtain ⟨other, found, fittingChild⟩ := slot_of_child fitting member
  rw [Form.slot_unique asked found]
  exact fittingChild

theorem span_isSome_of_fits {node : Node} (fitting : node.fits .statement = true) :
    node.span.isSome = true := by
  cases node with
  | mk form info children =>
      simp only [fits, Slot.admits, Bool.and_eq_true, Bool.or_eq_true, Bool.not_eq_true'] at fitting
      rcases fitting.1.2 with none | placed
      · rw [fitting.1.1] at none
        cases none
      · exact placed

theorem fits_of_mem {slot : Slot} {root node : Node} (fitting : root.fits slot = true)
    (member : node ∈ root.nodes) : ∃ inner, node.fits inner = true := by
  induction root using Node.induction generalizing slot with
  | step form info children induction =>
      rcases mem_nodes_mk.mp member with rfl | ⟨child, isChild, inside⟩
      · exact ⟨slot, fitting⟩
      · obtain ⟨inner, _, fittingChild⟩ := slot_of_child fitting isChild
        exact induction child isChild fittingChild inside

namespace Grammatical

theorem form_eq {tree : Node} (grammatical : tree.grammatical = true) : tree.form = .module := by
  cases tree with
  | mk form info children =>
      cases form with
      | module => rfl
      | _ => cases grammatical

theorem slot_of_child {tree child : Node} (grammatical : tree.grammatical = true)
    (member : child ∈ tree.children) :
    child.role = .body ∧ child.fits .statement = true := by
  cases tree with
  | mk form info children =>
      cases form with
      | module =>
          obtain ⟨slot, found, fitting⟩ := slot_of_fitsAll grammatical child member
          simp only [Form.slots, List.mem_singleton, Prod.mk.injEq] at found
          obtain ⟨role, rfl⟩ := found
          exact ⟨role, fitting⟩
      | _ => cases grammatical

end Grammatical

/-- The tree of a module: built by the grammar, each node with a number of its own. -/
structure WellFormed (tree : Node) : Prop where
  grammatical : tree.grammatical = true
  distinct : tree.Distinct

namespace WellFormed

theorem fits_of_mem {tree node : Node} (wellFormed : tree.WellFormed) (member : node ∈ tree.nodes) :
    node = tree ∨ ∃ slot, node.fits slot = true := by
  rcases mem_nodes_iff.mp member with rfl | ⟨child, isChild, inside⟩
  · exact Or.inl rfl
  · have fitting := (Grammatical.slot_of_child wellFormed.grammatical isChild).2
    exact Or.inr (Node.fits_of_mem fitting inside)

/-- The slot that a child fills in its parent. -/
theorem slot_of_child {tree parent child : Node} (wellFormed : tree.WellFormed)
    (inside : parent ∈ tree.nodes) (isChild : child ∈ parent.children) :
    ∃ slot, (child.role, slot) ∈ parent.form.slots ∧ child.fits slot = true := by
  rcases wellFormed.fits_of_mem inside with rfl | ⟨outer, fitting⟩
  · obtain ⟨role, fitting⟩ := Grammatical.slot_of_child wellFormed.grammatical isChild
    refine ⟨.statement, ?_, fitting⟩
    rw [Grammatical.form_eq wellFormed.grammatical, role]
    simp [Form.slots]
  · exact Node.slot_of_child fitting isChild

theorem fits_of_slot {tree parent child : Node} {slot : Slot} (wellFormed : tree.WellFormed)
    (inside : parent ∈ tree.nodes) (isChild : child ∈ parent.children)
    (asked : (child.role, slot) ∈ parent.form.slots) : child.fits slot = true := by
  obtain ⟨other, found, fitting⟩ := wellFormed.slot_of_child inside isChild
  rw [Form.slot_unique asked found]
  exact fitting

theorem fits_expression {tree node : Node} (wellFormed : tree.WellFormed)
    (member : node ∈ tree.nodes) (expression : Slot.isExpression node.form = true) :
    node.fits .expression = true := by
  rcases wellFormed.fits_of_mem member with rfl | ⟨slot, fitting⟩
  · rw [Grammatical.form_eq wellFormed.grammatical] at expression
    cases expression
  · exact fits_of_admits fitting expression

theorem eq_of_module {tree node : Node} (wellFormed : tree.WellFormed) (member : node ∈ tree.nodes)
    (form : node.form = .module) : node = tree := by
  rcases wellFormed.fits_of_mem member with same | ⟨slot, fitting⟩
  · exact same
  · have admitted := admits_of_fits fitting
    rw [form] at admitted
    cases slot <;> cases admitted

end WellFormed

end Node

end SafeRefactor
