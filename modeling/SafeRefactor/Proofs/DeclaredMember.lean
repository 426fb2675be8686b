import SafeRefactor.Member.Unused
import SafeRefactor.Proofs.Receiver

/-!
# The declarations of members

Every member of a class is declared by a construct in the class: a function of its body,
a name stored in its body, or an attribute of the receiver stored in a method.  The place
of the member is where that construct writes its name.
-/

namespace SafeRefactor

namespace Node

theorem attributeNameSpan_eq (node : Node) (name : String) :
    node.attributeNameSpan name =
      ⟨(node.attributeNameSpan name).start,
        ⟨(node.attributeNameSpan name).start.line,
          (node.attributeNameSpan name).start.column + name.length⟩⟩ := by
  unfold attributeNameSpan
  cases node.span with
  | none => simp only [Int.add_left_neg]
  | some span => simp only [Int.sub_add_cancel]

end Node

namespace Member

private theorem mem_nodes_of_outsideClasses {node : Node} {stack : List Node}
    (member : node ∈ outsideClasses stack) : ∃ root ∈ stack, node ∈ root.nodes := by
  obtain ⟨root, isRoot, inside⟩ := mem_outsideClasses.mp member
  refine ⟨root, isRoot, ?_⟩
  clear isRoot member
  induction root using Node.induction with
  | step form info children induction =>
      rcases (mem_outsideClasses_root.mp inside).2 with rfl | ⟨child, isChild, below⟩
      · exact Node.self_mem_nodes _
      · exact Node.nodes_of_child isChild (induction child isChild below)

/-- The construct of a class that declares a member. -/
inductive DeclaredBy (definition : Node) (member : Member) (node : Node) : Prop where
  | function {isAsync : Bool} {returns : Option Printed} :
      node ∈ definition.field .body → node.form = .functionDef isAsync member.name returns →
      member.kind ≠ .field → member.span.start = ⟨node.start.line, node.functionNameColumn⟩ →
      DeclaredBy definition member node
  | inBody {statement : Node} :
      statement ∈ definition.field .body → node ∈ statement.nodes →
      node.form = .name member.name .store → member.kind = .field →
      member.span.start = node.start → DeclaredBy definition member node
  | onReceiver {method object : Node} {receiver : String} :
      method ∈ definition.field .body → method.selfParameter? = some receiver →
      node ∈ method.nodes → node.form = .attribute member.name .store →
      node.only? .value = some object → object.isNamed receiver = true → member.kind = .field →
      member.span.start = (node.attributeNameSpan member.name).start →
      DeclaredBy definition member node

section

variable {tree definition : Node} {member : Member}

theorem declaredBy_of_ofStatement (wellFormed : tree.WellFormed) (inside : definition ∈ tree.nodes)
    {statement : Node} (inBody : statement ∈ definition.field .body)
    (declared : member ∈ ofStatement definition.className statement) :
    member.className = definition.className ∧
      ∃ node ∈ definition.nodes, DeclaredBy definition member node := by
  have isChild := (Node.mem_field.mp inBody).1
  unfold ofStatement at declared
  split at declared
  · next isAsync name returns form =>
      obtain rfl := List.mem_singleton.mp declared
      refine ⟨rfl, statement, Node.child_mem_nodes isChild, ?_⟩
      apply DeclaredBy.function inBody form
      · simp only
        split <;> exact nofun
      · rfl
  · obtain ⟨target, isTarget, stored⟩ := List.mem_flatMap.mp declared
    obtain ⟨name, isName, rfl⟩ := List.mem_map.mp stored
    obtain ⟨walked, isStore⟩ := List.mem_filter.mp isName
    have below : name ∈ statement.nodes :=
      Node.nodes_of_child (Node.mem_field.mp isTarget).1 (Node.mem_walk.mp walked)
    split at isStore
    · next id context form =>
        obtain rfl : context = .store := by simpa using isStore
        refine ⟨rfl, name, Node.nodes_of_child isChild below, ?_⟩
        apply DeclaredBy.inBody inBody below
        · rw [ofName, Node.identifier?, form, Option.getD_some]
        · rfl
        · rfl
    · cases isStore
  · next hint form =>
      split at declared
      · next target found =>
          split at declared
          · next isName =>
              obtain ⟨id, named⟩ := Option.isSome_iff_exists.mp isName
              obtain rfl := List.mem_singleton.mp declared
              have isTarget : target ∈ statement.children := List.mem_of_find?_eq_some found
              have role : target.role = .target := by simpa using List.find?_some found
              have below := Node.child_mem_nodes isTarget
              refine ⟨rfl, target, Node.nodes_of_child isChild below, ?_⟩
              apply DeclaredBy.inBody inBody below
              · have inTree := Node.nodes_trans (Node.child_mem_nodes isChild) inside
                have asked : (target.role, Slot.target) ∈ statement.form.slots := by
                  simp [form, role, Form.slots]
                rw [ofName, named]
                exact Node.form_of_target (wellFormed.fits_of_slot inTree isTarget asked) named
              · rfl
              · rfl
          · cases declared
      · cases declared
  · cases declared

theorem declaredBy_of_ofMethod {method : Node} (inBody : method ∈ definition.field .body)
    (declared : member ∈ ofMethod definition.className method) :
    member.className = definition.className ∧
      ∃ node ∈ definition.nodes, DeclaredBy definition member node := by
  unfold ofMethod at declared
  split at declared
  · cases declared
  · next receiver isReceiver =>
      obtain ⟨statement, outside, stored⟩ := List.mem_flatMap.mp declared
      obtain ⟨root, isRoot, inRoot⟩ := mem_nodes_of_outsideClasses outside
      have isStatement : statement ∈ method.nodes :=
        Node.nodes_of_child (Node.mem_field.mp isRoot).1 inRoot
      -- Whatever the statement is, the member comes from a node of one of its targets.
      have fromTarget : ∃ declaredType, ∃ target ∈ statement.field .target, ∃ node ∈ target.walk,
          ofAttribute definition.className receiver declaredType statement node = some member := by
        unfold ofReceiverStores at stored
        simp only at stored
        split at stored
        · obtain ⟨target, isTarget, made⟩ := List.mem_flatMap.mp stored
          exact ⟨_, target, isTarget, List.mem_filterMap.mp made⟩
        · obtain ⟨target, isTarget, made⟩ := List.mem_flatMap.mp stored
          exact ⟨_, target, isTarget, List.mem_filterMap.mp made⟩
        · obtain ⟨target, isTarget, made⟩ := List.mem_flatMap.mp stored
          exact ⟨_, target, isTarget, List.mem_filterMap.mp made⟩
        · cases stored
      obtain ⟨declaredType, target, isTarget, node, walked, made⟩ := fromTarget
      have below : node ∈ method.nodes :=
        Node.nodes_trans
          (Node.nodes_of_child (Node.mem_field.mp isTarget).1 (Node.mem_walk.mp walked)) isStatement
      unfold ofAttribute at made
      split at made
      · next name form =>
          split at made
          · next isObject =>
              obtain rfl := Option.some.inj made
              obtain ⟨object, found, named⟩ := (Option.any_eq_true ..).mp isObject
              refine ⟨rfl, node, Node.nodes_of_child (Node.mem_field.mp inBody).1 below, ?_⟩
              exact DeclaredBy.onReceiver inBody isReceiver below form found named rfl rfl
          · cases made
      · cases made

private theorem mem_of_mem_addNew {members : List Member} {added : Member}
    (isThere : member ∈ addNew members added) : member ∈ members ∨ member = added := by
  unfold addNew at isThere
  split at isThere
  · exact Or.inl isThere
  · simpa using isThere

theorem mem_declarations_of_ofClass (isMember : member ∈ ofClass definition) :
    member ∈ declarations definition := by
  suffices all : ∀ items members : List Member, member ∈ items.foldl addNew members →
      member ∈ members ∨ member ∈ items by
    exact (all (declarations definition) [] isMember).resolve_left List.not_mem_nil
  intro items
  induction items with
  | nil => exact fun members isThere => Or.inl isThere
  | cons added rest induction =>
      intro members isThere
      rcases induction (addNew members added) isThere with earlier | later
      · rcases mem_of_mem_addNew earlier with old | rfl
        · exact Or.inl old
        · exact Or.inr List.mem_cons_self
      · exact Or.inr (List.mem_cons_of_mem _ later)

/-- Every member of a class is declared in it. -/
theorem exists_declaredBy (wellFormed : tree.WellFormed) (inside : definition ∈ tree.nodes)
    (isMember : member ∈ ofClass definition) :
    member.className = definition.className ∧
      ∃ node ∈ definition.nodes, DeclaredBy definition member node := by
  have declared := mem_declarations_of_ofClass isMember
  unfold declarations at declared
  rcases List.mem_append.mp declared with inBody | inMethod
  · obtain ⟨statement, isStatement, made⟩ := List.mem_flatMap.mp inBody
    exact declaredBy_of_ofStatement wellFormed inside isStatement made
  · obtain ⟨method, isMethod, made⟩ := List.mem_flatMap.mp inMethod
    exact declaredBy_of_ofMethod (List.mem_filter.mp isMethod).1 made

end

end Member

end SafeRefactor
