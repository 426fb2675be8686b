import SafeRefactor.Proofs.Enclosure
import SafeRefactor.Proofs.Receiver

/-!
# What the code of a method uses

The walk over the code of a method treats a call, an attribute and a plain name each in its
own way and passes over the receiver where it is the object of an attribute.  What it finds
is still a sum over all nodes outside of nested classes: what a node adds depends on the node
and on the construct directly around it.
-/

namespace SafeRefactor

namespace Form

def isCall : Form → Bool
  | .call => true
  | _ => false

def isAttribute : Form → Bool
  | .attribute .. => true
  | _ => false

private theorem attribute_or_name (form : Form) :
    (∃ member context, form = .attribute member context) ∨ (∃ id context, form = .name id context) ∨
      form.isAttribute = false ∧ ∀ id context, form ≠ .name id context := by
  cases form with
  | «attribute» member context => exact Or.inl ⟨member, context, rfl⟩
  | name id context => exact Or.inr (Or.inl ⟨id, context, rfl⟩)
  | _ => exact Or.inr (Or.inr ⟨rfl, nofun⟩)

end Form

namespace Node

/-- Whether the construct directly around a node calls it. -/
def isCallee (outer : Option Node) (node : Node) : Bool :=
  outer.any (fun call => call.form.isCall) && node.role = .callee

/-- Whether the construct directly around a node accesses an attribute of it. -/
def isObject (outer : Option Node) (node : Node) : Bool :=
  outer.any (fun access => access.form.isAttribute) && node.role = .value

/-- Whether a node is the attribute of the given name of the receiver. -/
def isOwnAttribute (receiver : Option String) (member : String) (node : Node) : Bool :=
  match node.form with
  | .attribute name _ =>
      name = member && (node.only? .value).any (fun object => receiver.any object.isNamed)
  | _ => false

/-- The node refers to the method of the given name: it is called as an attribute of that name,
unless of a call of `super`, or as a plain name; or it is not called and is that attribute of the
receiver, other than an instance member, or a plain name that is read. -/
inductive Refers (instanceMembers : List String) (receiver : Option String) (outer : Option Node)
    (node : Node) (name : String) : Prop where
  | calledAttribute {context : Context} : node.isCallee outer = true →
      node.form = .attribute name context →
      (node.only? .value).any Usage.isSuperCall = false →
      Refers instanceMembers receiver outer node name
  | calledName {context : Context} : node.isCallee outer = true → node.form = .name name context →
      Refers instanceMembers receiver outer node name
  | ownAttribute : node.isCallee outer = false → node.isOwnAttribute receiver name = true →
      name ∉ instanceMembers → Refers instanceMembers receiver outer node name
  | mention : node.isCallee outer = false → node.form = .name name .load →
      Refers instanceMembers receiver outer node name

section

variable {instanceMembers : List String} {receiver : Option String} {outer : Option Node}
  {node : Node} {name : String}

private theorem not_isObject_of_isCallee (called : node.isCallee outer = true) :
    node.isObject outer = false := by
  obtain ⟨_, role⟩ := Bool.and_eq_true_iff.mp called
  simp [isObject, of_decide_eq_true role]

private theorem not_isOwnAttribute (other : node.form.isAttribute = false) :
    node.isOwnAttribute receiver name = false := by
  unfold isOwnAttribute
  split
  · next form =>
      rw [form] at other
      cases other
  · rfl

theorem refers_attribute {member : String} {context : Context}
    (form : node.form = .attribute member context) :
    node.Refers instanceMembers receiver outer name ↔
      if node.isCallee outer then
        member = name ∧ (node.only? .value).any Usage.isSuperCall = false
      else node.isOwnAttribute receiver name = true ∧ name ∉ instanceMembers := by
  constructor
  · rintro (⟨called, same, direct⟩ | ⟨called, same⟩ | ⟨called, isOwn, unknown⟩ | ⟨called, same⟩)
    · rw [form] at same
      cases same
      rw [if_pos called]
      exact ⟨rfl, direct⟩
    · rw [form] at same
      cases same
    · rw [if_neg (by simp [called])]
      exact ⟨isOwn, unknown⟩
    · rw [form] at same
      cases same
  · split_ifs with called
    · rintro ⟨rfl, direct⟩
      exact .calledAttribute called form direct
    · rintro ⟨isOwn, unknown⟩
      exact .ownAttribute (by simpa using called) isOwn unknown

theorem refers_name {id : String} {context : Context} (form : node.form = .name id context) :
    node.Refers instanceMembers receiver outer name ↔
      id = name ∧ (node.isCallee outer = true ∨ context = .load) := by
  constructor
  · rintro (⟨called, same, direct⟩ | ⟨called, same⟩ | ⟨called, isOwn, unknown⟩ | ⟨called, same⟩)
    · rw [form] at same
      cases same
    · rw [form] at same
      cases same
      exact ⟨rfl, Or.inl called⟩
    · rw [not_isOwnAttribute (by rw [form]; rfl)] at isOwn
      cases isOwn
    · rw [form] at same
      cases same
      exact ⟨rfl, Or.inr rfl⟩
  · rintro ⟨rfl, read⟩
    cases called : node.isCallee outer with
    | true => exact .calledName called form
    | false =>
        obtain rfl : context = .load := by simpa [called] using read
        exact .mention called form

/-- No other construct refers to a method. -/
theorem not_refers (notAttribute : node.form.isAttribute = false)
    (notName : ∀ id context, node.form ≠ .name id context) :
    ¬ node.Refers instanceMembers receiver outer name := by
  rintro (⟨_, form, _⟩ | ⟨_, form⟩ | ⟨_, isOwn, _⟩ | ⟨_, form⟩)
  · rw [form] at notAttribute
    cases notAttribute
  · exact notName _ _ form
  · rw [not_isOwnAttribute notAttribute] at isOwn
    cases isOwn
  · exact notName _ _ form

end

/-- The node occurs in the code outside of the classes that the code defines. -/
def OccursOutside (node : Node) (code around : List Node) : Prop :=
  node.Occurs code around ∧ ∀ outer ∈ around, outer.form.isClass = false

/-- Each attribute access in the code has one object. -/
def HasObjects (code : List Node) : Prop :=
  ∀ root ∈ code, ∀ node ∈ root.nodes, node.form.isAttribute = true → node.children.length = 1

instance (code : List Node) : Decidable (HasObjects code) :=
  inferInstanceAs (Decidable (∀ root ∈ code, ∀ node ∈ root.nodes,
    node.form.isAttribute = true → node.children.length = 1))

end Node

namespace Usage

/-- Something that a piece of code uses if and only if one of its parts does. -/
structure Adds (flag : Usage → Prop) : Prop where
  empty : ¬ flag {}
  join : ∀ left right, flag (left.join right) ↔ flag left ∨ flag right

private theorem adds_used (name : String) : Adds (fun usage => name ∈ usage.used) where
  empty := List.not_mem_nil
  join _ _ := List.mem_append

private theorem adds_called (name : String) : Adds (fun usage => name ∈ usage.called) where
  empty := List.not_mem_nil
  join _ _ := List.mem_append

private theorem adds_mentionsReceiver : Adds (fun usage => usage.mentionsReceiver = true) where
  empty := Bool.false_ne_true
  join _ _ := Bool.or_eq_true_iff

variable {names : UsageNames} {flag : Usage → Prop}

theorem Adds.ofAll_iff (adds : Adds flag) {nodes : List Node} :
    flag (ofAll names nodes) ↔ ∃ node ∈ nodes, flag (ofNode names false node) := by
  induction nodes with
  | nil => simp [ofAll, adds.empty]
  | cons node rest induction => simp [ofAll, adds.join, induction]

theorem Adds.ofRole_iff (adds : Adds flag) {asCallee : Bool} {role : Role} {nodes : List Node} :
    flag (ofRole names asCallee role nodes) ↔
      ∃ node ∈ nodes, node.role = role ∧ flag (ofNode names asCallee node) := by
  induction nodes with
  | nil => simp [ofRole, adds.empty]
  | cons node rest induction =>
      rw [ofRole]
      split
      · next same => simp [adds.join, induction, same]
      · next other => simp [induction, other]

/-- What a node adds by itself, given the construct directly around it. -/
def own (names : UsageNames) (outer : Option Node) (node : Node) : Usage :=
  match node.form with
  | .attribute member _ =>
      if node.isCallee outer then ofCalledAttribute names member (node.only? .value)
      else if (node.only? .value).any names.isReceiver then ofReceiverAttribute names member
      else {}
  | .name id context =>
      if node.isCallee outer then ofCalledName names id
      else if node.isObject outer && names.isReceiver node then {}
      else ofName names id context
  | _ => {}

/-- What the walk finds in a node, given the construct directly around it.  The walk does not come
to the receiver as the object of an attribute. -/
def visit (names : UsageNames) (outer : Option Node) (node : Node) : Usage :=
  if node.isObject outer && names.isReceiver node then {}
  else ofNode names (node.isCallee outer) node

private theorem visit_of_not_receiver {outer : Option Node} {node : Node}
    (other : names.isReceiver node = false) :
    visit names outer node = ofNode names (node.isCallee outer) node := by
  simp [visit, other]

private theorem visit_of_not_attribute {outer node : Node}
    (other : outer.form.isAttribute = false) :
    visit names (some outer) node = ofNode names (node.isCallee (some outer)) node := by
  simp [visit, Node.isObject, other]

/-- The walk of a call goes to the callee, the arguments and the keywords. -/
theorem visit_call (adds : Adds flag) {outer : Option Node} {slot : Slot} {node : Node}
    (fitting : node.fits slot = true) (form : node.form = .call) :
    flag (visit names outer node) ↔
      ∃ child ∈ node.children, flag (visit names (some node) child) := by
  have inside (child : Node) :
      visit names (some node) child = ofNode names (child.role = .callee) child := by
    rw [visit_of_not_attribute (by rw [form]; rfl)]
    simp [Node.isCallee, form, Form.isCall]
  rw [visit_of_not_receiver (UsageNames.isReceiver_eq_false (by simp [form]))]
  simp only [inside]
  obtain ⟨_, info, children⟩ := node
  obtain rfl : _ = Form.call := form
  rw [ofNode, adds.join, adds.join, adds.ofRole_iff, adds.ofRole_iff, adds.ofRole_iff]
  constructor
  · rintro (⟨child, member, role, raised⟩ | ⟨child, member, role, raised⟩ |
      ⟨child, member, role, raised⟩)
    all_goals
      refine ⟨child, member, ?_⟩
      simpa [role] using raised
  · rintro ⟨child, member, raised⟩
    obtain ⟨inner, listed, _⟩ := Node.slot_of_child fitting member
    simp only [Node.form_mk, Form.slots, List.mem_cons, Prod.mk.injEq, List.not_mem_nil,
      or_false] at listed
    rcases listed with ⟨role, _⟩ | ⟨role, _⟩ | ⟨role, _⟩
    · exact Or.inl ⟨child, member, role, by simpa [role] using raised⟩
    · exact Or.inr (Or.inl ⟨child, member, role, by simpa [role] using raised⟩)
    · exact Or.inr (Or.inr ⟨child, member, role, by simpa [role] using raised⟩)

/-- The walk of an attribute looks at the attribute and goes to its object, unless that is the
receiver. -/
theorem visit_attribute (adds : Adds flag) {outer : Option Node} {slot : Slot} {node : Node}
    (fitting : node.fits slot = true) (single : node.children.length = 1) {member : String}
    {context : Context} (form : node.form = .attribute member context) :
    flag (visit names outer node) ↔ flag (own names outer node) ∨
      ∃ child ∈ node.children, flag (visit names (some node) child) := by
  obtain ⟨object, children⟩ := List.length_eq_one_iff.mp single
  have role : object.role = .value := by
    obtain ⟨inner, listed, _⟩ :=
      Node.slot_of_child fitting (by rw [children]; exact List.mem_cons_self)
    rw [form] at listed
    exact congrArg Prod.fst (List.mem_singleton.mp listed)
  have walked : visit names (some node) object =
      if names.isReceiver object then {} else ofNode names false object := by
    simp [visit, Node.isObject, Node.isCallee, form, Form.isAttribute, role]
  rw [visit_of_not_receiver (UsageNames.isReceiver_eq_false (by simp [form])), children]
  simp only [List.mem_singleton, exists_eq_left, walked]
  obtain ⟨_, info, _⟩ := node
  obtain rfl : _ = Form.attribute member context := form
  obtain rfl : _ = [object] := children
  have only : (Node.mk (.attribute member context) info [object]).only? .value = some object := by
    simp [Node.only?, role]
  simp only [own, Node.form_mk, only, Option.any_some]
  generalize Node.isCallee outer _ = asCallee
  rw [ofNode]
  by_cases receiver : names.isReceiver object = true
  · cases asCallee <;> simp [role, receiver, adds.join, adds.empty]
  · cases asCallee <;> simp [role, receiver, adds.join, adds.empty, ofRole, ofAll]

theorem visit_name {outer : Option Node} {node : Node} {id : String} {context : Context}
    (form : node.form = .name id context) : visit names outer node = own names outer node := by
  have apart : node.isCallee outer = true → node.isObject outer = false := by
    intro isCallee
    obtain ⟨_, role⟩ := Bool.and_eq_true_iff.mp isCallee
    simp [Node.isObject, of_decide_eq_true role]
  have walked (asCallee : Bool) : ofNode names asCallee node =
      if asCallee then ofCalledName names id else ofName names id context := by
    obtain ⟨_, info, children⟩ := node
    obtain rfl : _ = Form.name id context := form
    rw [ofNode]
  rw [visit, own.eq_1, form, walked]
  cases isCallee : node.isCallee outer with
  | true => simp [apart isCallee]
  | false => simp

theorem visit_other (adds : Adds flag) {outer : Option Node} {node : Node}
    (notClass : node.form.isClass = false) (notCall : node.form.isCall = false)
    (notAttribute : node.form.isAttribute = false)
    (notName : ∀ id context, node.form ≠ .name id context) :
    flag (visit names outer node) ↔
      ∃ child ∈ node.children, flag (visit names (some node) child) := by
  have inside (child : Node) : visit names (some node) child = ofNode names false child := by
    rw [visit_of_not_attribute notAttribute]
    simp [Node.isCallee, notCall]
  rw [visit_of_not_receiver (UsageNames.isReceiver_eq_false notName)]
  simp only [inside, ← adds.ofAll_iff]
  cases node with
  | mk form info children =>
      cases form with
      | classDef name => cases notClass
      | call => cases notCall
      | «attribute» name context => cases notAttribute
      | name id context => exact absurd rfl (notName id context)
      | _ => rw [ofNode] <;> simp

theorem own_of_other {outer : Option Node} {node : Node}
    (notAttribute : node.form.isAttribute = false)
    (notName : ∀ id context, node.form ≠ .name id context) : own names outer node = {} := by
  unfold own
  split
  · next form =>
      rw [form] at notAttribute
      cases notAttribute
  · next id context form => exact absurd form (notName id context)
  · rfl

theorem own_attribute {outer : Option Node} {node : Node} {member : String} {context : Context}
    (form : node.form = .attribute member context) :
    own names outer node =
      if node.isCallee outer then ofCalledAttribute names member (node.only? .value)
      else if (node.only? .value).any names.isReceiver then ofReceiverAttribute names member
      else {} := by
  rw [own.eq_1, form]

theorem own_name {outer : Option Node} {node : Node} {id : String} {context : Context}
    (form : node.form = .name id context) :
    own names outer node =
      if node.isCallee outer then ofCalledName names id
      else if node.isObject outer && names.isReceiver node then {}
      else ofName names id context := by
  rw [own.eq_1, form]

/-- One step of the walk: what is found in a node is what the node adds by itself or is found in a
constituent of it, unless the node is a class. -/
theorem visit_step (adds : Adds flag) {outer : Option Node} {slot : Slot} {node : Node}
    (fitting : node.fits slot = true)
    (single : node.form.isAttribute = true → node.children.length = 1) :
    flag (visit names outer node) ↔ flag (own names outer node) ∨ (node.form.isClass = false ∧
      ∃ child ∈ node.children, flag (visit names (some node) child)) := by
  rcases node.form.attribute_or_name with ⟨member, context, form⟩ | ⟨id, context, form⟩ |
    ⟨notAttribute, notName⟩
  · rw [visit_attribute adds fitting (single (by rw [form]; rfl)) form, form]
    simp [Form.isClass]
  · have noChildren : node.children = [] := Node.children_eq_nil fitting (by rw [form]; rfl)
    rw [visit_name form, noChildren]
    simp
  rw [own_of_other notAttribute notName]
  simp only [adds.empty, false_or]
  by_cases isCall : node.form.isCall = true
  · have form : node.form = .call := by
      generalize node.form = form at isCall
      cases form with
      | call => rfl
      | _ => cases isCall
    rw [visit_call adds fitting form, form]
    simp [Form.isClass]
  cases isClass : node.form.isClass with
  | true =>
      have nothing : ofNode names (node.isCallee outer) node = {} := by
        obtain ⟨form, info, children⟩ := node
        cases form with
        | classDef name => rw [ofNode]
        | _ => cases isClass
      rw [visit_of_not_receiver (UsageNames.isReceiver_eq_false notName), nothing]
      simp [adds.empty]
  | false =>
      rw [visit_other adds isClass (by simpa using isCall) notAttribute notName]
      simp

/-- The whole walk: what is found in a tree is what some node outside of its classes adds by
itself. -/
theorem visit_iff (adds : Adds flag) {outer : Option Node} {slot : Slot} {root : Node}
    (fitting : root.fits slot = true) (objects : Node.HasObjects [root]) :
    flag (visit names outer root) ↔ ∃ node around, node.OccursOutside [root] around ∧
      flag (own names (around.getLast?.or outer) node) := by
  induction root using Node.induction generalizing outer slot with
  | step form info children induction =>
      have single := objects _ List.mem_cons_self _ (Node.self_mem_nodes _)
      rw [visit_step adds fitting single]
      have below (child : Node) (isChild : child ∈ children) :
          flag (visit names (some (.mk form info children)) child) ↔
            ∃ node around, node.OccursOutside [child] around ∧
              flag (own names (around.getLast?.or (some (.mk form info children))) node) := by
        obtain ⟨inner, _, fittingChild⟩ := Node.slot_of_child fitting isChild
        apply induction child isChild fittingChild
        intro other isOther node inside
        obtain rfl := List.mem_singleton.mp isOther
        exact objects _ List.mem_cons_self node (Node.nodes_of_child isChild inside)
      constructor
      · rintro (raised | ⟨notClass, child, isChild, raised⟩)
        · exact ⟨_, [], ⟨.here List.mem_cons_self, nofun⟩, raised⟩
        · obtain ⟨node, around, ⟨occurs, outside⟩, raised⟩ := (below child isChild).mp raised
          refine ⟨node, _ :: around, ⟨.inside List.mem_cons_self
            (Node.Occurs.iff_exists_root.mpr ⟨child, isChild, occurs⟩), ?_⟩, ?_⟩
          · exact List.forall_mem_cons.mpr ⟨notClass, outside⟩
          · cases last : around.getLast? <;> simpa [List.getLast?_cons, last] using raised
      · rintro ⟨node, around, ⟨occurs, outside⟩, raised⟩
        rcases Node.Occurs.iff_root.mp occurs with ⟨rfl, rfl⟩ | ⟨inner, deeper, rfl⟩
        · exact Or.inl raised
        · obtain ⟨notClass, outside⟩ := List.forall_mem_cons.mp outside
          obtain ⟨child, isChild, occurs⟩ := Node.Occurs.iff_exists_root.mp deeper
          refine Or.inr ⟨notClass, child, isChild, (below child isChild).mpr
            ⟨node, inner, ⟨occurs, outside⟩, ?_⟩⟩
          cases last : inner.getLast? <;> simpa [List.getLast?_cons, last] using raised

/-- What the statements of a method use. -/
theorem ofAll_iff_own (adds : Adds flag) {code : List Node}
    (fitting : ∀ statement ∈ code, statement.fits .statement = true)
    (objects : Node.HasObjects code) :
    flag (ofAll names code) ↔ ∃ node around, node.OccursOutside code around ∧
      flag (own names around.getLast? node) := by
  have each (statement : Node) (member : statement ∈ code) :
      flag (ofNode names false statement) ↔ ∃ node around,
        node.OccursOutside [statement] around ∧ flag (own names around.getLast? node) := by
    have whole : visit names none statement = ofNode names false statement := by
      simp [visit, Node.isObject, Node.isCallee]
    have single : Node.HasObjects [statement] :=
      fun root isRoot => objects root (by rwa [List.mem_singleton.mp isRoot])
    rw [← whole, visit_iff adds (fitting statement member) single]
    simp only [Option.or_none]
  rw [adds.ofAll_iff]
  constructor
  · rintro ⟨statement, member, raised⟩
    obtain ⟨node, around, ⟨occurs, outside⟩, raised⟩ := (each statement member).mp raised
    exact ⟨node, around, ⟨Node.Occurs.iff_exists_root.mpr ⟨statement, member, occurs⟩, outside⟩,
      raised⟩
  · rintro ⟨node, around, ⟨occurs, outside⟩, raised⟩
    obtain ⟨statement, member, inside⟩ := Node.Occurs.iff_exists_root.mp occurs
    exact ⟨statement, member, (each statement member).mpr ⟨node, around, ⟨inside, outside⟩, raised⟩⟩

private theorem isOwnAttribute_iff {node : Node} {member name : String} {context : Context}
    (form : node.form = .attribute member context) :
    node.isOwnAttribute names.receiver name = true ↔
      member = name ∧ (node.only? .value).any names.isReceiver = true := by
  have same : (fun object => names.receiver.any object.isNamed) = names.isReceiver := rfl
  rw [Node.isOwnAttribute, form]
  simp [same]

private theorem isReceiver_iff {node : Node} {id : String} {context : Context}
    (form : node.form = .name id context) :
    names.isReceiver node = true ↔ names.receiver = some id := by
  cases receiver : names.receiver <;>
    simp [UsageNames.isReceiver, Node.isNamed, form, receiver, eq_comm]

private theorem mem_used_receiverAttribute {member name : String} :
    name ∈ (ofReceiverAttribute names member).used ↔
      name ∈ names.instanceMembers ∧ member = name := by
  unfold ofReceiverAttribute
  grind

private theorem mem_called_receiverAttribute {member name : String} :
    name ∈ (ofReceiverAttribute names member).called ↔
      name ∈ names.methods ∧ name ∉ names.instanceMembers ∧ member = name := by
  unfold ofReceiverAttribute
  grind

private theorem mem_used_calledAttribute {member name : String} {object : Option Node} :
    name ∈ (ofCalledAttribute names member object).used ↔
      name ∈ names.instanceMembers ∧ member = name ∧ object.any names.isReceiver = true := by
  unfold ofCalledAttribute
  grind

private theorem mem_called_calledAttribute {member name : String} {object : Option Node} :
    name ∈ (ofCalledAttribute names member object).called ↔
      name ∈ names.methods ∧ member = name ∧ object.any isSuperCall = false := by
  unfold ofCalledAttribute
  grind

private theorem mem_called_calledName {id name : String} :
    name ∈ (ofCalledName names id).called ↔ name ∈ names.methods ∧ id = name := by
  unfold ofCalledName
  grind

private theorem mem_called_name {id name : String} {context : Context} :
    name ∈ (ofName names id context).called ↔
      name ∈ names.methods ∧ names.receiver ≠ some id ∧ id = name ∧ context = .load := by
  unfold ofName
  grind

private theorem mentionsReceiver_calledName {id : String} :
    (ofCalledName names id).mentionsReceiver = true ↔
      names.receiver = some id ∧ id ∉ names.methods ∧ id ≠ "super" := by
  unfold ofCalledName
  grind

private theorem mentionsReceiver_name {id : String} {context : Context} :
    (ofName names id context).mentionsReceiver = true ↔ names.receiver = some id := by
  unfold ofName
  grind

theorem mem_used_own {outer : Option Node} {node : Node} {name : String} :
    name ∈ (own names outer node).used ↔
      name ∈ names.instanceMembers ∧ node.isOwnAttribute names.receiver name = true := by
  rcases node.form.attribute_or_name with ⟨member, context, form⟩ | ⟨id, context, form⟩ |
    ⟨notAttribute, notName⟩
  · rw [isOwnAttribute_iff form, own_attribute form]
    split_ifs with called onReceiver
    · exact mem_used_calledAttribute
    · rw [mem_used_receiverAttribute]
      simp [onReceiver]
    · simp [onReceiver]
  · have unused : (own names outer node).used = [] := by
      rw [own_name form, ofCalledName, ofName]
      split_ifs <;> rfl
    rw [unused, Node.not_isOwnAttribute (by rw [form]; rfl)]
    simp
  · rw [own_of_other notAttribute notName, Node.not_isOwnAttribute notAttribute]
    simp

/-- A node mentions the receiver by itself where it is the receiver and not an object. -/
theorem mentionsReceiver_own {outer : Option Node} {node : Node}
    (apart : ∀ self, names.receiver = some self → self ∉ names.methods ∧ self ≠ "super") :
    (own names outer node).mentionsReceiver = true ↔
      names.isReceiver node = true ∧ node.isObject outer = false := by
  rcases node.form.attribute_or_name with ⟨member, context, form⟩ | ⟨id, context, form⟩ |
    ⟨notAttribute, notName⟩
  · have silent : (own names outer node).mentionsReceiver = false := by
      rw [own_attribute form, ofCalledAttribute, ofReceiverAttribute]
      split_ifs <;> rfl
    rw [silent, UsageNames.isReceiver_eq_false (by simp [form])]
    simp
  · rw [own_name form]
    split_ifs with called passed
    · rw [mentionsReceiver_calledName, isReceiver_iff form, Node.not_isObject_of_isCallee called]
      constructor
      · rintro ⟨isSelf, _⟩
        exact ⟨isSelf, rfl⟩
      · rintro ⟨isSelf, _⟩
        exact ⟨isSelf, apart id isSelf⟩
    · obtain ⟨isObject, _⟩ := Bool.and_eq_true_iff.mp passed
      simp [isObject]
    · rw [mentionsReceiver_name, ← isReceiver_iff form]
      cases isReceiver : names.isReceiver node <;> simp_all
  · rw [own_of_other notAttribute notName, UsageNames.isReceiver_eq_false notName]
    simp

theorem mem_called_own {outer : Option Node} {node : Node} {name : String}
    (apart : ∀ self, names.receiver = some self → self ∉ names.methods ∧ self ≠ "super") :
    name ∈ (own names outer node).called ↔ name ∈ names.methods ∧
      node.Refers names.instanceMembers names.receiver outer name := by
  rcases node.form.attribute_or_name with ⟨member, context, form⟩ | ⟨id, context, form⟩ |
    ⟨notAttribute, notName⟩
  · rw [Node.refers_attribute form, own_attribute form]
    split_ifs with called onReceiver
    · exact mem_called_calledAttribute
    · rw [mem_called_receiverAttribute, isOwnAttribute_iff form]
      simp [onReceiver]
      tauto
    · rw [isOwnAttribute_iff form]
      simp [onReceiver]
  · rw [Node.refers_name form, own_name form]
    split_ifs with called passed
    · rw [mem_called_calledName]
      simp [called]
    · have isSelf := (isReceiver_iff form).mp (Bool.and_eq_true_iff.mp passed).2
      have noMethod := (apart id isSelf).1
      constructor
      · exact fun absent => absurd absent List.not_mem_nil
      · rintro ⟨isMethod, rfl, _⟩
        exact absurd isMethod noMethod
    · rw [mem_called_name, Bool.eq_false_iff.mpr called]
      constructor
      · rintro ⟨isMethod, _, same, read⟩
        exact ⟨isMethod, same, Or.inr read⟩
      · rintro ⟨isMethod, rfl, called | read⟩
        · cases called
        · exact ⟨isMethod, fun isSelf => (apart id isSelf).1 isMethod, rfl, read⟩
  · rw [own_of_other notAttribute notName]
    simp [Node.not_refers notAttribute notName]

end Usage

namespace UsageFacts

/-- The facts say exactly what the nodes of the code outside of its classes do: which instance
members are attributes of the receiver, whether the receiver occurs other than as the object of an
attribute, and which methods are referred to.  A method that refers to itself is recursive and is
not one of those it calls. -/
structure Exact (instanceMembers siblings : List String) (method : String)
    (receiver : Option String) (code : List Node) (facts : UsageFacts) : Prop where
  used_sorted : facts.usedInstanceMembers.Pairwise (· < ·)
  used : ∀ name, name ∈ facts.usedInstanceMembers ↔ name ∈ instanceMembers ∧
    ∃ (node : Node) (around : List Node), node.OccursOutside code around ∧
      node.isOwnAttribute receiver name = true
  mentions : facts.mentionsReceiver = true ↔ ∃ (node : Node) (around : List Node),
    node.OccursOutside code around ∧ receiver.any node.isNamed = true ∧
      node.isObject around.getLast? = false
  called_sorted : facts.calledMethods.Pairwise (· < ·)
  called_other : method ∉ facts.calledMethods
  called : ∀ name, (name ∈ facts.calledMethods ∨ name = method ∧ facts.isRecursive = true) ↔
    (name ∈ siblings ∨ name = method) ∧ ∃ (node : Node) (around : List Node),
      node.OccursOutside code around ∧ node.Refers instanceMembers receiver around.getLast? name

/-- A receiver whose name is that of no method and not `super`. -/
def ReceiverApart (siblings : List String) (method : String) (receiver : Option String) : Prop :=
  ∀ self, receiver = some self → self ∉ siblings ∧ self ≠ method ∧ self ≠ "super"

theorem exact_ofStatements (instanceMembers siblings : List String) (method : String)
    {receiver : Option String} {code : List Node}
    (fitting : ∀ statement ∈ code, statement.fits .statement = true)
    (objects : Node.HasObjects code) (distinct : ReceiverApart siblings method receiver) :
    (ofStatements instanceMembers siblings method receiver code).Exact instanceMembers siblings
      method receiver code := by
  let names : UsageNames := { instanceMembers, methods := siblings ++ [method], receiver }
  have isMethod (name : String) : name ∈ names.methods ↔ name ∈ siblings ∨ name = method := by
    simp [names]
  have apart : ∀ self, names.receiver = some self → self ∉ names.methods ∧ self ≠ "super" := by
    intro self isSelf
    obtain ⟨noSibling, other, notSuper⟩ := distinct self isSelf
    exact ⟨fun member => ((isMethod self).mp member).elim noSibling other, notSuper⟩
  have used (name : String) : name ∈ (Usage.ofAll names code).used ↔
      name ∈ instanceMembers ∧ ∃ (node : Node) (around : List Node),
        node.OccursOutside code around ∧ node.isOwnAttribute receiver name = true := by
    rw [Usage.ofAll_iff_own (Usage.adds_used name) fitting objects]
    simp only [Usage.mem_used_own]
    constructor
    · rintro ⟨node, around, outside, known, isOwn⟩
      exact ⟨known, node, around, outside, isOwn⟩
    · rintro ⟨known, node, around, outside, isOwn⟩
      exact ⟨node, around, outside, known, isOwn⟩
  have mentions : (Usage.ofAll names code).mentionsReceiver = true ↔
      ∃ (node : Node) (around : List Node), node.OccursOutside code around ∧
        receiver.any node.isNamed = true ∧ node.isObject around.getLast? = false := by
    rw [Usage.ofAll_iff_own Usage.adds_mentionsReceiver fitting objects]
    simp only [Usage.mentionsReceiver_own apart]
    rfl
  have called (name : String) : name ∈ (Usage.ofAll names code).called ↔
      (name ∈ siblings ∨ name = method) ∧ ∃ (node : Node) (around : List Node),
        node.OccursOutside code around ∧
          node.Refers instanceMembers receiver around.getLast? name := by
    rw [Usage.ofAll_iff_own (Usage.adds_called name) fitting objects]
    simp only [Usage.mem_called_own apart, isMethod]
    constructor
    · rintro ⟨node, around, outside, isMethod, refers⟩
      exact ⟨isMethod, node, around, outside, refers⟩
    · rintro ⟨isMethod, node, around, outside, refers⟩
      exact ⟨node, around, outside, isMethod, refers⟩
  constructor
  · exact Text.pairwise_sortedNames _
  · exact fun name => Text.mem_sortedNames.trans (used name)
  · exact mentions
  · exact Text.pairwise_sortedNames _
  · simp [ofStatements, Text.mem_sortedNames]
  · intro name
    rw [← called name]
    by_cases same : name = method <;> simp [ofStatements, Text.mem_sortedNames, same, names]

/-- The facts about a method are exact, whether its statements are given or its definition. -/
theorem usage_facts_are_exact (instanceMembers siblings : List String) (method : String) :
    (∀ code : List Node, (∀ statement ∈ code, statement.fits .statement = true) →
      Node.HasObjects code → ReceiverApart siblings method (some "self") →
      (ofBlock instanceMembers siblings method code).Exact instanceMembers siblings method
        (some "self") code) ∧
    ∀ (definition : Node) (slot : Slot), definition.fits slot = true →
      definition.form.isFunction = true → Node.HasObjects (definition.field .body) →
      ReceiverApart siblings method definition.selfParameter? →
      ∃ facts, ofDefinition instanceMembers siblings method definition = .ok facts ∧
        facts.Exact instanceMembers siblings method definition.selfParameter?
          (definition.field .body) := by
  constructor
  · intro code fitting objects distinct
    exact exact_ofStatements instanceMembers siblings method fitting objects distinct
  · intro definition slot fitting isFunction objects distinct
    have fittingBody : ∀ statement ∈ definition.field .body, statement.fits .statement = true := by
      intro statement member
      obtain ⟨isChild, role⟩ := Node.mem_field.mp member
      apply Node.fits_of_slot fitting isChild
      rw [role]
      generalize definition.form = form at isFunction
      cases form with
      | functionDef isAsync name returns => simp [Form.slots]
      | _ => cases isFunction
    refine ⟨_, if_pos isFunction, ?_⟩
    exact exact_ofStatements instanceMembers siblings method fittingBody objects distinct

/-- The method
`def run(self, items):
    self.total = self.step(items)
    super().stop(map(self.run, items), lambda: self)`. -/
def runMethod : Node :=
  .mk (.functionDef false "run" none) ⟨2, .body, some ⟨⟨2, 4⟩, ⟨4, 56⟩⟩⟩ [
    .mk (.parameters []) ⟨3, .parameters, none⟩ [
      .mk (.parameter "self" none) ⟨4, .positional, some ⟨⟨2, 12⟩, ⟨2, 16⟩⟩⟩ [],
      .mk (.parameter "items" none) ⟨5, .positional, some ⟨⟨2, 18⟩, ⟨2, 23⟩⟩⟩ []],
    .mk .assign ⟨6, .body, some ⟨⟨3, 8⟩, ⟨3, 37⟩⟩⟩ [
      .mk (.attribute "total" .store) ⟨7, .target, some ⟨⟨3, 8⟩, ⟨3, 18⟩⟩⟩ [
        .mk (.name "self" .load) ⟨8, .value, some ⟨⟨3, 8⟩, ⟨3, 12⟩⟩⟩ []],
      .mk .call ⟨9, .value, some ⟨⟨3, 21⟩, ⟨3, 37⟩⟩⟩ [
        .mk (.attribute "step" .load) ⟨10, .callee, some ⟨⟨3, 21⟩, ⟨3, 30⟩⟩⟩ [
          .mk (.name "self" .load) ⟨11, .value, some ⟨⟨3, 21⟩, ⟨3, 25⟩⟩⟩ []],
        .mk (.name "items" .load) ⟨12, .argument, some ⟨⟨3, 31⟩, ⟨3, 36⟩⟩⟩ []]],
    .mk .exprStmt ⟨13, .body, some ⟨⟨4, 8⟩, ⟨4, 56⟩⟩⟩ [
      .mk .call ⟨14, .value, some ⟨⟨4, 8⟩, ⟨4, 56⟩⟩⟩ [
        .mk (.attribute "stop" .load) ⟨15, .callee, some ⟨⟨4, 8⟩, ⟨4, 20⟩⟩⟩ [
          .mk .call ⟨16, .value, some ⟨⟨4, 8⟩, ⟨4, 15⟩⟩⟩ [
            .mk (.name "super" .load) ⟨17, .callee, some ⟨⟨4, 8⟩, ⟨4, 13⟩⟩⟩ []]],
        .mk .call ⟨18, .argument, some ⟨⟨4, 21⟩, ⟨4, 41⟩⟩⟩ [
          .mk (.name "map" .load) ⟨19, .callee, some ⟨⟨4, 21⟩, ⟨4, 24⟩⟩⟩ [],
          .mk (.attribute "run" .load) ⟨20, .argument, some ⟨⟨4, 25⟩, ⟨4, 33⟩⟩⟩ [
            .mk (.name "self" .load) ⟨21, .value, some ⟨⟨4, 25⟩, ⟨4, 29⟩⟩⟩ []],
          .mk (.name "items" .load) ⟨22, .argument, some ⟨⟨4, 35⟩, ⟨4, 40⟩⟩⟩ []],
        .mk .lambda ⟨23, .argument, some ⟨⟨4, 43⟩, ⟨4, 55⟩⟩⟩ [
          .mk (.parameters []) ⟨24, .parameters, none⟩ [],
          .mk (.name "self" .load) ⟨25, .result, some ⟨⟨4, 51⟩, ⟨4, 55⟩⟩⟩ []]]]]

/-- The method uses `total`, calls `step`, refers to itself and hands out its receiver, and what it
calls on `super` is not its own. -/
theorem usage_facts_are_exact_run :
    ∃ facts, ofDefinition ["total"] ["step", "stop"] "run" runMethod = .ok facts ∧
      facts.Exact ["total"] ["step", "stop"] "run" (some "self") (runMethod.field .body) ∧
      facts.usedInstanceMembers = ["total"] ∧ facts.calledMethods = ["step"] ∧
      facts.isRecursive = true ∧ facts.mentionsReceiver = true := by
  have apart : ReceiverApart ["step", "stop"] "run" (some "self") := by
    rintro self ⟨⟩
    decide
  obtain ⟨_, ofDefinition_exact⟩ := usage_facts_are_exact ["total"] ["step", "stop"] "run"
  obtain ⟨facts, computed, exact⟩ :=
    ofDefinition_exact runMethod .statement (by decide) rfl (by decide) apart
  refine ⟨facts, computed, exact, ?_⟩
  have known : (ofDefinition ["total"] ["step", "stop"] "run" runMethod).toOption =
      some ⟨true, true, true, true, true, ["total"], ["step"]⟩ := by cbv
  rw [computed] at known
  cases known
  decide

end UsageFacts

end SafeRefactor
