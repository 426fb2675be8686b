import SafeRefactor.Member.Usage
import SafeRefactor.Proofs.Grammar

/-!
# Receivers of static methods

A method can become static when its code uses nothing of its class.  The receiver then
occurs in it only as the object of attributes that neither the instances nor the methods
of the class are known to have; where there is no such attribute it does not occur at all.
-/

namespace SafeRefactor

namespace Member

private theorem outsideClasses_append (front back : List Node) :
    outsideClasses (front ++ back) = outsideClasses front ++ outsideClasses back := by
  induction front using outsideClasses.induct with
  | case1 => simp [outsideClasses]
  | case2 node rest isClass induction =>
      rw [List.cons_append, outsideClasses, if_pos isClass, outsideClasses,
        if_pos isClass, induction]
  | case3 node rest notClass induction =>
      rw [List.cons_append, outsideClasses, if_neg notClass, outsideClasses, if_neg notClass,
        ← List.append_assoc, induction, List.cons_append]

theorem mem_outsideClasses {node : Node} {stack : List Node} :
    node ∈ outsideClasses stack ↔ ∃ root ∈ stack, node ∈ outsideClasses [root] := by
  induction stack with
  | nil => simp [outsideClasses]
  | cons root rest induction =>
      rw [← List.singleton_append, outsideClasses_append, List.mem_append, induction]
      simp

/-- Outside the classes of a tree are its root, unless that is a class, and what is outside the
classes of its children. -/
theorem mem_outsideClasses_root {node root : Node} :
    node ∈ outsideClasses [root] ↔ root.form.isClass = false ∧
      (node = root ∨ ∃ child ∈ root.children, node ∈ outsideClasses [child]) := by
  rw [outsideClasses]
  by_cases isClass : root.form.isClass = true
  · simp [isClass, outsideClasses]
  · rw [if_neg isClass, List.append_nil, List.mem_cons, mem_outsideClasses]
    simp [isClass]

private theorem child_outsideClasses {node child : Node} {stack : List Node}
    (member : node ∈ outsideClasses stack) (isChild : child ∈ node.children)
    (outside : child.form.isClass = false) : child ∈ outsideClasses stack := by
  obtain ⟨root, isRoot, inside⟩ := mem_outsideClasses.mp member
  apply mem_outsideClasses.mpr
  refine ⟨root, isRoot, ?_⟩
  clear isRoot member
  induction root using Node.induction with
  | step form info children induction =>
      obtain ⟨notClass, here⟩ := mem_outsideClasses_root.mp inside
      apply mem_outsideClasses_root.mpr
      refine ⟨notClass, Or.inr ?_⟩
      rcases here with rfl | ⟨other, isOther, below⟩
      · exact ⟨child, isChild, mem_outsideClasses_root.mpr ⟨outside, Or.inl rfl⟩⟩
      · exact ⟨other, isOther, induction other isOther below⟩

end Member

namespace UsageNames

/-- Whether a node accesses an attribute of the receiver that is neither a known instance member nor
a known method. -/
def isUnknownAccess (names : UsageNames) (node : Node) : Bool :=
  match node.form with
  | .attribute member _ =>
      (node.only? .value).any names.isReceiver && !names.instanceMembers.contains member &&
        !names.methods.contains member
  | _ => false

theorem form_of_isReceiver {names : UsageNames} {node : Node}
    (holds : names.isReceiver node = true) :
    ∃ id context, node.form = .name id context ∧ names.receiver = some id := by
  rw [isReceiver.eq_1, Option.any_eq_true] at holds
  obtain ⟨id, isId, named⟩ := holds
  unfold Node.isNamed at named
  split at named
  · next other context form =>
      rw [decide_eq_true_eq] at named
      exact ⟨id, context, by rw [form, named], isId⟩
  · cases named

theorem isReceiver_eq_false {names : UsageNames} {node : Node}
    (other : ∀ id context, node.form ≠ .name id context) : names.isReceiver node = false := by
  rw [Bool.eq_false_iff]
  intro holds
  obtain ⟨id, context, form, _⟩ := form_of_isReceiver holds
  exact other id context form

end UsageNames

namespace Usage

/-- Code that uses nothing of its class. -/
structure Idle (usage : Usage) : Prop where
  used : usage.used = []
  called : usage.called = []
  receiver : usage.mentionsReceiver = false
  super : usage.callsSuper = false

theorem idle_join {left right : Usage} : (left.join right).Idle ↔ left.Idle ∧ right.Idle := by
  constructor
  · rintro ⟨used, called, receiver, super⟩
    simp only [join, List.append_eq_nil_iff, Bool.or_eq_false_iff] at used called receiver super
    exact ⟨⟨used.1, called.1, receiver.1, super.1⟩, ⟨used.2, called.2, receiver.2, super.2⟩⟩
  · rintro ⟨first, second⟩
    constructor
    · simp [join, first.used, second.used]
    · simp [join, first.called, second.called]
    · simp [join, first.receiver, second.receiver]
    · simp [join, first.super, second.super]

variable {names : UsageNames}

theorem idle_ofAll {nodes : List Node} :
    (ofAll names nodes).Idle ↔ ∀ node ∈ nodes, (ofNode names false node).Idle := by
  induction nodes with
  | nil =>
      rw [ofAll]
      exact ⟨fun _ _ member => absurd member List.not_mem_nil, fun _ => ⟨rfl, rfl, rfl, rfl⟩⟩
  | cons node rest induction => rw [ofAll, idle_join, induction, List.forall_mem_cons]

theorem idle_ofRole {asCallee : Bool} {role : Role} {nodes : List Node} :
    (ofRole names asCallee role nodes).Idle ↔
      ∀ node ∈ nodes, node.role = role → (ofNode names asCallee node).Idle := by
  induction nodes with
  | nil =>
      rw [ofRole]
      exact ⟨fun _ _ member => absurd member List.not_mem_nil, fun _ => ⟨rfl, rfl, rfl, rfl⟩⟩
  | cons node rest induction =>
      rw [ofRole, List.forall_mem_cons]
      split
      · next same => rw [idle_join, induction, forall_prop_of_true same]
      · next other => rw [induction, forall_prop_of_false other, true_and]

private theorem not_receiver_of_name {asCallee : Bool} {id : String} {context : Context}
    (idle : (if asCallee then ofCalledName names id else ofName names id context).Idle) :
    names.receiver ≠ some id := by
  intro isReceiver
  cases asCallee with
  | true =>
      rw [if_pos rfl, ofCalledName] at idle
      split at idle
      · cases idle.called
      · split at idle
        · cases idle.super
        · cases idle.receiver
  | false =>
      rw [if_neg Bool.false_ne_true, ofName, if_pos isReceiver] at idle
      cases idle.receiver

theorem not_isSuperCall {object : Node} (isReceiver : names.isReceiver object = true) :
    isSuperCall object = false := by
  obtain ⟨id, context, form, _⟩ := UsageNames.form_of_isReceiver isReceiver
  rw [isSuperCall, form]

private theorem unknown_of_called {member : String} {object : Node}
    (isReceiver : names.isReceiver object = true)
    (idle : (ofCalledAttribute names member (some object)).Idle) :
    member ∉ names.instanceMembers ∧ member ∉ names.methods := by
  have used := idle.used
  have called := idle.called
  simp only [ofCalledAttribute, Option.any_some, isReceiver, not_isSuperCall isReceiver,
    Bool.true_and, Bool.not_false, Bool.and_true, List.contains_eq_mem,
    decide_eq_true_eq] at used called
  refine ⟨?_, ?_⟩
  · intro isMember
    rw [if_pos isMember] at used
    cases used
  · intro isMethod
    rw [if_pos isMethod] at called
    cases called

private theorem unknown_of_mentioned {member : String}
    (idle : (ofReceiverAttribute names member).Idle) :
    member ∉ names.instanceMembers ∧ member ∉ names.methods := by
  simp only [ofReceiverAttribute, List.contains_eq_mem, decide_eq_true_eq] at idle
  split at idle
  · cases idle.used
  · split at idle
    · cases idle.called
    · exact ⟨‹_›, ‹_›⟩

theorem idle_attribute {asCallee : Bool} {member : String} {context : Context} {info : Info}
    {children : List Node}
    (fitting : (Node.mk (.attribute member context) info children).fits slot = true)
    (idle : (ofNode names asCallee (.mk (.attribute member context) info children)).Idle) :
    names.isUnknownAccess (.mk (.attribute member context) info children) = true ∨
      ∀ child ∈ children, (ofNode names false child).Idle := by
  have values : ∀ child ∈ children, child.role = .value := by
    intro child inside
    obtain ⟨inner, listed, _⟩ := Node.slot_of_child fitting inside
    exact congrArg Prod.fst (List.mem_singleton.mp listed)
  rw [ofNode] at idle
  by_cases onReceiver :
      (children.find? (fun child => child.role = .value)).any names.isReceiver = true
  · left
    have unknown : member ∉ names.instanceMembers ∧ member ∉ names.methods := by
      obtain ⟨object, found, isReceiver⟩ := (Option.any_eq_true _ _).mp onReceiver
      rw [found] at idle
      cases asCallee with
      | true => exact unknown_of_called isReceiver (idle_join.mp idle).1
      | false =>
          rw [if_neg Bool.false_ne_true, if_pos (by simpa using isReceiver)] at idle
          exact unknown_of_mentioned idle
    simp [UsageNames.isUnknownAccess, Node.only?, onReceiver, unknown]
  · right
    intro child inside
    rw [if_neg onReceiver, if_neg onReceiver] at idle
    cases asCallee with
    | true => exact idle_ofRole.mp (idle_join.mp idle).2 child inside (values child inside)
    | false => exact idle_ofAll.mp idle child inside

/-- One step of the walk: code that uses nothing and does not begin with an unknown attribute of
the receiver is not the receiver, and its parts use nothing. -/
theorem idle_children {asCallee : Bool} {slot : Slot} {node : Node}
    (fitting : node.fits slot = true) (outside : node.form.isClass = false)
    (idle : (ofNode names asCallee node).Idle) (known : names.isUnknownAccess node = false) :
    names.isReceiver node = false ∧
      ∀ child ∈ node.children, ∃ asCallee, (ofNode names asCallee child).Idle := by
  cases node with
  | mk form info children =>
      cases form with
      | classDef name => cases outside
      | call =>
          rw [ofNode, idle_join, idle_join, idle_ofRole, idle_ofRole, idle_ofRole] at idle
          obtain ⟨callees, arguments, keywords⟩ := idle
          refine ⟨UsageNames.isReceiver_eq_false (by simp), ?_⟩
          intro child member
          obtain ⟨inner, listed, _⟩ := Node.slot_of_child fitting member
          simp only [Node.form_mk, Form.slots, List.mem_cons, Prod.mk.injEq, List.not_mem_nil,
            or_false] at listed
          rcases listed with ⟨role, _⟩ | ⟨role, _⟩ | ⟨role, _⟩
          · exact ⟨true, callees child member role⟩
          · exact ⟨false, arguments child member role⟩
          · exact ⟨false, keywords child member role⟩
      | «attribute» name context =>
          refine ⟨UsageNames.isReceiver_eq_false (by simp), ?_⟩
          rcases idle_attribute fitting idle with unknown | parts
          · rw [unknown] at known
            cases known
          · exact fun child member => ⟨false, parts child member⟩
      | name id context =>
          have empty : children = [] := Node.children_eq_nil fitting rfl
          have notReceiver := not_receiver_of_name (by rwa [ofNode] at idle)
          refine ⟨?_, by simp [empty]⟩
          rw [Bool.eq_false_iff]
          intro holds
          obtain ⟨other, _, same, isReceiver⟩ := UsageNames.form_of_isReceiver holds
          cases same
          exact notReceiver isReceiver
      | _ =>
          rw [ofNode, idle_ofAll] at idle
          · exact ⟨UsageNames.isReceiver_eq_false (by simp),
              fun child member => ⟨false, idle child member⟩⟩
          all_goals simp

/-- The whole walk: code that uses nothing and has no unknown attribute of the receiver does not
mention the receiver. -/
theorem no_receiver_of_idle {asCallee : Bool} {slot : Slot} {root : Node}
    (fitting : root.fits slot = true) (idle : (ofNode names asCallee root).Idle)
    (known : ∀ node ∈ Member.outsideClasses [root], names.isUnknownAccess node = false) :
    ∀ node ∈ Member.outsideClasses [root], names.isReceiver node = false := by
  induction root using Node.induction generalizing asCallee slot with
  | step form info children induction =>
      intro node member
      obtain ⟨outside, inside⟩ := Member.mem_outsideClasses_root.mp member
      have isRoot := Member.mem_outsideClasses_root.mpr ⟨outside, Or.inl rfl⟩
      obtain ⟨notReceiver, parts⟩ := idle_children fitting outside idle (known _ isRoot)
      rcases inside with rfl | ⟨child, isChild, within⟩
      · exact notReceiver
      · obtain ⟨inner, _, fittingChild⟩ := Node.slot_of_child fitting isChild
        obtain ⟨asCallee, idleChild⟩ := parts child isChild
        apply induction child isChild fittingChild idleChild _ node within
        intro other below
        exact known other
          (Member.mem_outsideClasses_root.mpr ⟨outside, Or.inr ⟨child, isChild, below⟩⟩)

private theorem receiver_of_unknown {stack : List Node} {node : Node}
    (member : node ∈ Member.outsideClasses stack) (unknown : names.isUnknownAccess node = true) :
    ∃ object ∈ Member.outsideClasses stack, names.isReceiver object = true := by
  unfold UsageNames.isUnknownAccess at unknown
  split at unknown
  · simp only [Bool.and_eq_true, Option.any_eq_true] at unknown
    obtain ⟨⟨⟨object, found, isReceiver⟩, _⟩, _⟩ := unknown
    obtain ⟨id, context, form, _⟩ := UsageNames.form_of_isReceiver isReceiver
    have isChild : object ∈ node.children := List.mem_of_find?_eq_some found
    refine ⟨object, Member.child_outsideClasses member isChild ?_, isReceiver⟩
    rw [form]
    rfl
  · cases unknown

end Usage

namespace UsageFacts

theorem idle_of_canBecomeStatic {instanceMembers siblings : List String} {method : String}
    {receiver : Option String} {statements : List Node}
    (free : (ofStatements instanceMembers siblings method receiver statements).canBecomeStatic
      false = true) :
    (Usage.ofAll
      { instanceMembers, methods := siblings ++ [method], receiver } statements).Idle := by
  simp only [canBecomeStatic, ofStatements, Bool.false_or, Bool.not_eq_true', Bool.or_eq_false_iff,
    Bool.not_eq_false', List.isEmpty_iff, Text.sortedNames_eq_nil] at free
  obtain ⟨⟨⟨⟨used, receiver⟩, others⟩, notRecursive⟩, super⟩ := free
  refine ⟨used, ?_, receiver, super⟩
  apply List.eq_nil_iff_forall_not_mem.mpr
  intro name called
  have same : name = method := by simpa using List.filter_eq_nil_iff.mp others name called
  rw [same] at called
  rw [List.contains_iff_mem.mpr called] at notRecursive
  cases notRecursive

theorem fits_of_findMethod {definition method : Node} {name : String} {slot : Slot}
    (fitting : definition.fits slot = true) (found : definition.findMethod name = .ok method) :
    method.form.isFunction = true ∧ ∃ inner, method.fits inner = true := by
  unfold Node.findMethod at found
  simp only at found
  split at found
  · next statement isFound =>
      cases found
      have isFunction := List.find?_some isFound
      have isChild := (Node.mem_field.mp (List.mem_of_find?_eq_some isFound)).1
      obtain ⟨inner, _, fittingMethod⟩ := Node.slot_of_child fitting isChild
      refine ⟨?_, inner, fittingMethod⟩
      generalize method.form = form at isFunction
      cases form with
      | functionDef isAsync other returns => rfl
      | _ => cases isFunction
  · cases found

theorem ofMethod_eq (module : Option Node) {definition method : Node} {name : String}
    (found : definition.findMethod name = .ok method) (isFunction : method.form.isFunction = true) :
    ofMethod module definition name =
      match Hierarchy.fault? module definition with
      | some fault => .error fault
      | none => .ok
          (ofStatements (Hierarchy.instanceMemberNames module definition)
            (Hierarchy.methodNames module definition) name method.selfParameter?
            (method.field .body)) := by
  unfold ofMethod
  rw [found]
  cases Hierarchy.fault? module definition with
  | some fault => rfl
  | none => exact if_pos isFunction

/-- There are facts about a method just when the members of the hierarchy can be listed.  In a
method that could become static the receiver occurs exactly if the method accesses an attribute of
it that is neither an instance member nor a method that the class is known to have. -/
theorem static_mentions_receiver_iff (module : Option Node) {definition method : Node}
    {name : String} {slot : Slot} (fitting : definition.fits slot = true)
    (found : definition.findMethod name = .ok method) :
    ((∃ facts, ofMethod module definition name = .ok facts) ↔
        Hierarchy.fault? module definition = none) ∧
      ∀ facts, ofMethod module definition name = .ok facts → facts.canBecomeStatic false = true →
        ((∃ node ∈ Member.outsideClasses (method.field .body),
            ∃ receiver, method.selfParameter? = some receiver ∧ node.isNamed receiver = true) ↔
          ∃ node ∈ Member.outsideClasses (method.field .body),
            UsageNames.isUnknownAccess
              ⟨Hierarchy.instanceMemberNames module definition,
                Hierarchy.methodNames module definition ++ [name], method.selfParameter?⟩
              node = true) := by
  obtain ⟨isFunction, inner, fittingMethod⟩ := fits_of_findMethod fitting found
  have computed := ofMethod_eq module found isFunction
  cases listed : Hierarchy.fault? module definition with
  | some fault =>
      rw [listed] at computed
      rw [computed]
      exact ⟨⟨nofun, nofun⟩, nofun⟩
  | none =>
  rw [listed] at computed
  rw [computed]
  refine ⟨⟨fun _ => rfl, fun _ => ⟨_, rfl⟩⟩, ?_⟩
  rintro _ ⟨⟩ free
  have idle := Usage.idle_ofAll.mp (idle_of_canBecomeStatic free)
  constructor
  · rintro ⟨node, member, receiver, isReceiver, named⟩
    by_contra known
    obtain ⟨root, isRoot, inside⟩ := Member.mem_outsideClasses.mp member
    obtain ⟨sort, _, fittingRoot⟩ := Node.slot_of_child fittingMethod (Node.mem_field.mp isRoot).1
    have absent := Usage.no_receiver_of_idle fittingRoot (idle root isRoot) (by
      intro other below
      rw [Bool.eq_false_iff]
      intro unknown
      exact known ⟨other, Member.mem_outsideClasses.mpr ⟨root, isRoot, below⟩, unknown⟩) node inside
    simp only [UsageNames.isReceiver, isReceiver, Option.any_some, named] at absent
    cases absent
  · rintro ⟨node, member, unknown⟩
    obtain ⟨object, inside, isReceiver⟩ := Usage.receiver_of_unknown member unknown
    obtain ⟨receiver, isSelf, named⟩ := (Option.any_eq_true _ _).mp isReceiver
    exact ⟨object, inside, receiver, isSelf, named⟩

/-- A class with a method that reads an attribute which the class does not define. -/
def derivedClass : Node :=
  .mk (.classDef "Derived") ⟨1, .body, some ⟨⟨1, 0⟩, ⟨3, 22⟩⟩⟩ [
    .mk (.name "Base" .load) ⟨2, .base, some ⟨⟨1, 14⟩, ⟨1, 18⟩⟩⟩ [],
    .mk (.functionDef false "size" none) ⟨3, .body, some ⟨⟨2, 4⟩, ⟨3, 22⟩⟩⟩ [
      .mk (.parameters []) ⟨4, .parameters, none⟩ [
        .mk (.parameter "self" none) ⟨5, .positional, some ⟨⟨2, 13⟩, ⟨2, 17⟩⟩⟩ []],
      .mk .returnStmt ⟨6, .body, some ⟨⟨3, 8⟩, ⟨3, 22⟩⟩⟩ [
        .mk (.attribute "size_" .load) ⟨7, .value, some ⟨⟨3, 15⟩, ⟨3, 22⟩⟩⟩ [
          .mk (.name "self" .load) ⟨8, .value, some ⟨⟨3, 15⟩, ⟨3, 19⟩⟩⟩ []]]]]

private theorem derivedClass_mentions_self :
    ∃ node ∈ Member.outsideClasses ((derivedClass.children.getD 1 default).field .body),
      node.isNamed "self" = true := by
  apply List.any_eq_true.mp
  cbv

private theorem derivedClass_listed : Hierarchy.fault? none derivedClass = none := by
  have stores : Member.ofMethod "Derived" (derivedClass.children.getD 1 default) = [] := by cbv
  have stated : Member.statedTypes derivedClass =
      .text anyType ::
        (Member.typesOfMethod "Derived" (derivedClass.children.getD 1 default) ++ []) :=
    rfl
  rw [Member.typesOfMethod, stores] at stated
  have fault : Member.fault? derivedClass = none := by
    rw [Member.fault?, stated]
    rfl
  simp [Hierarchy.fault?, Hierarchy.ofClass, fault]

/-- Such a method is said to survive without its receiver, which its code still mentions. -/
theorem static_mentions_receiver :
    ∃ method facts, derivedClass.findMethod "size" = .ok method ∧
      ofMethod none derivedClass "size" = .ok facts ∧ facts.canBecomeStatic false = true ∧
      ∃ node ∈ Member.outsideClasses (method.field .body),
        ∃ receiver, method.selfParameter? = some receiver ∧ node.isNamed receiver = true := by
  have found : derivedClass.findMethod "size" = .ok (derivedClass.children.getD 1 default) := rfl
  have computed := ofMethod_eq none found rfl
  rw [derivedClass_listed] at computed
  refine ⟨_, _, found, computed, by cbv, ?_⟩
  obtain ⟨node, member, named⟩ := derivedClass_mentions_self
  exact ⟨node, member, "self", rfl, named⟩

/-- The attribute that keeps the receiver there is found. -/
theorem static_mentions_receiver_iff_derived :
    ∃ method, derivedClass.findMethod "size" = .ok method ∧
      ∃ node ∈ Member.outsideClasses (method.field .body),
        UsageNames.isUnknownAccess ⟨Hierarchy.instanceMemberNames none derivedClass,
          Hierarchy.methodNames none derivedClass ++ ["size"],
          method.selfParameter?⟩ node = true := by
  have fitting : derivedClass.fits .statement = true := by decide
  have found : derivedClass.findMethod "size" = .ok (derivedClass.children.getD 1 default) := rfl
  have computed := ofMethod_eq none found rfl
  rw [derivedClass_listed] at computed
  obtain ⟨node, member, named⟩ := derivedClass_mentions_self
  have agrees := (static_mentions_receiver_iff none fitting found).2 _ computed (by cbv)
  exact ⟨_, found, agrees.mp ⟨node, member, "self", rfl, named⟩⟩

end UsageFacts

end SafeRefactor
