import SafeRefactor.Member.Hierarchy

/-!
# What a method uses of its class

Whether the code of a method touches instance state, calls other methods, calls
itself, mentions the receiver or calls upwards.  A class defined inside a method has
a receiver of its own and is passed over.
-/

namespace SafeRefactor

/-- The names that matter to the code of a method. -/
structure UsageNames where
  instanceMembers : List String
  /-- The methods of the class, this one included. -/
  methods : List String
  receiver : Option String

namespace UsageNames

def isReceiver (names : UsageNames) (node : Node) : Bool :=
  names.receiver.any node.isNamed

end UsageNames

/-- What pieces of code use. -/
structure Usage where
  used : List String := []
  called : List String := []
  mentionsReceiver : Bool := false
  callsSuper : Bool := false

namespace Usage

def join (left right : Usage) : Usage where
  used := left.used ++ right.used
  called := left.called ++ right.called
  mentionsReceiver := left.mentionsReceiver || right.mentionsReceiver
  callsSuper := left.callsSuper || right.callsSuper

def isSuperCall (node : Node) : Bool :=
  match node.form with
  | .call => (node.only? .callee).any (fun callee => callee.isNamed "super")
  | _ => false

/-- The call of an attribute calls the method of that name, except on `super`. -/
def ofCalledAttribute (names : UsageNames) (member : String) (object : Option Node) : Usage :=
  { called :=
      if names.methods.contains member && !object.any isSuperCall then [member] else []
    used :=
      if object.any names.isReceiver && names.instanceMembers.contains member then [member]
      else [] }

/-- The mention of an attribute of the receiver. -/
def ofReceiverAttribute (names : UsageNames) (member : String) : Usage :=
  if names.instanceMembers.contains member then { used := [member] }
  else if names.methods.contains member then { called := [member] }
  else {}

/-- The call of a plain name. -/
def ofCalledName (names : UsageNames) (id : String) : Usage :=
  if names.methods.contains id then { called := [id] }
  else if id = "super" then { callsSuper := true }
  else if names.receiver = some id then { mentionsReceiver := true }
  else {}

/-- The mention of a plain name. -/
def ofName (names : UsageNames) (id : String) (context : Context) : Usage :=
  if names.receiver = some id then { mentionsReceiver := true }
  else if names.methods.contains id && context = .load then { called := [id] }
  else {}

mutual

/-- What a node uses, as the callee of a call or elsewhere. -/
def ofNode (names : UsageNames) (asCallee : Bool) : Node → Usage
  | .mk form _ children =>
      let object := children.find? (fun child => child.role = .value)
      match form with
      | .classDef _ => {}
      | .call =>
          (ofRole names true .callee children).join
            ((ofRole names false .argument children).join
              (ofRole names false .keyword children))
      | .attribute member _ =>
          if asCallee then
            (ofCalledAttribute names member object).join
              (if object.any names.isReceiver then {} else ofRole names false .value children)
          else if object.any names.isReceiver then ofReceiverAttribute names member
          else ofAll names children
      | .name id context => if asCallee then ofCalledName names id else ofName names id context
      | _ => ofAll names children

def ofAll (names : UsageNames) : List Node → Usage
  | [] => {}
  | node :: rest => (ofNode names false node).join (ofAll names rest)

def ofRole (names : UsageNames) (asCallee : Bool) (role : Role) : List Node → Usage
  | [] => {}
  | node :: rest =>
      if node.role = role then
        (ofNode names asCallee node).join (ofRole names asCallee role rest)
      else ofRole names asCallee role rest

end

end Usage

/-- What a method uses of its class. -/
structure UsageFacts where
  usesInstanceMembers : Bool
  callsOtherMethods : Bool
  isRecursive : Bool
  mentionsReceiver : Bool
  callsSuper : Bool
  usedInstanceMembers : List String
  calledMethods : List String
deriving DecidableEq, Repr

namespace UsageFacts

/-- The facts about statements of the method `method` whose receiver has the given name. -/
def ofStatements (instanceMembers siblings : List String) (method : String)
    (receiver : Option String) (statements : List Node) : UsageFacts :=
  let usage :=
    Usage.ofAll { instanceMembers, methods := siblings ++ [method], receiver } statements
  let usedInstanceMembers := Text.sortedNames usage.used
  let calledMethods := Text.sortedNames (usage.called.filter (fun name => name != method))
  { usesInstanceMembers := !usedInstanceMembers.isEmpty
    callsOtherMethods := !calledMethods.isEmpty
    isRecursive := usage.called.contains method
    mentionsReceiver := usage.mentionsReceiver
    callsSuper := usage.callsSuper
    usedInstanceMembers
    calledMethods }

def ofDefinition (instanceMembers siblings : List String) (method : String)
    (definition : Node) : Except Fault UsageFacts :=
  if definition.form.isFunction then
    .ok (ofStatements instanceMembers siblings method definition.selfParameter?
      (definition.field .body))
  else .error (.noMethod definition.form.label)

/-- The facts about statements whose receiver has the usual name. -/
def ofBlock (instanceMembers siblings : List String) (method : String)
    (statements : List Node) : UsageFacts :=
  ofStatements instanceMembers siblings method (some "self") statements

def ofMethod (module : Option Node) (definition : Node) (method : String) :
    Except Fault UsageFacts :=
  match definition.findMethod method with
  | .error fault => .error fault
  | .ok found =>
      match Hierarchy.fault? module definition with
      | some fault => .error fault
      | none =>
          ofDefinition (Hierarchy.instanceMemberNames module definition)
            (Hierarchy.methodNames module definition) method found

/-- Whether the method can become static.  With an instance passed explicitly it always can. -/
def canBecomeStatic (facts : UsageFacts) (withInstance : Bool) : Bool :=
  withInstance ||
    !(facts.usesInstanceMembers || facts.mentionsReceiver || facts.callsOtherMethods ||
      facts.isRecursive || facts.callsSuper)

end UsageFacts

end SafeRefactor
