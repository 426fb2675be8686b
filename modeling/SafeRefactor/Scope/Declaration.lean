import SafeRefactor.Scope.Scope

/-!
# Declarations

The symbol that a scope makes of the bindings of a name.  The earliest binding
decides its kind and place.  An annotation anywhere gives its type, otherwise the
first binding whose type can be inferred.
-/

namespace SafeRefactor

namespace Binding

def start (binding : Binding) : Position :=
  binding.node.start

/-- Bindings by position; those at one position keep their order. -/
def inOrder (bindings : List Binding) : List Binding :=
  bindings.mergeSort (fun first second => first.start ≤ second.start)

/-- The annotation that comes with a binding: that of a parameter or of the assignment of which
it is the target. -/
def hint? (binding : Binding) : Option Printed :=
  match binding.node.form, binding.node.role, binding.parent.map Node.form with
  | .parameter _ (some hint), _, _ => some hint
  | _, .target, some (.annAssign hint) => some hint.text
  | _, _, _ => none

end Binding

/-- What is known about the scope in which a name is declared. -/
structure Setting where
  scope : Scope
  parent : Option Scope
  classes : List String

namespace Setting

/-- Whether a parameter stands for the instance or class of a method. -/
def isReceiver (setting : Setting) (parameter : Node) : Bool :=
  setting.scope.kind = .function &&
    (setting.parent.map Scope.kind) = some .classBody &&
    !setting.scope.node.isStaticMethod &&
    (setting.scope.node.positionalParameters.head?.map Node.id) = some parameter.id

/-- The kind of symbol whose earliest binding is the given node. -/
def kindOf (setting : Setting) (first : Node) : SymbolKind :=
  match first.form, setting.scope.kind with
  | .parameter _ _, _ => if setting.isReceiver first then .receiver else .parameter
  | .functionDef .., .module => .function
  | .classDef _, .module => .classType
  | .alias _ _, .module => .imported
  | _, .module => .globalVariable
  | .functionDef .., .classBody => if first.isProperty then .property else .method
  | .classDef _, .classBody => .classType
  | .alias _ _, .classBody => .imported
  | _, .classBody => .field
  | _, _ => .localVariable

/-- The inferred type of a parameter: that of its default.  Only callables have parameters, and a
keyword-only parameter has an entry in the list of their defaults. -/
def parameterType (setting : Setting) (parameter : Node) : Except Fault String :=
  let callable := setting.scope.node
  if setting.scope.kind = .function || setting.scope.kind = .lambda then
    match callable.parameters.find? (fun other => other.id = parameter.id) with
    | some own =>
        match own.role with
        | .variadic => .ok "tuple"
        | .keywordVariadic => .ok "dict"
        | .keywordOnly =>
            if callable.tellsDefault own then
              .ok (inferType? setting.classes (callable.keywordDefault? own))
            else .error .outOfRange
        | _ => .ok (inferType? setting.classes (callable.positionalDefault? own))
    | none => .ok anyType
  else .error (.noParameters callable.form.label)

/-- The type of the receiver of a method. -/
def receiverType (setting : Setting) : String :=
  let className := (setting.parent.map Scope.name).getD anyType
  if setting.scope.node.isClassMethod then "type[" ++ className ++ "]" else className

/-- The type that one binding suggests. -/
def bindingType (setting : Setting) (binding : Binding) : Except Fault String :=
  match binding.node.form with
  | .parameter _ _ =>
      if setting.isReceiver binding.node then .ok setting.receiverType
      else setting.parameterType binding.node
  | .functionDef .. => .ok "Callable"
  | .classDef _ => .ok "type"
  | .alias _ _ =>
      match binding.parent.map Node.form with
      | some .importStmt => .ok "module"
      | _ => .ok anyType
  | .handler _ caught =>
      match (binding.node.only? .caught).bind Node.lastName? with
      | some _ => (caught.getD (.text anyType)).get
      | none => .ok "Exception"
  | _ =>
      match binding.node.role, binding.parent with
      | .target, some parent =>
          match parent.form with
          | .assign | .namedExpr => .ok (inferType? setting.classes (parent.only? .value))
          | _ => .ok anyType
      | _, _ => .ok anyType

/-- The first type other than `Any` that a list of bindings suggests. -/
def firstType (setting : Setting) : List Binding → Except Fault String
  | [] => .ok anyType
  | binding :: rest =>
      match setting.bindingType binding with
      | .error fault => .error fault
      | .ok type => if type = anyType then setting.firstType rest else .ok type

/-- The declared type of a name with the given bindings in order. -/
def declaredType (setting : Setting) (ordered : List Binding) : Except Fault String :=
  match ordered.findSome? Binding.hint? with
  | some hint => hint.get
  | none => setting.firstType ordered

/-- The symbol of a name with the given bindings.  A name without bindings has none. -/
def symbolOf (setting : Setting) (name : String) (bindings : List Binding) :
    Except Fault Symbol :=
  match Binding.inOrder bindings with
  | [] => .error .outOfRange
  | first :: rest =>
      match setting.declaredType (first :: rest) with
      | .error fault => .error fault
      | .ok declaredType =>
          .ok
            { name
              kind := setting.kindOf first.node
              scopeId := setting.scope.id
              declaredType
              line := first.start.line
              column := first.start.column }

end Setting

end SafeRefactor
