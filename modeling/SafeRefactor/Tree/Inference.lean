import SafeRefactor.Tree.Node

/-!
# Types of expressions

A best-effort name for the type of an expression.  The answer is `Any` when
nothing is known.
-/

namespace SafeRefactor

/-- The type name of an expression about which nothing is known. -/
def anyType : String :=
  "Any"

/-- Built-in types whose names, when called, construct a value of that type. -/
def constructorTypes : List String :=
  ["int", "float", "complex", "str", "bytes", "bytearray", "bool", "list", "dict", "set",
   "frozenset", "tuple", "object", "range"]

def isNumeric (type : String) : Bool :=
  type = "int" || type = "float"

/-- The type of a binary operation on operands of known types. -/
def binaryType (operator : BinaryOperator) (left right : String) : String :=
  if operator = .mod && left = "str" then "str"
  else if operator = .div && isNumeric left && isNumeric right then "float"
  else if left = right then left
  else if isNumeric left && isNumeric right then "float"
  else anyType

/-- The type that all parts have in common. -/
def commonType : List String → String
  | [] => anyType
  | type :: rest => if rest.all (· = type) then type else anyType

/-- The type of a call, known when a constructor is called by its plain name. -/
def callType (known : List String) (callee : Option Node) : String :=
  match callee.bind Node.identifier? with
  | some name => if constructorTypes.contains name || known.contains name then name else anyType
  | none => anyType

mutual

/-- The type name of an expression, where the classes in `known` construct themselves. -/
def inferType (known : List String) : Node → String
  | .mk form _ children =>
      match form with
      | .constant kind _ => kind.typeName
      | .joinedStr => "str"
      | .list _ | .comprehension .list => "list"
      | .tuple _ => "tuple"
      | .dict | .comprehension .dict => "dict"
      | .set | .comprehension .set => "set"
      | .comprehension .generator => "Generator"
      | .lambda => "Callable"
      | .compare | .unaryOp .not => "bool"
      | .unaryOp _ => (inferTypesIn known .operand children).headD anyType
      | .binOp operator =>
          binaryType operator ((inferTypesIn known .left children).headD anyType)
            ((inferTypesIn known .right children).headD anyType)
      | .boolOp => commonType (inferTypesIn known .operand children)
      | .ifExp =>
          commonType
            (inferTypesIn known .result children ++ inferTypesIn known .alternative children)
      | .call => callType known (children.find? (fun child => child.role = .callee))
      | _ => anyType

def inferTypesIn (known : List String) (role : Role) : List Node → List String
  | [] => []
  | node :: rest =>
      if node.role = role then inferType known node :: inferTypesIn known role rest
      else inferTypesIn known role rest

end

/-- The type name of an expression that may be missing. -/
def inferType? (known : List String) : Option Node → String
  | some value => inferType known value
  | none => anyType

end SafeRefactor
