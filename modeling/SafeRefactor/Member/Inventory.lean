import SafeRefactor.Text.Pieces
import SafeRefactor.Tree.Callable
import SafeRefactor.Tree.Inference

/-!
# Members of a class

The methods, properties and fields that a class declares.  Fields are assigned in
the class body, or through the receiver in a method that is bound to an instance.
A name that is declared more than once counts as its first declaration.  The members
are listed only if every annotation that states a type of theirs can be written out.
-/

namespace SafeRefactor

inductive MemberKind where
  | method
  | property
  | field
deriving DecidableEq, Repr

def MemberKind.label : MemberKind → String
  | .method => "method"
  | .property => "property"
  | .field => "field"

/-- A member and the statement that declares it. -/
structure Member where
  name : String
  kind : MemberKind
  className : String
  line : Int
  column : Int
  isStatic : Bool := false
  declaredType : Printed := .text anyType
  node : Node

namespace Member

/-- Whether a name has two underscores on both sides. -/
def isReservedName (name : String) : Bool :=
  4 < name.length && Text.startsWith name "__" && Text.endsWith name "__"

/-- Whether a member is meant for users of its class. -/
def isPublic (member : Member) : Bool :=
  !Text.startsWith member.name "_" || isReservedName member.name

/-- The place of the member's name in its declaration. -/
def span (member : Member) : Span :=
  ⟨⟨member.line, member.column⟩, ⟨member.line, member.column + member.name.length⟩⟩

end Member

namespace Node

def className (definition : Node) : String :=
  match definition.form with
  | .classDef name => name
  | _ => ""

/-- The place of the attribute name in an attribute access, counted back from its end. -/
def attributeNameSpan (node : Node) (name : String) : Span :=
  match node.span with
  | some span => ⟨⟨span.stop.line, span.stop.column - name.length⟩, span.stop⟩
  | none => ⟨⟨0, -name.length⟩, ⟨0, 0⟩⟩

def storedNames (target : Node) : List Node :=
  target.walk.filter fun node =>
    match node.form with
    | .name _ context => context = .store
    | _ => false

/-- The methods that are bound to an instance: the functions of a class body that are neither
static nor class methods. -/
def instanceMethods (definition : Node) : List Node :=
  (definition.field .body).filter
    (fun statement => statement.form.isFunction && !statement.isUnbound)

/-- Whether an annotation marks a class variable, and the type it declares. -/
def classVariable (annotated : Option Node) (hint : TypeText) : Bool × Printed :=
  let marker :=
    annotated.bind fun node =>
      match node.form with
      | .subscript _ => (node.only? .value).bind lastName?
      | _ => node.lastName?
  if marker = some "ClassVar" then (true, hint.sliceText.getD (.text anyType))
  else (false, hint.text)

end Node

namespace Member

/-- The field that a class-body statement declares by binding a name. -/
def ofName (className : String) (name : Node) (declaredType : Printed) (isStatic : Bool)
    (statement : Node) : Member where
  name := name.identifier?.getD ""
  kind := .field
  className := className
  line := name.start.line
  column := name.start.column
  isStatic := isStatic
  declaredType := declaredType
  node := statement

/-- The members that a statement of a class body declares. -/
def ofStatement (className : String) (statement : Node) : List Member :=
  match statement.form with
  | .functionDef _ name returns =>
      [{ name
         kind := if statement.isProperty then .property else .method
         className
         line := statement.start.line
         column := statement.functionNameColumn
         isStatic := statement.isUnbound
         declaredType := returns.getD (.text anyType)
         node := statement }]
  | .assign =>
      (statement.field .target).flatMap fun target =>
        target.storedNames.map fun name =>
          ofName className name (.text (inferType? [] (statement.only? .value))) false statement
  | .annAssign hint =>
      match statement.only? .target with
      | some target =>
          if target.identifier?.isSome then
            let (isStatic, declaredType) := Node.classVariable (statement.only? .typeHint) hint
            [ofName className target declaredType isStatic statement]
          else []
      | none => []
  | _ => []

/-- The nodes of a stack of trees in preorder, without class definitions and what is in them.  The
head of the list is the top of the stack. -/
def outsideClasses : List Node → List Node
  | [] => []
  | node :: rest =>
      if node.form.isClass then outsideClasses rest
      else node :: outsideClasses (node.children ++ rest)
termination_by stack => Node.sizeList stack
decreasing_by
  · cases node
    simp only [Node.sizeList, Node.size]
    omega
  · cases node with
    | mk form info children =>
        have total : ∀ front back : List Node,
            Node.sizeList (front ++ back) = Node.sizeList front + Node.sizeList back := by
          intro front back
          induction front with
          | nil => simp [Node.sizeList]
          | cons first others induction =>
              simp only [List.cons_append, Node.sizeList, induction]
              omega
        simp only [Node.children, total, Node.sizeList, Node.size]
        omega

/-- The type of a value that is stored in a field, given the annotated parameters around. -/
def storedType (parameterTypes : List (String × Printed)) (hint : Option Printed)
    (value : Option Node) : Printed :=
  match hint with
  | some text => text
  | none =>
      match (value.bind Node.identifier?).bind (fun name => parameterTypes.lookup name) with
      | some text => text
      | none => .text (inferType? [] value)

/-- The field that a node of an assignment target declares by storing to an attribute of the
receiver. -/
def ofAttribute (className receiver : String) (declaredType : Printed) (statement node : Node) :
    Option Member :=
  match node.form with
  | .attribute name .store =>
      if (node.only? .value).any (fun object => object.isNamed receiver) then
        let place := (node.attributeNameSpan name).start
        some
          { name
            kind := .field
            className
            line := place.line
            column := place.column
            declaredType
            node := statement }
      else none
  | _ => none

/-- The fields that a statement of a method declares through the receiver. -/
def ofReceiverStores (className receiver : String) (parameterTypes : List (String × Printed))
    (statement : Node) : List Member :=
  let stores (hint : Option Printed) (value : Option Node) :=
    (statement.field .target).flatMap fun target =>
      target.walk.filterMap
        (ofAttribute className receiver (storedType parameterTypes hint value) statement)
  match statement.form with
  | .assign => stores none (statement.only? .value)
  | .annAssign hint => stores (some hint.text) (statement.only? .value)
  | .augAssign => stores none none
  | _ => []

/-- The annotated parameters of a method with their types; of one name the last counts. -/
def parameterTypes (method : Node) : List (String × Printed) :=
  ((method.parameterParts.filter
    (fun part => part.role.isPositional || part.role = .keywordOnly)).filterMap
    (fun part => part.parameterHint?.map (fun hint => (part.parameterName, hint)))).reverse

/-- The fields that a method declares through its receiver. -/
def ofMethod (className : String) (method : Node) : List Member :=
  match method.selfParameter? with
  | none => []
  | some receiver =>
      (outsideClasses (method.field .body)).flatMap
        (ofReceiverStores className receiver (parameterTypes method))

/-- The types that a method states of its parameters and of the fields it declares. -/
def typesOfMethod (className : String) (method : Node) : List Printed :=
  if method.selfParameter?.isSome then
    (parameterTypes method).reverse.map Prod.snd ++ (ofMethod className method).map declaredType
  else []

/-- Adds a member unless one of its name is there. -/
def addNew (members : List Member) (member : Member) : List Member :=
  if members.any (fun other => other.name = member.name) then members else members ++ [member]

/-- All declarations of a class: those of its body, then those through the receivers of its
methods. -/
def declarations (definition : Node) : List Member :=
  (definition.field .body).flatMap (ofStatement definition.className) ++
    definition.instanceMethods.flatMap (ofMethod definition.className)

/-- The members of a class in the order of their first declarations. -/
def ofClass (definition : Node) : List Member :=
  (declarations definition).foldl addNew []

/-- The types that a class states, in the order in which they are written out. -/
def statedTypes (definition : Node) : List Printed :=
  ((definition.field .body).flatMap (ofStatement definition.className)).map declaredType ++
    definition.instanceMethods.flatMap (typesOfMethod definition.className)

/-- Why the members of a class cannot be listed: the first type without a text. -/
def fault? (definition : Node) : Option Fault :=
  (statedTypes definition).findSome? Printed.fault?

/-- The members of a class, unless one of the types cannot be written out. -/
def inventory (definition : Node) : Except Fault (List Member) :=
  match fault? definition with
  | some fault => .error fault
  | none => .ok (ofClass definition)

/-- The fields of a class that are not public, with their types. -/
def privateFields (definition : Node) : List (String × Printed) :=
  ((ofClass definition).filter (fun member => member.kind = .field && !member.isPublic)).map
    (fun member => (member.name, member.declaredType))

end Member

end SafeRefactor
