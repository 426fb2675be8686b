import SafeRefactor.Tree.Node

/-!
# Definitions and their parameters

What decorators make of a function, which parameters a callable has, which of
them have defaults, and which parameter stands for the instance.
-/

namespace SafeRefactor

namespace Node

/-- The name a decorator is known by: the last component of the plain or dotted name, with or
without arguments. -/
def decoratorName? (decorator : Node) : Option String :=
  match decorator.form with
  | .call => (decorator.only? .callee).bind lastName?
  | _ => decorator.lastName?

def hasDecorator (definition : Node) (name : String) : Bool :=
  (definition.field .decorator).any (fun decorator => decorator.decoratorName? = some name)

def isStaticMethod (definition : Node) : Bool :=
  definition.hasDecorator "staticmethod"

def isClassMethod (definition : Node) : Bool :=
  definition.hasDecorator "classmethod"

/-- Attribute decorators that add an accessor to a property. -/
def accessorNames : List String :=
  ["setter", "getter", "deleter"]

/-- Decorators that turn a function into a property. -/
def propertyNames : List String :=
  ["property", "cached_property"]

/-- Whether one decorator makes its function a property or an accessor of one. -/
def isPropertyDecorator (decorator : Node) : Bool :=
  match decorator.form with
  | .name id _ => propertyNames.contains id
  | .attribute name _ => propertyNames.contains name || accessorNames.contains name
  | _ => false

/-- Whether a definition is a property or an accessor of one. -/
def isProperty (definition : Node) : Bool :=
  (definition.field .decorator).any isPropertyDecorator

/-- Whether a method is bound to no instance: a static or a class method. -/
def isUnbound (definition : Node) : Bool :=
  definition.isStaticMethod || definition.isClassMethod

/-- The constituents of the parameter list of a function or lambda. -/
def parameterParts (callable : Node) : List Node :=
  match callable.only? .parameters with
  | some parameters => parameters.children
  | none => []

/-- All parameters of a callable in order: positional ones, the variadic one, keyword-only ones,
the keyword-variadic one. -/
def parameters (callable : Node) : List Node :=
  callable.parameterParts.filter (fun part => part.role.isParameter)

def positionalParameters (callable : Node) : List Node :=
  callable.parameterParts.filter (fun part => part.role.isPositional)

def parameterName (parameter : Node) : String :=
  match parameter.form with
  | .parameter name _ => name
  | _ => ""

def parameterHint? (parameter : Node) : Option Printed :=
  match parameter.form with
  | .parameter _ hint => hint
  | _ => none

/-- Which keyword-only parameters of a callable have a default. -/
def keywordDefaultMask (callable : Node) : List Bool :=
  match (callable.only? .parameters).map form with
  | some (.parameters mask) => mask
  | _ => []

/-- The place of a node in a list. -/
def placeIn (node : Node) (nodes : List Node) : Option Nat :=
  nodes.findIdx? (fun other => other.id = node.id)

/-- The default of a parameter that is passed by position.  Defaults belong to the last ones. -/
def positionalDefault? (callable parameter : Node) : Option Node :=
  let positional := callable.positionalParameters
  let defaults := callable.parameterParts.filter (fun part => part.role = .default)
  match parameter.placeIn positional with
  | some place =>
      if positional.length ≤ place + defaults.length then
        defaults[place + defaults.length - positional.length]?
      else none
  | none => none

def keywordOnlyParameters (callable : Node) : List Node :=
  callable.parameterParts.filter (fun part => part.role = .keywordOnly)

/-- Whether the parameter list tells of a keyword-only parameter if it has a default. -/
def tellsDefault (callable parameter : Node) : Bool :=
  (parameter.placeIn callable.keywordOnlyParameters).any
    (fun place => place < callable.keywordDefaultMask.length)

def keywordDefault? (callable parameter : Node) : Option Node :=
  let defaults := callable.parameterParts.filter (fun part => part.role = .keywordDefault)
  match parameter.placeIn callable.keywordOnlyParameters with
  | some place =>
      if callable.keywordDefaultMask.getD place false then
        defaults[(callable.keywordDefaultMask.take place).count true]?
      else none
  | none => none

/-- Name of the parameter that stands for the instance or class; static methods have none. -/
def selfParameter? (definition : Node) : Option String :=
  if definition.isStaticMethod then none
  else definition.positionalParameters.head?.map parameterName

/-- The column where the name of a function definition starts. -/
def functionNameColumn (definition : Node) : Int :=
  match definition.form with
  | .functionDef true _ _ => definition.start.column + 10
  | _ => definition.start.column + 4

end Node

end SafeRefactor
