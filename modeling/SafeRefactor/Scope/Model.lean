import SafeRefactor.Scope.Declaration
import Std.Data.HashMap

/-!
# The semantic model of a module

The model joins the scopes of a module with their symbols and tells which scope a
node is evaluated in.  Names that a scope declares global or nonlocal add their
bindings to the scope they belong to.
-/

namespace SafeRefactor

/-- Scopes and symbols of one module. -/
structure Model where
  tree : Node
  path : String
  scopes : List Scope
  placement : Std.HashMap NodeId NodeId

/-- Adds the bindings of a deposit to a scope and makes the symbol of its name anew. -/
def Scope.receive (classes : List String) (scopes : List Scope) (deposit : Deposit)
    (scope : Scope) : Except Fault Scope :=
  if scope.key = deposit.owner then
    let bindings := scope.bindingsOf deposit.name ++ deposit.bindings
    let parent := scope.parentKey?.bind (findScope? scopes)
    match Setting.symbolOf ⟨scope, parent, classes⟩ deposit.name bindings with
    | .error fault => .error fault
    | .ok symbol =>
        .ok { scope with
              bindings := scope.bindings.insert deposit.name bindings
              symbols := scope.symbols.insert deposit.name symbol }
  else .ok scope

/-- Makes deposits one after the other. -/
def settle (classes : List String) : List Scope → List Deposit → Except Fault (List Scope)
  | scopes, [] => .ok scopes
  | scopes, deposit :: rest =>
      match scopes.mapM (Scope.receive classes scopes deposit) with
      | .error fault => .error fault
      | .ok updated => settle classes updated rest

/-- The scope in which each node is evaluated; the last word counts. -/
def placements (events : List Event) : Std.HashMap NodeId NodeId :=
  events.foldl
    (fun table event =>
      match event with
      | .places node scope => table.insert node scope
      | _ => table)
    {}

namespace Model

/-- The names of the classes that a module defines at its top level. -/
def topClasses (tree : Node) : List String :=
  (tree.field .body).filterMap fun statement =>
    match statement.form with
    | .classDef name => some name
    | _ => none

def build (path : String) (tree : Node) : Except Fault Model :=
  let events := Event.ofModule tree
  let scopes := Scope.ofEvents path events
  match settle (topClasses tree) scopes (scopes.flatMap (Scope.deposits scopes)) with
  | .error fault => .error fault
  | .ok settled => .ok { tree, path, scopes := settled, placement := placements events }

def moduleScope (model : Model) : Scope :=
  model.scopes.headD default

def scopeById? (model : Model) (id : String) : Option Scope :=
  model.scopes.find? (fun scope => scope.id = id)

def scopeOpenedBy? (model : Model) (node : Node) : Option Scope :=
  findScope? model.scopes node.id

def scopeOf (model : Model) (node : Node) : Scope :=
  ((model.placement[node.id]?).bind (findScope? model.scopes)).getD model.moduleScope

/-- The scopes around a scope, innermost first. -/
def around (model : Model) (scope : Scope) : List Scope :=
  scopesAround model.scopes scope

/-- The scopes directly inside a scope. -/
def childrenOf (model : Model) (scope : Scope) : List Scope :=
  model.scopes.filter (fun other => other.parentKey? = some scope.key)

/-- What a name means at module level: the module's symbol, or a built-in. -/
def lookupModule (model : Model) (name : String) : Option Symbol :=
  (model.moduleScope.symbol? name).or (builtinSymbol? name)

/-- What a name means that is not bound in the scope of its use, given the scopes around it.
Class bodies are passed over. -/
def lookupAround (model : Model) (name : String) : List Scope → Option Symbol
  | [] => builtinSymbol? name
  | scope :: rest =>
      if scope.kind = .classBody then model.lookupAround name rest
      else if scope.kind = .module || scope.globals.contains name then model.lookupModule name
      else if scope.nonlocals.contains name then model.lookupAround name rest
      else
        match scope.symbol? name with
        | some symbol => some symbol
        | none => model.lookupAround name rest

/-- What a name means in a scope. -/
def lookup (model : Model) (scope : Scope) (name : String) : Option Symbol :=
  if scope.kind != .module && scope.globals.contains name then model.lookupModule name
  else if scope.nonlocals.contains name then model.lookupAround name (model.around scope)
  else
    match scope.symbol? name with
    | some symbol => some symbol
    | none => model.lookupAround name (model.around scope)

/-- What a name occurrence means. -/
def resolve (model : Model) (node : Node) : Option Symbol :=
  model.lookup (model.scopeOf node) (node.identifier?.getD "")

/-- The occurrences that bind a symbol. -/
def bindingsOf (model : Model) (symbol : Symbol) : List Binding :=
  match model.scopeById? symbol.scopeId with
  | some scope => scope.bindingsOf symbol.name
  | none => []

def names (model : Model) : List Node :=
  model.tree.walk.filter (fun node => node.identifier?.isSome)

/-- The name occurrences that mean a symbol, in any context. -/
def referencesOf (model : Model) (symbol : Symbol) : List Node :=
  model.names.filter (fun node => node.isNamed symbol.name && model.resolve node = some symbol)

/-- The frames that a scope lies in, innermost first, up to the module. -/
def frames (model : Model) (scope : Scope) : List Scope :=
  ((scope :: model.around scope).takeWhile (fun other => other.kind != .module)).filter
    (fun other => other.kind != .classBody)

/-- Whether the module imports all names of another one. -/
def hasStarImport (model : Model) : Bool :=
  model.tree.walk.any fun node =>
    match node.form with
    | .importFrom _ _ =>
        node.children.any fun item =>
          match item.form with
          | .alias name _ => name = "*"
          | _ => false
    | _ => false

end Model

end SafeRefactor
