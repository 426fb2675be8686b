import SafeRefactor.Fault
import SafeRefactor.Scope.Event
import SafeRefactor.Table
import SafeRefactor.Text.FirstFree

/-!
# Scopes

A scope collects what the events of a module say about it: the node that opens it,
the scopes around it, the names it binds and declares.  Scopes are listed in the
order in which they open, the module first.
-/

namespace SafeRefactor

/-- One lexical scope and the names it binds. -/
structure Scope where
  node : Node
  kind : ScopeKind
  name : String
  outer : List NodeId
  id : String
  globals : List String := []
  nonlocals : List String := []
  bindings : Table (List Binding) := {}
  symbols : Table Symbol := {}

instance : Inhabited Scope :=
  ⟨{ node := default, kind := .module, name := "", outer := [], id := "" }⟩

namespace Scope

/-- The number of the node that opens the scope. -/
def key (scope : Scope) : NodeId :=
  scope.node.id

def parentKey? (scope : Scope) : Option NodeId :=
  scope.outer.head?

/-- Whether the names of the scope live in a frame. -/
def isFunctionLike (scope : Scope) : Bool :=
  scope.kind.isFunctionLike

def parameters (scope : Scope) : List Node :=
  if scope.kind = .function || scope.kind = .lambda then scope.node.parameters else []

def symbol? (scope : Scope) (name : String) : Option Symbol :=
  scope.symbols.get? name

def bindingsOf (scope : Scope) (name : String) : List Binding :=
  (scope.bindings.get? name).getD []

def render (scope : Scope) : String :=
  "Scope(" ++ scope.kind.label ++ ", " ++ scope.id ++ ")"

/-- The text that identifies a scope unless an earlier scope has it: the path and the names of
the scopes from the outermost definition inwards. -/
def baseId (path : String) (opened : List Scope) (name : String) : List NodeId → String
  | [] => path ++ "::<module>"
  | [_] => path ++ "::" ++ name
  | parent :: _ =>
      match opened.find? (fun scope => scope.key = parent) with
      | some scope => scope.id ++ "." ++ name
      | none => path ++ "::" ++ name

/-- The base text for the first scope of that text, numbered from two for later ones. -/
def candidateId (base : String) (index : Nat) : String :=
  if index = 0 then base else base ++ "#" ++ toString (index + 1)

/-- Adds the scope that an event opens. -/
def openNext (path : String) (opened : List Scope) : Event → List Scope
  | .opens node kind name outer =>
      let base := baseId path opened name outer
      let id := Text.firstFree (opened.map (·.id)) (candidateId base)
      opened ++ [{ node, kind, name, outer, id }]
  | _ => opened

/-- Notes what an event says about the names of the scope. -/
def note (scope : Scope) : Event → Scope
  | .binds owner name binding =>
      if owner = scope.key then { scope with bindings := scope.bindings.extend name [binding] }
      else scope
  | .declaresGlobal owner names =>
      if owner = scope.key then { scope with globals := scope.globals ++ names } else scope
  | .declaresNonlocal owner names =>
      if owner = scope.key then { scope with nonlocals := scope.nonlocals ++ names } else scope
  | _ => scope

/-- The scopes of a module with the names that each binds and declares by itself. -/
def ofEvents (path : String) (events : List Event) : List Scope :=
  (events.foldl (openNext path) []).map (fun scope => events.foldl note scope)

end Scope

def findScope? (scopes : List Scope) (key : NodeId) : Option Scope :=
  scopes.find? (fun scope => scope.key = key)

/-- The scopes around a scope, innermost first. -/
def scopesAround (scopes : List Scope) (scope : Scope) : List Scope :=
  scope.outer.filterMap (findScope? scopes)

/-- The scope that a nonlocal name of a scope belongs to: the nearest frame around it that binds
the name and does not itself declare it nonlocal. -/
def nonlocalOwner? (scopes : List Scope) (scope : Scope) (name : String) : Option NodeId :=
  (((scopesAround scopes scope).takeWhile (fun other => other.kind != .module)).find?
    (fun other =>
      other.isFunctionLike && other.bindings.contains name && !other.nonlocals.contains name)).map
    Scope.key

/-- The scope that a name bound in a scope belongs to. -/
def ownerOf? (scopes : List Scope) (scope : Scope) (name : String) : Option NodeId :=
  if scope.kind != .module && scope.globals.contains name then scopes.head?.map Scope.key
  else if scope.nonlocals.contains name then nonlocalOwner? scopes scope name
  else some scope.key

/-- A name that gets a symbol in the scope `owner`, with the bindings that come from an inner
scope, if any. -/
structure Deposit where
  owner : NodeId
  name : String
  bindings : List Binding

/-- What the names bound in a scope contribute to the scopes they belong to. -/
def Scope.deposits (scopes : List Scope) (scope : Scope) : List Deposit :=
  scope.bindings.entries.filterMap fun (name, bindings) =>
    (ownerOf? scopes scope name).map fun owner =>
      { owner, name, bindings := if owner = scope.key then [] else bindings }

end SafeRefactor
