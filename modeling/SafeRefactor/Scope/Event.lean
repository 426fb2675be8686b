import SafeRefactor.Scope.Symbol
import SafeRefactor.Tree.Callable

/-!
# Scope events

One pass over a module tells, in the order of evaluation, which scopes open, in
which scope each node is evaluated, which names each scope binds and which names
it declares global or nonlocal.  A scope is known by the number of the node that
opens it.

Decorators, defaults, annotations, class bases and keywords, and the first
iterable of a comprehension are evaluated in the scope around the construct.  The
target of an assignment expression belongs to the nearest scope that is not a
comprehension.
-/

namespace SafeRefactor

/-- An occurrence that binds a name, with the construct directly around it. -/
structure Binding where
  node : Node
  parent : Option Node

/-- One fact about the scopes of a module. -/
inductive Event where
  /-- A node opens a scope inside the scopes `outer`, innermost first. -/
  | opens (node : Node) (kind : ScopeKind) (name : String) (outer : List NodeId)
  /-- A node is evaluated in a scope. -/
  | places (node : NodeId) (scope : NodeId)
  /-- A scope binds a name. -/
  | binds (scope : NodeId) (name : String) (binding : Binding)
  /-- A scope declares names global. -/
  | declaresGlobal (scope : NodeId) (names : List String)
  /-- A scope declares names nonlocal. -/
  | declaresNonlocal (scope : NodeId) (names : List String)

/-- Where the visit is: the current scope, those around it, the nearest scope that is not a
comprehension, and the construct around the visited node. -/
structure Place where
  scope : NodeId
  outer : List NodeId
  frame : NodeId
  parent : Option Node

namespace Place

/-- The scopes from the current one outwards. -/
def chain (place : Place) : List NodeId :=
  place.scope :: place.outer

/-- The same scope, inside a node. -/
def inside (place : Place) (node : Node) : Place :=
  { place with parent := some node }

/-- Inside the scope that a function, lambda or class opens. -/
def enter (place : Place) (node : Node) : Place :=
  { scope := node.id, outer := place.chain, frame := node.id, parent := some node }

/-- Inside the scope that a comprehension opens. -/
def enterComprehension (place : Place) (node : Node) : Place :=
  { scope := node.id, outer := place.chain, frame := place.frame, parent := some node }

end Place

/-- The name of the scope that a comprehension opens. -/
def ComprehensionKind.scopeName : ComprehensionKind → String
  | .list => "<listcomp>"
  | .set => "<setcomp>"
  | .dict => "<dictcomp>"
  | .generator => "<generatorexp>"

namespace Event

/-- The parameters of a callable belong to the scope it opens. -/
def ofParameters (callable : Node) : List Event :=
  callable.parameters.flatMap fun parameter =>
    [.places parameter.id callable.id,
     .binds callable.id parameter.parameterName ⟨parameter, callable.only? .parameters⟩]

/-- An import statement binds each imported name, except that a star binds none. -/
def ofImports (scope : NodeId) (statement : Node) : List Event :=
  statement.children.flatMap fun item =>
    match item.form with
    | .alias name asName =>
        if name = "*" then [.places item.id scope]
        else [.places item.id scope,
              .binds scope (importedName name asName) ⟨item, some statement⟩]
    | _ => []

/-- The target of an assignment expression belongs to the given scope. -/
def ofNamedTarget (scope : NodeId) (expression : Node) : List Event :=
  (expression.field .target).flatMap fun target =>
    [.places target.id scope,
     .binds scope (target.identifier?.getD "") ⟨target, some expression⟩]

/-- The name that a handler or a pattern binds besides what its constituents bind. -/
def ofCapture (place : Place) (node : Node) : List Event :=
  match node.form with
  | .handler (some name) _ | .matchAs (some name) | .matchStar (some name)
  | .matchMapping (some name) =>
      if name.isEmpty then [] else [.binds place.scope name ⟨node, place.parent⟩]
  | _ => []

mutual

/-- The events of a node and everything in it. -/
def ofNode (place : Place) : Node → List Event
  | .mk form info children =>
      let node := Node.mk form info children
      let here := place.inside node
      .places info.id place.scope ::
        match form with
        | .functionDef _ name _ =>
            ofRole .decorator here children ++ ofParameterLists here children ++
              ofRole .returns here children ++
              [.binds place.scope name ⟨node, place.parent⟩,
               .opens node .function name place.chain] ++
              ofParameters node ++ ofRole .body (place.enter node) children
        | .lambda =>
            ofParameterLists here children ++ [.opens node .lambda "<lambda>" place.chain] ++
              ofParameters node ++ ofRole .result (place.enter node) children
        | .classDef name =>
            ofRole .decorator here children ++ ofRole .base here children ++
              ofRole .keyword here children ++
              [.binds place.scope name ⟨node, place.parent⟩,
               .opens node .classBody name place.chain] ++
              ofRole .body (place.enter node) children
        | .comprehension kind =>
            let inner := place.enterComprehension node
            ofFirstIterable here children ++
              [.opens node .comprehension kind.scopeName place.chain] ++
              ofClauses inner true children ++ ofRole .key inner children ++
              ofRole .value inner children ++ ofRole .element inner children
        | .namedExpr => ofRole .value here children ++ ofNamedTarget place.frame node
        | .name id context =>
            if context = .load then [] else [.binds place.scope id ⟨node, place.parent⟩]
        | .globalStmt names => [.declaresGlobal place.scope names]
        | .nonlocalStmt names => [.declaresNonlocal place.scope names]
        | .importStmt | .importFrom _ _ => ofImports place.scope node
        | _ => ofCapture place node ++ ofAll here children

def ofAll (place : Place) : List Node → List Event
  | [] => []
  | node :: rest => ofNode place node ++ ofAll place rest

def ofRole (role : Role) (place : Place) : List Node → List Event
  | [] => []
  | node :: rest =>
      if node.role = role then ofNode place node ++ ofRole role place rest
      else ofRole role place rest

/-- The events of parameter lists around the callable: their defaults, then their annotations. -/
def ofParameterLists (place : Place) : List Node → List Event
  | [] => []
  | .mk form info parts :: rest =>
      if info.role = .parameters then
        let here := place.inside (.mk form info parts)
        .places info.id place.scope ::
          (ofRole .default here parts ++ ofRole .keywordDefault here parts ++
            ofHints place parts ++ ofParameterLists place rest)
      else ofParameterLists place rest

/-- The events of parameter annotations. -/
def ofHints (place : Place) : List Node → List Event
  | [] => []
  | .mk form info children :: rest =>
      if info.role.isParameter then
        .places info.id place.scope ::
          (ofRole .typeHint (place.inside (.mk form info children)) children ++
            ofHints place rest)
      else ofHints place rest

/-- The events of the first iterable of a comprehension. -/
def ofFirstIterable (place : Place) : List Node → List Event
  | [] => []
  | .mk form info parts :: rest =>
      if info.role = .clause then ofRole .iterable (place.inside (.mk form info parts)) parts
      else ofFirstIterable place rest

/-- The events of the clauses of a comprehension, without the first iterable. -/
def ofClauses (place : Place) (first : Bool) : List Node → List Event
  | [] => []
  | .mk form info parts :: rest =>
      if info.role = .clause then
        let here := place.inside (.mk form info parts)
        .places info.id place.scope ::
          ((if first then [] else ofRole .iterable here parts) ++ ofRole .target here parts ++
            ofRole .condition here parts ++ ofClauses place false rest)
      else ofClauses place first rest

end

def ofModule (tree : Node) : List Event :=
  .opens tree .module "<module>" [] :: .places tree.id tree.id ::
    ofRole .body { scope := tree.id, outer := [], frame := tree.id, parent := some tree }
      tree.children

end Event

end SafeRefactor
