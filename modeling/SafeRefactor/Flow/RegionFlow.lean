import SafeRefactor.Flow.Continuation

/-!
# Data flow of a region

Which followed symbols cross the boundary of a region.  Two tracks share the rules
of definite assignment: the region itself shows what it reads before assigning and
what it writes, its continuation shows which of the written symbols are read
afterwards.
-/

namespace SafeRefactor

/-- How a region uses the symbols of its frames. -/
structure RegionFlow where
  liveIn : SymbolSet := []
  liveOut : SymbolSet := []
  alwaysAssigned : SymbolSet := []
  read : SymbolSet := []
  written : SymbolSet := []
  captured : SymbolSet := []
  declaredInside : SymbolSet := []

def regionIds (nodes : List Node) : List NodeId :=
  nodes.flatMap (fun root => root.walk.map Node.id)

namespace Model

/-- The symbols that live in the frames visible from a scope. -/
def trackedSymbols (model : Model) (scope : Scope) : SymbolSet :=
  SymbolSet.ofList
    ((model.frames scope).flatMap fun frame =>
      frame.symbols.values.filter (fun symbol => symbol.kind.isTracked))

/-- The innermost frame of a scope. -/
def ownFrame? (model : Model) (scope : Scope) : Option Scope :=
  (model.frames scope).head?

/-- The loops around a node within its function, lambda or class. -/
def loopsAround (model : Model) (node : Node) : List Node :=
  ((model.tree.ancestors node.id).takeWhile (fun outer => !outer.form.isBarrier)).filter
    (fun outer => outer.form.isLoop)

/-- Whether a symbol is a variable of the innermost frame, so that positions decide whether a
value can reach the region. -/
def isOwnLocal (model : Model) (scope : Scope) (symbol : Symbol) : Bool :=
  symbol.kind != .parameter && symbol.kind != .receiver &&
    (model.ownFrame? scope).any (fun own => symbol.scopeId = own.id)

/-- Whether some binding of a symbol can flow into the start of a region: one before it in the
text, or one in a loop around it. -/
def reachesRegion (model : Model) (scope : Scope) (first : Node) (inside : List NodeId)
    (symbol : Symbol) : Bool :=
  if model.isOwnLocal scope symbol then
    let bindings := model.bindingsOf symbol
    bindings.any (fun binding => !inside.contains binding.node.id && binding.start < first.start) ||
      (model.loopsAround first).any fun loop =>
        let loopIds := loop.walk.map Node.id
        bindings.any (fun binding => loopIds.contains binding.node.id)
  else true

/-- The way outwards from the last statement of a region, or from the statement around it. -/
def wayOut (model : Model) (last : Node) : List Node :=
  (model.tree.lineage last.id).dropWhile (fun node => !node.isStatement)

/-- Whether code outside a region that belongs to another scope mentions a symbol. -/
def seenByClosure (model : Model) (inside : List NodeId) (symbol : Symbol) : Bool :=
  (model.referencesOf symbol).any fun reference =>
    !inside.contains reference.id && (model.scopeOf reference).id != symbol.scopeId

/-- The written symbols that are read after a region before they are written again, or that a
closure outside the region mentions. -/
def liveOut (model : Model) (tracked written : SymbolSet) (last : Node) (inside : List NodeId) :
    SymbolSet :=
  if written.isEmpty then []
  else
    let exposed :=
      (Track.continueFrom (Frame.ofModel model tracked) (model.wayOut last) {}).exposed
    written.filter (fun symbol => symbol ∈ exposed || model.seenByClosure inside symbol)

/-- The statements or the expression that a function or lambda runs when it is called. -/
def calledCode (node : Node) : List Node :=
  match node.form with
  | .functionDef .. => node.field .body
  | .lambda => node.field .result
  | _ => []

/-- The followed symbols that functions and lambdas inside a region mention. -/
def capturedSymbols (model : Model) (tracked : SymbolSet) (nodes : List Node) : SymbolSet :=
  SymbolSet.ofList
    (((nodes.flatMap Node.walk).flatMap calledCode).flatMap fun code =>
      code.walk.filterMap fun node =>
        if node.identifier?.isSome then
          (model.resolve node).filter (fun symbol => symbol ∈ tracked)
        else none)

/-- The variables of the innermost frame whose earliest binding lies inside a region. -/
def declaredSymbols (model : Model) (scope : Scope) (tracked : SymbolSet)
    (inside : List NodeId) : SymbolSet :=
  match model.ownFrame? scope with
  | none => []
  | some own =>
      tracked.filter fun symbol =>
        symbol.kind = .localVariable && symbol.scopeId = own.id &&
          ((Binding.inOrder (model.bindingsOf symbol)).head?.any
            (fun binding => inside.contains binding.node.id))

/-- The data flow of a region that starts with `first`. -/
def flowOf (model : Model) (first : Node) (rest : List Node) : RegionFlow :=
  let nodes := first :: rest
  let scope := model.scopeOf first
  let tracked := model.trackedSymbols scope
  let inside := regionIds nodes
  let track := Track.follow (Frame.ofModel model tracked) nodes {}
  { liveIn := track.exposed.filter (model.reachesRegion scope first inside)
    liveOut := model.liveOut tracked track.writes (nodes.getLast (by simp [nodes])) inside
    alwaysAssigned := track.assigned.inter track.writes
    read := track.reads
    written := track.writes
    captured := model.capturedSymbols tracked nodes
    declaredInside := model.declaredSymbols scope tracked inside }

/-- The data flow of a region. -/
def regionFlow (model : Model) : List Node → RegionFlow
  | [] => {}
  | first :: rest => model.flowOf first rest

/-- The data flow of a region, unless it depends on the place of a first node that has none. -/
def regionFlow? (model : Model) : List Node → Except Fault RegionFlow
  | [] => .ok {}
  | first :: rest =>
      let scope := model.scopeOf first
      let frame := Frame.ofModel model (model.trackedSymbols scope)
      if first.span.isNone &&
          (Track.follow frame (first :: rest) {}).exposed.any (model.isOwnLocal scope) then
        .error (.noPosition first.form.label)
      else .ok (model.flowOf first rest)

end Model

end SafeRefactor
