import SafeRefactor.Flow.RegionFlow
import SafeRefactor.Region.Selection
import SafeRefactor.Text.NameList

/-!
# Variables that cross the boundary of a region

Inputs become parameters of an extracted function, outputs its results, locals stay
inside.  The receiver of a method never becomes a parameter or a result.  A
variable that a region mentions and that is not otherwise accounted for becomes an
input.
-/

namespace SafeRefactor

/-- The variables of a region by the part they play, in increasing order. -/
structure DataFlowFacts where
  inputs : List String := []
  outputs : List String := []
  locals : List String := []
  captured : List String := []
  declaredInside : List String := []
  types : List (String × String) := []
deriving DecidableEq, Repr

namespace DataFlowFacts

def hasInputs (facts : DataFlowFacts) : Bool :=
  !facts.inputs.isEmpty

def hasOutputs (facts : DataFlowFacts) : Bool :=
  !facts.outputs.isEmpty

def hasLocals (facts : DataFlowFacts) : Bool :=
  !facts.locals.isEmpty

def hasCaptures (facts : DataFlowFacts) : Bool :=
  !facts.captured.isEmpty

end DataFlowFacts

def variablesOf (symbols : SymbolSet) : List Symbol :=
  symbols.filter (fun symbol => symbol.kind.isVariable)

def namesOf (symbols : List Symbol) : List String :=
  symbols.map Symbol.name

namespace Model

/-- The variables that the names of a region mean, if they are followed there. -/
def mentionedVariables (model : Model) (tracked : SymbolSet) (nodes : List Node) : List Symbol :=
  (nodes.flatMap Node.walk).filterMap fun node =>
    if node.identifier?.isSome then
      (model.resolve node).filter (fun symbol => symbol.kind.isVariable && symbol ∈ tracked)
    else none

/-- The facts about a region with the given data flow. -/
def factsOf (model : Model) (nodes : List Node) (flow : RegionFlow) : DataFlowFacts :=
  let needed := variablesOf flow.liveIn
  let left := variablesOf flow.liveOut
  let outputs := Text.sortedNames (namesOf left)
  let assigned := flow.alwaysAssigned.filter (fun symbol => symbol.kind = .localVariable)
  let locals :=
    Text.sortedNames ((namesOf assigned).filter (fun name => !outputs.contains name))
  let declaredInside := Text.sortedNames (namesOf flow.declaredInside)
  let tracked := model.trackedSymbols (model.scopeOf (nodes.headD default))
  let unaccounted :=
    (model.mentionedVariables tracked nodes).filter fun symbol =>
      !outputs.contains symbol.name && !locals.contains symbol.name &&
        !declaredInside.contains symbol.name
  let inputs := Text.sortedNames (namesOf (needed ++ unaccounted))
  let types :=
    (needed ++ left ++ assigned ++ unaccounted).map
      (fun symbol => (symbol.name, symbol.declaredType))
  { inputs
    outputs
    locals
    captured := Text.sortedNames (namesOf (variablesOf flow.captured))
    declaredInside
    types :=
      (Text.sortedNames (inputs ++ outputs ++ locals)).map
        (fun name => (name, (types.lookup name).getD anyType)) }

/-- The facts about a run of neighbouring statements or a single node. -/
def dataFlow (model : Model) (nodes : List Node) : DataFlowFacts :=
  if nodes.isEmpty then {} else model.factsOf nodes (model.regionFlow nodes)

/-- The facts about a region: a single node counts as it is, of several only the statements. -/
def regionDataFlow (model : Model) (region : Region) : DataFlowFacts :=
  match region.nodes with
  | [] => {}
  | [node] => model.dataFlow [node]
  | _ => model.dataFlow region.statements

end Model

end SafeRefactor
