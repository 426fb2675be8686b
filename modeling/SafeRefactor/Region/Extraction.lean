import SafeRefactor.Program.Settings
import SafeRefactor.Region.DataFlow
import SafeRefactor.Region.Hazard

/-!
# Extraction

Whether a run of statements can move into a function of its own: the errors that
reject the request and the warnings that go with it.
-/

namespace SafeRefactor

inductive Rejection where
  | structural
  | notFound
deriving DecidableEq, Repr

def Rejection.label : Rejection → String
  | .structural => "structural"
  | .notFound => "not_found"

/-- The verdict on a request to extract statements. -/
structure Assessment where
  errors : List String := []
  warnings : List String := []
  rejection : Option Rejection := none
  dataFlow : DataFlowFacts := {}
  hazards : Hazards := {}

namespace Assessment

def isValid (assessment : Assessment) : Bool :=
  assessment.errors.isEmpty

/-- The errors that reject a region with the given hazards. -/
def structuralErrors (hazards : Hazards) : List String :=
  (if hazards.danglingLoopExit then
    ["Cannot extract code containing break/continue statements"] else []) ++
  (if hazards.generators then ["Cannot extract code containing yield statements"] else [])

def functionAround? (tree : Node) (node : Node) : Option Node :=
  (tree.ancestors node.id).find? (fun outer => outer.form.isFunction)

/-- Whether statements are the whole body of the construct around them. -/
def isWholeBody (function : Option Node) (statements : List Node) : Except Fault Bool :=
  match function with
  | none => .ok false
  | some definition =>
      if definition.form.hasBody then
        .ok ((definition.field .body).map Node.id = statements.map Node.id)
      else
        match definition.only? .result with
        | some expression => .error (.noStatementList expression.form.label)
        | none => .error (.noBody definition.form.label)

/-- Whether returns of a region stay inside a function that has other code as well. -/
def returnsEarly (hazards : Hazards) (function : Option Node) (statements : List Node) :
    Except Fault Bool :=
  if hazards.returns then (isWholeBody function statements).map (!·) else .ok false

/-- Names with commas between them. -/
def listing (names : List String) : String :=
  ", ".intercalate names

def regionWarnings (facts : DataFlowFacts) (hazards : Hazards) (early : Bool) : List String :=
  hazards.warnings ++
  (if facts.hasCaptures then
    ["Selected code captures variables in closures: " ++ listing facts.captured] else []) ++
  (if early then
    ["Selected code contains return statements; " ++
      "callers of the extracted function must propagate the returned value"] else []) ++
  (if hazards.scopeDeclarations then
    ["Selected code declares global/nonlocal names; " ++
      "the extracted function needs the same declarations"] else []) ++
  (if 1 < facts.outputs.length then
    ["Multiple output variables (" ++ listing facts.outputs ++ ") " ++
      "will be returned as a tuple"] else [])

/-- The warnings that are given on request. -/
def advice (facts : DataFlowFacts) (hazards : Hazards) : List String :=
  (if facts.hasInputs then ["Input variables: " ++ listing facts.inputs] else []) ++
  (if facts.hasOutputs then ["Output variables: " ++ listing facts.outputs] else []) ++
  (if hazards.asyncAwait then
    ["Selected code awaits; the extracted function must be async"] else []) ++
  (if hazards.exceptionHandling then
    ["Selected code contains exception handling; " ++
      "keep handlers together with the code they protect"] else [])

/-- The verdict on a region with the given facts, where `early` tells whether it has returns that
callers must pass on. -/
def ofFacts (settings : Settings) (facts : DataFlowFacts) (hazards : Hazards) (early : Bool) :
    Assessment :=
  let errors := structuralErrors hazards
  { errors
    warnings :=
      regionWarnings facts hazards early ++
        (if settings.verboseExtraction then advice facts hazards else [])
    rejection := if errors.isEmpty then none else some .structural
    dataFlow := facts
    hazards }

/-- The verdict on extracting statements.  The function around them is looked up unless it is
given.  The first of the statements has a place in the text. -/
def ofStatements (model : Model) (settings : Settings) (containing : Option Node)
    (statements : List Node) : Except Fault Assessment :=
  match statements with
  | [] => .ok { errors := [Fault.regionNotFound.message], rejection := some .notFound }
  | first :: _ =>
      let hazards := Hazards.ofRegion statements
      let function := containing.or (functionAround? model.tree first)
      match model.regionFlow? statements, returnsEarly hazards function statements with
      | .error fault, _ => .error fault
      | .ok _, .error fault => .error fault
      | .ok flow, .ok early =>
          if first.span.isNone then .error (.noPosition first.form.label)
          else .ok (ofFacts settings (model.factsOf statements flow) hazards early)

end Assessment

end SafeRefactor
