import SafeRefactor.Tree.Node

/-!
# Hazards

Constructs that complicate moving a region into a function of its own.  Control
flow and suspension inside a nested function, lambda or class belong to that
construct and not to the region.
-/

namespace SafeRefactor

/-- Which hazards occur in a region. -/
structure Hazards where
  asyncAwait : Bool := false
  resourceScope : Bool := false
  exceptionHandling : Bool := false
  returns : Bool := false
  loopExit : Bool := false
  /-- A `break` or `continue` whose loop is outside the region. -/
  danglingLoopExit : Bool := false
  closures : Bool := false
  nestedCallables : Bool := false
  generators : Bool := false
  scopeDeclarations : Bool := false
deriving DecidableEq, Repr

namespace Hazards

def join (left right : Hazards) : Hazards where
  asyncAwait := left.asyncAwait || right.asyncAwait
  resourceScope := left.resourceScope || right.resourceScope
  exceptionHandling := left.exceptionHandling || right.exceptionHandling
  returns := left.returns || right.returns
  loopExit := left.loopExit || right.loopExit
  danglingLoopExit := left.danglingLoopExit || right.danglingLoopExit
  closures := left.closures || right.closures
  nestedCallables := left.nestedCallables || right.nestedCallables
  generators := left.generators || right.generators
  scopeDeclarations := left.scopeDeclarations || right.scopeDeclarations

/-- The hazards of control flow and suspension that a construct is by itself. -/
def ofControl (inLoop : Bool) : Form → Hazards
  | .await | .forLoop true | .withStmt true | .clause true => { asyncAwait := true }
  | .returnStmt => { returns := true }
  | .breakStmt | .continueStmt => { loopExit := true, danglingLoopExit := !inLoop }
  | .yield | .yieldFrom => { generators := true }
  | .globalStmt _ | .nonlocalStmt _ => { scopeDeclarations := true }
  | _ => {}

/-- The hazards that a construct is by itself wherever it stands. -/
def ofConstruct : Form → Hazards
  | .withStmt _ => { resourceScope := true }
  | .tryStmt _ => { exceptionHandling := true }
  | .lambda => { closures := true }
  | .functionDef .. => { nestedCallables := true }
  | _ => {}

mutual

/-- The hazards of a node that is in a nested construct or not, and in a loop or not. -/
def ofNode (nested inLoop : Bool) : Node → Hazards
  | .mk form _ children =>
      let own := (if nested then {} else ofControl inLoop form).join (ofConstruct form)
      match form with
      | .functionDef .. | .lambda | .classDef _ => own.join (ofAll true (fun _ => false) children)
      | .forLoop _ | .whileLoop =>
          own.join (ofAll nested (fun role => role != .orelse || inLoop) children)
      | _ => own.join (ofAll nested (fun _ => inLoop) children)

/-- The hazards of the nodes of a list; the role of a node tells whether it is in a loop. -/
def ofAll (nested : Bool) (inLoop : Role → Bool) : List Node → Hazards
  | [] => {}
  | node :: rest => (ofNode nested (inLoop node.role) node).join (ofAll nested inLoop rest)

end

def ofRegion (nodes : List Node) : Hazards :=
  ofAll false (fun _ => false) nodes

/-- The hazards that occur, by name and in report order. -/
def labels (hazards : Hazards) : List String :=
  [(hazards.asyncAwait, "async/await"),
   (hazards.resourceScope, "with/context managers"),
   (hazards.exceptionHandling, "try/except"),
   (hazards.returns, "return statements"),
   (hazards.loopExit, "break/continue"),
   (hazards.closures, "lambdas/closures"),
   (hazards.nestedCallables, "nested functions"),
   (hazards.generators, "yield/generators"),
   (hazards.scopeDeclarations, "global/nonlocal")].filterMap
    (fun (occurs, label) => if occurs then some label else none)

def warnings (hazards : Hazards) : List String :=
  if hazards.loopExit then
    ["Break/continue statements detected. " ++
      "Extraction may be invalid if block is part of a loop."]
  else []

end Hazards

end SafeRefactor
