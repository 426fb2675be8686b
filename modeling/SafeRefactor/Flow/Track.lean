import SafeRefactor.Flow.SymbolSet
import SafeRefactor.Scope.Model

/-!
# Definite assignment

A track follows code in execution order.  It knows which symbols are definitely
assigned and records which symbols were read, written, and read while they were
possibly unassigned.

Branches of `if` and `match` are intersected, and branches that leave the code
drop out.  Loops may run zero times, so their bodies are followed on a copy of the
assigned set.  Handlers start from the set before the `try`.  The body of a nested
function or class is followed at its definition, on a copy.
-/

namespace SafeRefactor

/-- What the occurrences of names mean to the code being followed. -/
structure Frame where
  /-- The symbol that a name occurrence means, if it is followed. -/
  occurrence : Node → Option Symbol
  /-- The symbol that a construct binds under a name, if it is followed. -/
  capture : Node → String → Option Symbol

/-- The frame in which exactly the given symbols of a model are followed. -/
def Frame.ofModel (model : Model) (tracked : SymbolSet) : Frame where
  occurrence node := (model.resolve node).filter (fun symbol => symbol ∈ tracked)
  capture node name :=
    (model.lookup (model.scopeOf node) name).filter (fun symbol => symbol ∈ tracked)

/-- What is known at a point of the code and what was recorded on the way. -/
structure Track where
  assigned : SymbolSet := []
  reads : SymbolSet := []
  writes : SymbolSet := []
  /-- Symbols that were read when they were possibly unassigned. -/
  exposed : SymbolSet := []

namespace Track

/-- Goes on with another assigned set, keeping the record. -/
def within (track : Track) (assigned : SymbolSet) : Track :=
  { track with assigned }

def read (symbol : Symbol) (track : Track) : Track :=
  { track with
    reads := track.reads.insert symbol
    exposed :=
      if symbol ∈ track.assigned then track.exposed else track.exposed.insert symbol }

def write (symbol : Symbol) (track : Track) : Track :=
  { track with
    writes := track.writes.insert symbol
    assigned := track.assigned.insert symbol }

def unassign (symbol : Symbol) (track : Track) : Track :=
  { track with assigned := track.assigned.remove symbol }

def read? (symbol : Option Symbol) (track : Track) : Track :=
  symbol.elim track track.read

def write? (symbol : Option Symbol) (track : Track) : Track :=
  symbol.elim track track.write

/-- Follows the occurrence of a name.  Deleting a name reads it first. -/
def touch (frame : Frame) (node : Node) (context : Context) (track : Track) : Track :=
  match frame.occurrence node, context with
  | none, _ => track
  | some symbol, .load => track.read symbol
  | some symbol, .store => track.write symbol
  | some symbol, .del => (track.read symbol).unassign symbol

/-- Follows the binding of a name by a construct other than a name occurrence. -/
def bind (frame : Frame) (node : Node) (name : String) (track : Track) : Track :=
  track.write? (frame.capture node name)

mutual

/-- Follows the evaluation of a node as an expression. -/
def evaluate (frame : Frame) : Node → Track → Track
  | .mk form info children, track =>
      match form with
      | .name id context => track.touch frame (.mk (.name id context) info children) context
      | .namedExpr => evaluateRole frame .target children (evaluateRole frame .value children track)
      | .lambda =>
          let defined := evaluateDefaults frame children track
          (evaluateRole frame .result children defined).within defined.assigned
      | .comprehension _ =>
          let collected := evaluateClauses frame children track
          evaluateRole frame .element children
            (evaluateRole frame .value children (evaluateRole frame .key children collected))
      | _ => evaluateAll frame children track

def evaluateAll (frame : Frame) : List Node → Track → Track
  | [], track => track
  | node :: rest, track => evaluateAll frame rest (evaluate frame node track)

/-- Follows the evaluation of the nodes of a list that play a given role. -/
def evaluateRole (frame : Frame) (role : Role) : List Node → Track → Track
  | [], track => track
  | node :: rest, track =>
      if node.role = role then evaluateRole frame role rest (evaluate frame node track)
      else evaluateRole frame role rest track

/-- Follows the defaults in the parameter lists among the nodes of a list. -/
def evaluateDefaults (frame : Frame) : List Node → Track → Track
  | [], track => track
  | .mk _ info parts :: rest, track =>
      if info.role = .parameters then
        evaluateDefaults frame rest
          (evaluateRole frame .keywordDefault parts (evaluateRole frame .default parts track))
      else evaluateDefaults frame rest track

/-- Follows the clauses of a comprehension: iterable, target, conditions. -/
def evaluateClauses (frame : Frame) : List Node → Track → Track
  | [], track => track
  | .mk _ info parts :: rest, track =>
      if info.role = .clause then
        evaluateClauses frame rest
          (evaluateRole frame .condition parts
            (evaluateRole frame .target parts (evaluateRole frame .iterable parts track)))
      else evaluateClauses frame rest track

end

theorem evaluateAll_eq_foldl (frame : Frame) (items : List Node) (track : Track) :
    track.evaluateAll frame items =
      items.foldl (fun track item => track.evaluate frame item) track := by
  induction items generalizing track with
  | nil => rfl
  | cons item rest induction => exact induction (track.evaluate frame item)

/-- A walk along a list that takes a step at each node of one role is a fold over those nodes. -/
theorem eq_foldl_of_role {walk : List Node → Track → Track} {role : Role}
    {step : Track → Node → Track} (ends : ∀ track, walk [] track = track)
    (goes : ∀ item rest track, walk (item :: rest) track =
      if item.role = role then walk rest (step track item) else walk rest track)
    (items : List Node) (track : Track) :
    walk items track = (items.filter fun item => item.role = role).foldl step track := by
  induction items generalizing track with
  | nil => exact ends track
  | cons item rest induction =>
      rw [goes]
      by_cases plays : item.role = role
      · simp [plays, induction]
      · simp [plays, induction]

theorem evaluateRole_eq_foldl (frame : Frame) (role : Role) (items : List Node) (track : Track) :
    track.evaluateRole frame role items =
      (items.filter fun item => item.role = role).foldl
        (fun track item => track.evaluate frame item) track :=
  eq_foldl_of_role (fun _ => rfl) (fun _ _ _ => rfl) items track

/-- Follows parts of the nodes of one role in a list: of each node, those of the given roles, role
after role. -/
def evaluateParts (frame : Frame) (role : Role) (parts : List Role) (items : List Node)
    (track : Track) : Track :=
  (items.filter fun item => item.role = role).foldl
    (fun track item =>
      parts.foldl (fun track part => track.evaluateRole frame part item.children) track)
    track

theorem evaluateDefaults_eq_parts (frame : Frame) (items : List Node) (track : Track) :
    track.evaluateDefaults frame items =
      track.evaluateParts frame .parameters [.default, .keywordDefault] items :=
  eq_foldl_of_role (fun _ => rfl) (fun ⟨_, _, _⟩ _ _ => rfl) items track

theorem evaluateClauses_eq_parts (frame : Frame) (items : List Node) (track : Track) :
    track.evaluateClauses frame items =
      track.evaluateParts frame .clause [.iterable, .target, .condition] items :=
  eq_foldl_of_role (fun _ => rfl) (fun ⟨_, _, _⟩ _ _ => rfl) items track

/-- Follows one node of a pattern: values and classes are evaluated, captures bind. -/
def matchNode (frame : Frame) (track : Track) (node : Node) : Track :=
  match node.form with
  | .matchValue => track.evaluateRole frame .value node.children
  | .matchClass _ => track.evaluateRole frame .matchedClass node.children
  | .matchAs (some name) | .matchStar (some name) | .matchMapping (some name) =>
      if name.isEmpty then track else track.bind frame node name
  | _ => track

/-- Follows a pattern, level by level. -/
def matchPattern (frame : Frame) (pattern : Node) (track : Track) : Track :=
  pattern.walk.foldl (matchNode frame) track

/-- Follows the patterns among the nodes of a list. -/
def matchPatterns (frame : Frame) (parts : List Node) (track : Track) : Track :=
  (parts.filter (fun part => part.role = .pattern)).foldl
    (fun track pattern => track.matchPattern frame pattern) track

/-- Follows the name that an exception handler binds. -/
def bindHandler (frame : Frame) (handler : Node) (track : Track) : Track :=
  match handler.form with
  | .handler (some name) _ => if name.isEmpty then track else track.bind frame handler name
  | _ => track

/-- Follows the names that an import statement binds. -/
def bindImports (frame : Frame) (items : List Node) (track : Track) : Track :=
  items.foldl
    (fun track item =>
      match item.form with
      | .alias name asName =>
          if name = "*" then track else track.bind frame item (importedName name asName)
      | _ => track)
    track

/-- Follows an augmented assignment: a plain name is read, then written. -/
def augment (frame : Frame) (children : List Node) (track : Track) : Track :=
  match children.find? (fun child => child.role = .target) with
  | some target =>
      match target.form with
      | .name _ _ =>
          let symbol := frame.occurrence target
          ((track.read? symbol).evaluateRole frame .value children).write? symbol
      | _ => (track.evaluateRole frame .target children).evaluateRole frame .value children
  | none => track.evaluateRole frame .value children

/-- Follows an annotated assignment.  Without a value a plain name is left alone. -/
def annotate (frame : Frame) (children : List Node) (track : Track) : Track :=
  if children.any (fun child => child.role = .value) then
    (track.evaluateRole frame .value children).evaluateRole frame .target children
  else if children.any (fun child => child.role = .target && child.identifier?.isSome) then track
  else track.evaluateRole frame .target children

end Track

/-- The track after a piece of code and whether control can fall off its end. -/
structure Outcome where
  track : Track
  falls : Bool

namespace Outcome

/-- Control falls through. -/
def next (track : Track) : Outcome :=
  ⟨track, true⟩

/-- Control leaves the code around. -/
def leave (track : Track) : Outcome :=
  ⟨track, false⟩

/-- The assigned set at the end, if it is reached. -/
def ends (outcome : Outcome) : List SymbolSet :=
  if outcome.falls then [outcome.track.assigned] else []

end Outcome

namespace Track

/-- Joins alternatives that end with the given assigned sets.  When none ends, the set from
before the alternatives stays. -/
def joinEnds (before : SymbolSet) (ends : List SymbolSet) (track : Track) : Outcome :=
  if ends.isEmpty then .leave (track.within before)
  else .next (track.within (SymbolSet.interAll ends))

mutual

/-- Follows the execution of a statement. -/
def execute (frame : Frame) : Node → Track → Outcome
  | .mk form info children, track =>
      match form with
      | .functionDef isAsync name returns =>
          let defined :=
            (track.evaluateRole frame .decorator children).evaluateDefaults frame children
          let followed := (executeRole frame .body children defined).track
          .next ((followed.within defined.assigned).bind frame
            (.mk (.functionDef isAsync name returns) info children) name)
      | .classDef name =>
          let defined :=
            ((track.evaluateRole frame .decorator children).evaluateRole frame .base
              children).evaluateRole frame .keyword children
          let followed := (executeRole frame .body children defined).track
          .next ((followed.within defined.assigned).bind frame
            (.mk (.classDef name) info children) name)
      | .assign =>
          .next ((track.evaluateRole frame .value children).evaluateRole frame .target children)
      | .annAssign _ => .next (track.annotate frame children)
      | .augAssign => .next (track.augment frame children)
      | .returnStmt | .raiseStmt => .leave (track.evaluateAll frame children)
      | .breakStmt | .continueStmt => .leave track
      | .ifStmt =>
          let tested := track.evaluateRole frame .test children
          let first := executeRole frame .body children tested
          let second := executeRole frame .orelse children (first.track.within tested.assigned)
          second.track.joinEnds tested.assigned (first.ends ++ second.ends)
      | .forLoop _ =>
          let started := track.evaluateRole frame .iterable children
          let round := executeRole frame .body children
            (started.evaluateRole frame .target children)
          .next (executeRole frame .orelse children (round.track.within started.assigned)).track
      | .whileLoop =>
          let tested := track.evaluateRole frame .test children
          let round := executeRole frame .body children tested
          .next (executeRole frame .orelse children (round.track.within tested.assigned)).track
      | .withStmt _ => executeRole frame .body children (track.evaluateRole frame .item children)
      | .tryStmt _ =>
          let before := track.assigned
          let tried := executeRole frame .body children track
          let main := if tried.falls then executeRole frame .orelse children tried.track else tried
          let (handled, ends) := executeHandlers frame before children main.track
          let joined := handled.joinEnds before (main.ends ++ ends)
          let final := executeRole frame .finalbody children (joined.track.within before)
          ⟨final.track.within
              (joined.track.assigned.union (final.track.assigned.diff before)),
            final.falls && joined.falls⟩
      | .matchStmt =>
          let started := track.evaluateRole frame .subject children
          let (matched, ends) := executeArms frame started.assigned children started
          .next (matched.within (SymbolSet.interAll (started.assigned :: ends)))
      | .importStmt | .importFrom _ _ => .next (track.bindImports frame children)
      | _ => .next (track.evaluateAll frame children)

/-- Follows the statements of a list that play a given role, until one of them leaves. -/
def executeRole (frame : Frame) (role : Role) : List Node → Track → Outcome
  | [], track => .next track
  | node :: rest, track =>
      if node.role = role then
        let outcome := execute frame node track
        if outcome.falls then executeRole frame role rest outcome.track else outcome
      else executeRole frame role rest track

/-- Follows the exception handlers among the nodes of a list, each from the set `before`; also
the assigned sets with which they end. -/
def executeHandlers (frame : Frame) (before : SymbolSet) :
    List Node → Track → Track × List SymbolSet
  | [], track => (track, [])
  | .mk form info parts :: rest, track =>
      if info.role = .handler then
        let caught := (track.within before).evaluateRole frame .caught parts
        let outcome :=
          executeRole frame .body parts (caught.bindHandler frame (.mk form info parts))
        let (last, ends) := executeHandlers frame before rest outcome.track
        (last, outcome.ends ++ ends)
      else executeHandlers frame before rest track

/-- Follows the arms of a `match` among the nodes of a list, each from the set `before`; also the
assigned sets with which they end. -/
def executeArms (frame : Frame) (before : SymbolSet) :
    List Node → Track → Track × List SymbolSet
  | [], track => (track, [])
  | .mk _ info parts :: rest, track =>
      if info.role = .arm then
        let matched := (track.within before).matchPatterns frame parts
        let outcome := executeRole frame .body parts (matched.evaluateRole frame .guard parts)
        let (last, ends) := executeArms frame before rest outcome.track
        (last, outcome.ends ++ ends)
      else executeArms frame before rest track

end

/-- Follows the nodes of a region one after the other, statements as statements and all else as
expressions. -/
def follow (frame : Frame) (nodes : List Node) (track : Track) : Track :=
  nodes.foldl
    (fun track node =>
      if node.isStatement then (track.execute frame node).track else track.evaluate frame node)
    track

end Track

end SafeRefactor
