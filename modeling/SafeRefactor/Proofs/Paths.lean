import SafeRefactor.Flow.Track

/-!
# Execution paths

A path of a piece of code is the list of what happens on it, together with the way in
which it completes.  Branches are chosen freely, loops run any number of rounds and any
evaluated expression may raise.  Annotations are not evaluated, deleting a name reads
it, and the body of a nested function may run where the function is defined.
Statements mark where they begin and where they end normally.

A path that is not finished is the beginning of a finished one.
-/

namespace SafeRefactor

/-- What happens on a path. -/
inductive Action where
  | reads (symbol : Symbol)
  | writes (symbol : Symbol)
  /-- The statement with a given number begins. -/
  | begins (statement : NodeId)
  /-- The statement with a given number ends normally. -/
  | ends (statement : NodeId)

/-- How a path completes. -/
inductive Completion where
  | normal
  | broken
  | continued
  | returned
  | raised
deriving DecidableEq, Repr

/-- The finished paths of a piece of code. -/
def Paths := List Action → Completion → Prop

namespace Paths

/-- Nothing happens. -/
def done : Paths := fun trace completion => trace = [] ∧ completion = .normal

/-- Nothing happens but that control leaves. -/
def stop (how : Completion) : Paths := fun trace completion => trace = [] ∧ completion = how

def act (action : Action) : Paths := fun trace completion =>
  trace = [action] ∧ completion = .normal

inductive andThen (first second : Paths) : Paths where
  | stops {trace : List Action} {completion : Completion} :
      first trace completion → completion ≠ .normal → andThen first second trace completion
  | goesOn {trace rest : List Action} {completion : Completion} :
      first trace .normal → second rest completion →
      andThen first second (trace ++ rest) completion

/-- Where two pieces of code end normally, each of them has. -/
theorem andThen.of_normal {first second : Paths} {trace : List Action}
    (path : first.andThen second trace .normal) :
    ∃ start rest, trace = start ++ rest ∧ first start .normal ∧ second rest .normal := by
  cases path with
  | stops _ early => exact absurd rfl early
  | goesOn path later => exact ⟨_, _, rfl, path, later⟩

def either (first second : Paths) : Paths := fun trace completion =>
  first trace completion ∨ second trace completion

/-- A piece of code that may be skipped. -/
def optional (paths : Paths) : Paths :=
  done.either paths

/-- An operation that may raise. -/
def attempt : Paths :=
  done.either (stop .raised)

/-- Pieces of code one after the other. -/
def inOrder : List Paths → Paths
  | [] => done
  | first :: rest => first.andThen (inOrder rest)

/-- Pieces of code one after the other, in an order that is left open. -/
def inSomeOrder (parts : List Paths) : Paths := fun trace completion =>
  ∃ order, order.Perm parts ∧ inOrder order trace completion

/-- The first piece of code, then perhaps the next one, and so on. -/
def shortCircuit : List Paths → Paths
  | [] => done
  | first :: rest => first.andThen (optional (shortCircuit rest))

/-- A piece of code behind conditions that may fail. -/
def behind : List Paths → Paths → Paths
  | [], inner => inner
  | condition :: rest, inner => condition.andThen (optional (behind rest inner))

inductive repeated (round : Paths) : Paths where
  | none : repeated round [] .normal
  | more {trace rest : List Action} {completion : Completion} :
      round trace .normal → repeated round rest completion →
      repeated round (trace ++ rest) completion
  | stops {trace : List Action} {completion : Completion} :
      round trace completion → completion ≠ .normal → repeated round trace completion

/-- A loop: before each round a test, and a piece of code for when no round is left. -/
inductive loop (test body orelse : Paths) : Paths where
  | fails {trace : List Action} {completion : Completion} :
      test trace completion → completion ≠ .normal → loop test body orelse trace completion
  | exhausted {trace rest : List Action} {completion : Completion} :
      test trace .normal → orelse rest completion →
      loop test body orelse (trace ++ rest) completion
  | breaks {trace rest : List Action} :
      test trace .normal → body rest .broken → loop test body orelse (trace ++ rest) .normal
  | leaves {trace rest : List Action} {completion : Completion} :
      test trace .normal → body rest completion →
      completion = .returned ∨ completion = .raised →
      loop test body orelse (trace ++ rest) completion
  | again {trace rest later : List Action} {round completion : Completion} :
      test trace .normal → body rest round → round = .normal ∨ round = .continued →
      loop test body orelse later completion →
      loop test body orelse (trace ++ rest ++ later) completion

/-- A call of code whose exceptions may or may not come through; it may also not be called. -/
def called (body : Paths) : Paths := fun trace completion =>
  (completion = .normal ∨ completion = .raised) ∧
    ((trace = [] ∧ completion = .normal) ∨ ∃ inner, body trace inner)

/-- The body of a class: it cannot be left but by an exception. -/
def classBody (body : Paths) : Paths := fun trace completion =>
  (body trace .normal ∧ completion = .normal) ∨
    ∃ inner, body trace inner ∧ inner ≠ .normal ∧ completion = .raised

/-- Code inside a context manager, which may raise when it is left. -/
def managed (body : Paths) : Paths := fun trace completion =>
  ∃ inner, body trace inner ∧ (completion = inner ∨ completion = .raised)

/-- A `try` without its `finally`: the `else` after a normal end, a rescue after an exception. -/
inductive rescued (body orelse rescue : Paths) : Paths where
  | completes {trace rest : List Action} {completion : Completion} :
      body trace .normal → orelse rest completion →
      rescued body orelse rescue (trace ++ rest) completion
  | rescues {trace rest : List Action} {completion : Completion} :
      body trace .raised → rescue rest completion →
      rescued body orelse rescue (trace ++ rest) completion
  | leaves {trace : List Action} {completion : Completion} :
      body trace completion → completion ≠ .normal → completion ≠ .raised →
      rescued body orelse rescue trace completion

/-- A `finally` runs on every way out; if it does not end normally its own way out counts. -/
inductive finished (inner final : Paths) : Paths where
  | resumes {trace rest : List Action} {completion : Completion} :
      inner trace completion → final rest .normal → finished inner final (trace ++ rest) completion
  | overrides {trace rest : List Action} {pending completion : Completion} :
      inner trace pending → final rest completion → completion ≠ .normal →
      finished inner final (trace ++ rest) completion

/-- Handlers are tried in order: the test of one, then its body or the handlers after it. -/
def dispatch : List (Paths × Paths) → Paths
  | [] => stop .raised
  | (test, body) :: rest => test.andThen (body.either (dispatch rest))

/-- Code that ends normally. -/
def completed (body : Paths) : Paths := fun trace completion =>
  body trace .normal ∧ completion = .normal

/-- Code that does not end normally, its way out being kept for later. -/
def absorbed (body : Paths) : Paths := fun trace completion =>
  (∃ inner, body trace inner ∧ inner ≠ .normal) ∧ completion = .normal

/-- Handlers of exception groups: any of them may run, and what they raise is raised at the end.
The flags say whether a handler has run and whether one has failed. -/
def dispatchGroup : Bool → Bool → List (Paths × Paths) → Paths
  | true, false, [] => attempt
  | _, _, [] => stop .raised
  | handled, failed, (test, body) :: rest =>
      test.andThen
        ((dispatchGroup handled failed rest).either
          ((body.completed.andThen (dispatchGroup true failed rest)).either
            (body.absorbed.andThen (dispatchGroup true true rest))))

/-- A match that fails: some of what a successful match does may have happened. -/
def failed (pattern : Paths) : Paths := fun trace completion =>
  (completion = .normal ∨ completion = .raised) ∧
    ∃ whole inner, pattern whole inner ∧ List.Sublist trace whole

/-- The arms of a `match`, tried in order: pattern, guard, body. -/
def select : List (Paths × Paths × Paths) → Paths
  | [] => done
  | (pattern, guard, body) :: rest =>
      either ((failed pattern).andThen (select rest))
        (pattern.andThen (guard.andThen (body.either (select rest))))

end Paths

namespace Frame

open Paths

/-- The occurrence of a name.  Deleting a name reads it. -/
def touches (frame : Frame) (node : Node) (context : Context) : Paths :=
  match frame.occurrence node, context with
  | none, _ => done
  | some symbol, .load | some symbol, .del => act (.reads symbol)
  | some symbol, .store => act (.writes symbol)

/-- The binding of a name by a construct other than a name occurrence. -/
def binds (frame : Frame) (node : Node) (name : String) : Paths :=
  match frame.capture node name with
  | some symbol => act (.writes symbol)
  | none => done

mutual

/-- The paths of the evaluation of an expression, a target or a part of one. -/
def evaluates (frame : Frame) : Node → Paths
  | .mk form info children =>
      andThen
        (match form with
        | .name id context => frame.touches (.mk (.name id context) info children) context
        | .namedExpr =>
            (inOrder (evaluatesRole frame .value children)).andThen
              (inOrder (evaluatesRole frame .target children))
        | .lambda =>
            (inOrder (evaluatesDefaults frame children)).andThen
              (called (inOrder (evaluatesRole frame .result children)))
        | .comprehension _ =>
            evaluatesClauses frame
              ((inOrder (evaluatesRole frame .key children)).andThen
                ((inOrder (evaluatesRole frame .value children)).andThen
                  (inOrder (evaluatesRole frame .element children))))
              children
        | .boolOp => shortCircuit (evaluatesRole frame .operand children)
        | .compare =>
            (inOrder (evaluatesRole frame .left children)).andThen
              (shortCircuit (evaluatesRole frame .right children))
        | .ifExp =>
            (inOrder (evaluatesRole frame .test children)).andThen
              (either (inOrder (evaluatesRole frame .result children))
                (inOrder (evaluatesRole frame .alternative children)))
        | .dict => inSomeOrder (evaluatesEach frame children)
        | .call =>
            (inOrder (evaluatesRole frame .callee children)).andThen
              (inSomeOrder (evaluatesRole frame .argument children ++
                evaluatesRole frame .keyword children))
        | _ => inOrder (evaluatesEach frame children))
        attempt

def evaluatesEach (frame : Frame) : List Node → List Paths
  | [] => []
  | node :: rest => evaluates frame node :: evaluatesEach frame rest

def evaluatesRole (frame : Frame) (role : Role) : List Node → List Paths
  | [] => []
  | node :: rest =>
      if node.role = role then evaluates frame node :: evaluatesRole frame role rest
      else evaluatesRole frame role rest

/-- The paths of each default in the parameter lists among the nodes of a list. -/
def evaluatesDefaults (frame : Frame) : List Node → List Paths
  | [] => []
  | .mk _ info parts :: rest =>
      if info.role = .parameters then
        evaluatesRole frame .default parts ++ evaluatesRole frame .keywordDefault parts ++
          evaluatesDefaults frame rest
      else evaluatesDefaults frame rest

/-- The paths of the clauses of a comprehension around its innermost part. -/
def evaluatesClauses (frame : Frame) (inner : Paths) : List Node → Paths
  | [] => inner
  | .mk _ info parts :: rest =>
      if info.role = .clause then
        (inOrder (evaluatesRole frame .iterable parts)).andThen
          (repeated
            ((inOrder (evaluatesRole frame .target parts)).andThen
              (behind (evaluatesRole frame .condition parts) (evaluatesClauses frame inner rest))))
      else evaluatesClauses frame inner rest

end

/-- The expressions that one node of a pattern evaluates: values, classes and keys. -/
def valuesAt (frame : Frame) (node : Node) : List Paths :=
  match node.form with
  | .matchValue => evaluatesRole frame .value node.children
  | .matchClass _ => evaluatesRole frame .matchedClass node.children
  | .matchMapping _ => evaluatesRole frame .key node.children
  | _ => []

/-- The name that one node of a pattern binds, if it does. -/
def namesAt (frame : Frame) (node : Node) : List Paths :=
  match node.form with
  | .matchAs (some name) | .matchStar (some name) | .matchMapping (some name) =>
      if name.isEmpty then [] else [frame.binds node name]
  | _ => []

def patternValues (frame : Frame) (pattern : Node) : List Paths :=
  pattern.walk.flatMap frame.valuesAt

def patternNames (frame : Frame) (pattern : Node) : List Paths :=
  pattern.walk.flatMap frame.namesAt

/-- A successful match evaluates the expressions of the pattern and then binds its names.
Alternatives bind the same names, so all names of the pattern are bound. -/
def matchesPatterns (frame : Frame) (parts : List Node) : Paths :=
  inOrder ((parts.filter (fun part => part.role = .pattern)).map fun pattern =>
    (inOrder (frame.patternValues pattern)).andThen (inOrder (frame.patternNames pattern)))

def bindsHandler (frame : Frame) (handler : Node) : Paths :=
  match handler.form with
  | .handler (some name) _ => if name.isEmpty then done else frame.binds handler name
  | _ => done

/-- The names that an import statement binds; each import may raise. -/
def imports (frame : Frame) (items : List Node) : Paths :=
  inOrder (items.map fun item =>
    match item.form with
    | .alias name asName =>
        if name = "*" then attempt
        else attempt.andThen (frame.binds item (importedName name asName))
    | _ => done)

/-- An augmented assignment: a plain name is read, then written. -/
def augments (frame : Frame) (children : List Node) : Paths :=
  match children.find? (fun child => child.role = .target) with
  | some target =>
      match target.form with
      | .name _ _ =>
          match frame.occurrence target with
          | some symbol =>
              (act (.reads symbol)).andThen
                ((inOrder (frame.evaluatesRole .value children)).andThen
                  (attempt.andThen (act (.writes symbol))))
          | none => (inOrder (frame.evaluatesRole .value children)).andThen attempt
      | _ =>
          (inOrder (frame.evaluatesRole .target children)).andThen
            ((inOrder (frame.evaluatesRole .value children)).andThen attempt)
  | none => inOrder (frame.evaluatesRole .value children)

/-- An annotated assignment.  Without a value a plain name is left alone. -/
def annotates (frame : Frame) (children : List Node) : Paths :=
  if children.any (fun child => child.role = .value) then
    (inOrder (frame.evaluatesRole .value children)).andThen
      (inOrder (frame.evaluatesRole .target children))
  else if children.any (fun child => child.role = .target && child.identifier?.isSome) then done
  else inOrder (frame.evaluatesRole .target children)

mutual

/-- The paths of a statement. -/
def executes (frame : Frame) : Node → Paths
  | .mk form info children =>
      (act (.begins info.id)).andThen (andThen
        (match form with
        | .functionDef isAsync name returns =>
            (inOrder (frame.evaluatesRole .decorator children)).andThen
              ((inOrder (frame.evaluatesDefaults children)).andThen
                ((called (executesRole frame .body children)).andThen
                  (frame.binds (.mk (.functionDef isAsync name returns) info children) name)))
        | .classDef name =>
            (inOrder (frame.evaluatesRole .decorator children)).andThen
              ((inOrder (frame.evaluatesRole .base children)).andThen
                ((inOrder (frame.evaluatesRole .keyword children)).andThen
                  ((classBody (executesRole frame .body children)).andThen
                    (frame.binds (.mk (.classDef name) info children) name))))
        | .assign =>
            (inOrder (frame.evaluatesRole .value children)).andThen
              (inOrder (frame.evaluatesRole .target children))
        | .annAssign _ => frame.annotates children
        | .augAssign => frame.augments children
        | .returnStmt => (inOrder (frame.evaluatesEach children)).andThen (stop .returned)
        | .raiseStmt => (inOrder (frame.evaluatesEach children)).andThen (stop .raised)
        | .breakStmt => stop .broken
        | .continueStmt => stop .continued
        | .assertStmt =>
            (inOrder (frame.evaluatesRole .test children)).andThen
              (optional ((inOrder (frame.evaluatesRole .message children)).andThen
                (stop .raised)))
        | .ifStmt =>
            (inOrder (frame.evaluatesRole .test children)).andThen
              (either (executesRole frame .body children) (executesRole frame .orelse children))
        | .forLoop _ =>
            (inOrder (frame.evaluatesRole .iterable children)).andThen
              (loop attempt
                ((inOrder (frame.evaluatesRole .target children)).andThen
                  (executesRole frame .body children))
                (executesRole frame .orelse children))
        | .whileLoop =>
            loop (inOrder (frame.evaluatesRole .test children)) (executesRole frame .body children)
              (executesRole frame .orelse children)
        | .withStmt _ =>
            (inOrder (frame.evaluatesRole .item children)).andThen
              (managed (executesRole frame .body children))
        | .tryStmt isGroup =>
            finished
              (rescued (executesRole frame .body children) (executesRole frame .orelse children)
                (if isGroup then dispatchGroup false false (handlerPaths frame children)
                 else dispatch (handlerPaths frame children)))
              (executesRole frame .finalbody children)
        | .matchStmt =>
            (inOrder (frame.evaluatesRole .subject children)).andThen
              (select (armPaths frame children))
        | .importStmt | .importFrom _ _ => frame.imports children
        | _ => inOrder (frame.evaluatesEach children))
        (act (.ends info.id)))

def executesRole (frame : Frame) (role : Role) : List Node → Paths
  | [] => done
  | node :: rest =>
      if node.role = role then (executes frame node).andThen (executesRole frame role rest)
      else executesRole frame role rest

/-- The tests and the bodies of the exception handlers among the nodes of a list. -/
def handlerPaths (frame : Frame) : List Node → List (Paths × Paths)
  | [] => []
  | .mk form info parts :: rest =>
      if info.role = .handler then
        (inOrder (frame.evaluatesRole .caught parts),
          (frame.bindsHandler (.mk form info parts)).andThen (executesRole frame .body parts)) ::
          handlerPaths frame rest
      else handlerPaths frame rest

/-- The patterns, guards and bodies of the arms of a `match` among the nodes of a list. -/
def armPaths (frame : Frame) : List Node → List (Paths × Paths × Paths)
  | [] => []
  | .mk _ info parts :: rest =>
      if info.role = .arm then
        (frame.matchesPatterns parts, inOrder (frame.evaluatesRole .guard parts),
          executesRole frame .body parts) :: armPaths frame rest
      else armPaths frame rest

end

/-- The paths of statements one after the other. -/
def runs (frame : Frame) (statements : List Node) : Paths :=
  inOrder (statements.map frame.executes)

end Frame

end SafeRefactor
