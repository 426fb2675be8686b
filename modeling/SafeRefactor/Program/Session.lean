import SafeRefactor.Member.Hierarchy
import SafeRefactor.Member.Unused
import SafeRefactor.Program.Validation

/-!
# Editing sessions

A session keeps every snapshot that it has made and a current one.  Editing steps
add a snapshot, queries look at the current one.  Each unit that comes into a
session gets a stamp of its own, so that one can tell which snapshots share it.
-/

namespace SafeRefactor

/-- The references to the first member of a class of the program with a given name; none when
there is no such unit, tree or member. -/
def Snapshot.references (snapshot : Snapshot) (path className member : String) :
    Except Fault (Option (List Location)) :=
  match snapshot.get? path with
  | none => .ok none
  | some unit =>
      match unit.tree? with
      | .error fault => .error fault
      | .ok none => .ok none
      | .ok (some tree) =>
          match tree.findClass className with
          | .error fault => .error fault
          | .ok definition =>
              match Member.inventory definition with
              | .error fault => .error fault
              | .ok members =>
                  match members.find? (fun found => found.name = member) with
                  | none => .ok none
                  | some found => (Reference.find snapshot found path).map some

/-- All snapshots of a session, the number of the current one and the next stamp. -/
structure Session where
  snapshots : List Snapshot
  current : Nat
  nextStamp : Nat

/-- A step of a session. -/
inductive SessionStep where
  /-- Stores a unit. -/
  | withUnit (unit : SourceUnit)
  /-- Gives the unit at a path another text. -/
  | withSource (unit : SourceUnit)
  /-- Starts another program. -/
  | reset (units : List SourceUnit)
  /-- Goes back to an earlier snapshot. -/
  | checkout (number : Nat)
  /-- Looks at the unit at a path. -/
  | get (path : String)
  /-- Looks for the unit of a module. -/
  | module (name : String)
  /-- Looks at the paths of the program and asks for some. -/
  | size (paths : List String)
  | diagnostics (settings : Settings) (signal : CancelSignal)
  | validate (unit : SourceUnit) (settings : Settings) (signal : CancelSignal)
  /-- Looks for unused members of the unit at a path, with or without the program. -/
  | unused (path : String) (inProgram : Bool)
  | references (path className member : String)

/-- What is known about the unit at a path. -/
structure UnitView where
  path : String
  moduleName : String
  source : String
  isParsed : Bool
  hasModel : Bool
  isContained : Bool
  /-- For each snapshot of the session, whether it holds this very unit. -/
  shared : List Bool

/-- The answer to a step of a session. -/
inductive SessionAnswer where
  | nothing
  | moved (number : Nat) (paths : List String)
  | unit (view : UnitView)
  | path (path : String)
  | size (count : Nat) (paths units : List String) (contains : List Bool)
  | diagnostics (found : List Diagnostic)
  | validation (verdict : Validation)
  | unused (report : UnusedReport)
  | references (found : List Location)
  | failed (fault : Fault)

namespace Session

/-- Units with stamps from a given one onwards. -/
def stamped (next : Nat) : List SourceUnit → List SourceUnit
  | [] => []
  | unit :: rest => { unit with stamp := next } :: stamped (next + 1) rest

/-- A session with one program. -/
def start (units : List SourceUnit) : Session where
  snapshots := [Snapshot.ofProgram (stamped 0 units)]
  current := 0
  nextStamp := units.length

/-- The snapshot that queries look at. -/
def snapshot (session : Session) : Snapshot :=
  session.snapshots.getD session.current .empty

/-- The answer that tells where the session is. -/
def position (session : Session) : SessionAnswer :=
  .moved session.current session.snapshot.paths

/-- The session with another snapshot, which becomes the current one. -/
def push (session : Session) (snapshot : Snapshot) (used : Nat) : Session where
  snapshots := session.snapshots ++ [snapshot]
  current := session.snapshots.length
  nextStamp := session.nextStamp + used

def store (session : Session) (unit : SourceUnit) : Session :=
  session.push (session.snapshot.withUnit { unit with stamp := session.nextStamp }) 1

/-- What the session knows about the unit at a path. -/
def view (session : Session) (path : String) : SessionAnswer :=
  match session.snapshot.get? path with
  | none => .nothing
  | some unit =>
      match unit.tree?, unit.model? with
      | .error fault, _ => .failed fault
      | _, .error fault => .failed fault
      | .ok tree, .ok model =>
          .unit
            { path := unit.path
              moduleName := unit.moduleName
              source := unit.source
              isParsed := tree.isSome
              hasModel := model.isSome
              isContained := session.snapshot.contains path
              shared :=
                session.snapshots.map fun other =>
                  (other.get? path).any (fun found => found.stamp = unit.stamp) }

/-- The answer to a question that does not change the session. -/
def query (session : Session) : SessionStep → SessionAnswer
  | .get path => session.view path
  | .module name =>
      match session.snapshot.moduleUnit? name with
      | some unit => .path unit.path
      | none => .nothing
  | .size paths =>
      .size session.snapshot.size session.snapshot.paths
        (session.snapshot.units.map SourceUnit.path) (paths.map session.snapshot.contains)
  | .diagnostics settings signal =>
      match session.snapshot.diagnostics settings signal with
      | .error fault => .failed fault
      | .ok (found, _) => .diagnostics found
  | .validate unit settings signal => .validation (session.snapshot.validate settings signal unit)
  | .unused path inProgram =>
      match session.snapshot.get? path with
      | none => .failed .noUnit
      | some unit =>
          .unused (UnusedReport.ofUnit (if inProgram then some session.snapshot else none) unit)
  | .references path className member =>
      match session.snapshot.references path className member with
      | .error fault => .failed fault
      | .ok none => .nothing
      | .ok (some found) => .references found
  | _ => .nothing

def step (session : Session) : SessionStep → Session × SessionAnswer
  | .withUnit unit =>
      let next := session.store unit
      (next, next.position)
  | .withSource unit =>
      match session.snapshot.get? unit.path with
      | none => (session, .nothing)
      | some old =>
          let next := session.store { unit with path := old.path }
          (next, next.position)
  | .reset units =>
      let next :=
        session.push (Snapshot.ofUnits (stamped session.nextStamp units)) units.length
      (next, next.position)
  | .checkout number =>
      if number < session.snapshots.length then
        let next := { session with current := number }
        (next, next.position)
      else (session, .failed .outOfRange)
  | other => (session, session.query other)

/-- The answers to the steps of a session. -/
def run (session : Session) : List SessionStep → List SessionAnswer
  | [] => []
  | step :: rest =>
      let (next, answer) := session.step step
      answer :: next.run rest

end Session

end SafeRefactor
