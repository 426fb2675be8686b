import SafeRefactor.Flow.Track

/-!
# What follows a region

The continuation of a statement is followed outwards: the rest of its statement
list, then the rest of the list around that, up to the end of the function.  A
loop around the statement is entered once more.  An enclosing `try` adds its
handlers, its `else` and its `finally` as the place of the statement in it asks.
-/

namespace SafeRefactor

namespace Track

/-- Follows the bodies of the handlers among the nodes of a list, each on a copy of the assigned
set. -/
def visitHandlerBodies (frame : Frame) (handlers : List Node) (track : Track) : Track :=
  handlers.foldl
    (fun track handler =>
      (track.executeRole frame .body handler.children).track.within track.assigned)
    track

/-- Follows the next round of the loop around a statement of its body, then the loop's `else`. -/
def nextRound (frame : Frame) (loop : Node) (track : Track) : Track :=
  let tested :=
    match loop.form with
    | .whileLoop => track.evaluateRole frame .test loop.children
    | _ => track
  let round := (tested.executeRole frame .body loop.children).track.within track.assigned
  (round.executeRole frame .orelse loop.children).track

/-- Follows what a `try` does after the given statement list of it has ended. -/
def afterTried (frame : Frame) (role : Role) (statement : Node) (track : Track) : Track :=
  let completed :=
    if role = .body then
      ((track.visitHandlerBodies frame (statement.field .handler)).executeRole frame .orelse
        statement.children).track
    else track
  if role = .body || role = .orelse then
    (completed.executeRole frame .finalbody statement.children).track
  else completed

def endsFunction (node : Node) : Bool :=
  match node.form with
  | .returnStmt | .raiseStmt => true
  | _ => false

/-- Follows what comes after a node inside its parent; also whether the way outwards goes on. -/
def leaveInto (frame : Frame) (node parent : Node) (track : Track) : Outcome :=
  if parent.form.isTry && node.role = .handler then
    .next (track.executeRole frame .finalbody parent.children).track
  else if node.role.isBlock then
    let rest := ((parent.field node.role).dropWhile (fun other => other.id != node.id)).drop 1
    let outcome := track.executeRole frame node.role rest
    if !outcome.falls && rest.any endsFunction then .leave outcome.track
    else
      let followed :=
        if parent.form.isLoop && node.role = .body then outcome.track.nextRound frame parent
        else if parent.form.isTry then outcome.track.afterTried frame node.role parent
        else outcome.track
      ⟨followed, !parent.form.isBarrier⟩
  else ⟨track, !parent.form.isBarrier⟩

/-- Follows the continuation of the first node of a list that leads from it outwards. -/
def continueFrom (frame : Frame) : List Node → Track → Track
  | node :: parent :: rest, track =>
      let outcome := track.leaveInto frame node parent
      if outcome.falls then continueFrom frame (parent :: rest) outcome.track else outcome.track
  | _, track => track

end Track

end SafeRefactor
