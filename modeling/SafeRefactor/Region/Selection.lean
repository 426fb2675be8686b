import SafeRefactor.Fault
import SafeRefactor.Text.Blank
import SafeRefactor.Text.Digit
import SafeRefactor.Tree.Node

/-!
# Selections

A selection is written `startLine:startColumn-endLine:endColumn`, all counted from
one, with blanks allowed around it.  It stands for the statements of the innermost
statement list that cover the selected text.
-/

namespace SafeRefactor

namespace Selection

/-- A leading numeral and what follows it. -/
def numeral? (text : List Char) : Option (List Char × List Char) :=
  match text.takeWhile Text.isDigit with
  | [] => none
  | digits => some (digits, text.dropWhile Text.isDigit)

/-- What follows a leading character. -/
def after? (c : Char) : List Char → Option (List Char)
  | [] => none
  | first :: rest => if first = c then some rest else none

/-- The four numerals of a selection range. -/
structure Numerals where
  startLine : List Char
  startColumn : List Char
  stopLine : List Char
  stopColumn : List Char

/-- Reads `A:B-C:D` between blanks, where the letters are numerals. -/
def numerals? (text : List Char) : Option Numerals := do
  let (startLine, text) ← numeral? (text.dropWhile Text.isBlank)
  let text ← after? ':' text
  let (startColumn, text) ← numeral? text
  let text ← after? '-' text
  let (stopLine, text) ← numeral? text
  let text ← after? ':' text
  let (stopColumn, text) ← numeral? text
  if text.all Text.isBlank then some { startLine, startColumn, stopLine, stopColumn } else none

/-- The four numerals in the order in which they are written. -/
def Numerals.toList (numerals : Numerals) : List (List Char) :=
  [numerals.startLine, numerals.startColumn, numerals.stopLine, numerals.stopColumn]

/-- The span that four numerals denote, with columns from zero.  All numbers are at least one,
and the span does not stop before it starts. -/
def Numerals.span? (numerals : Numerals) : Option Span :=
  let startLine := Text.numeralValue numerals.startLine
  let startColumn := Text.numeralValue numerals.startColumn
  let stopLine := Text.numeralValue numerals.stopLine
  let stopColumn := Text.numeralValue numerals.stopColumn
  if startLine < 1 || startColumn < 1 || stopLine < 1 || stopColumn < 1 then none
  else
    let start : Position := ⟨startLine, (startColumn : Int) - 1⟩
    let stop : Position := ⟨stopLine, (stopColumn : Int) - 1⟩
    if stop < start then none else some ⟨start, stop⟩

/-- The span that a selection range denotes. -/
def parse (text : String) : Except Fault Span :=
  match numerals? text.toList with
  | none => .error (.selection text)
  | some numerals =>
      match numerals.toList.find? (fun digits => numeralLimit < digits.length) with
      | some digits => .error (.numeralTooLong digits.length)
      | none =>
          match numerals.span? with
          | some span => .ok span
          | none => .error (.selection text)

/-- Whether a statement with the first span shares text with a selection; an empty selection is a
point that the statement may also border on. -/
def touches (statement selection : Span) : Bool :=
  if selection.isEmpty then
    statement.start ≤ selection.start && selection.start ≤ statement.stop
  else statement.intersects selection

/-- Whether a selection touches a node. -/
def hits (selection : Span) (node : Node) : Bool :=
  match node.span with
  | some span => touches span selection
  | none => false

def encloses (selection : Span) (node : Node) : Bool :=
  match node.span with
  | some span => selection.contains span
  | none => false

/-- The statements of a list in a given role that a selection touches. -/
def hitsIn (selection : Span) (role : Role) (nodes : List Node) : List Node :=
  nodes.filter (fun node => node.role = role && hits selection node)

/-- The statements to take when a list has the given hits and the only hit of it has the given
statements inside. -/
def settle (selection : Span) (found inner : List Node) : List Node :=
  match found with
  | [only] => if encloses selection only || inner.isEmpty then found else inner
  | _ => found

mutual

/-- The statements selected in the statement lists of a compound statement. -/
def inside (selection : Span) : Node → List Node
  | .mk _ _ children =>
      let body := settle selection (hitsIn selection .body children)
        (insideFirst selection .body children)
      let orelse := settle selection (hitsIn selection .orelse children)
        (insideFirst selection .orelse children)
      let finalbody := settle selection (hitsIn selection .finalbody children)
        (insideFirst selection .finalbody children)
      if !body.isEmpty then body
      else if !orelse.isEmpty then orelse
      else if !finalbody.isEmpty then finalbody
      else
        let handlers := insideBodies selection .handler children
        if !handlers.isEmpty then handlers else insideBodies selection .arm children

/-- The statements selected inside the first statement of a list that the selection touches. -/
def insideFirst (selection : Span) (role : Role) : List Node → List Node
  | [] => []
  | node :: rest =>
      if node.role = role && hits selection node then inside selection node
      else insideFirst selection role rest

/-- The statements selected in the first body, among those of handlers or arms, that has any. -/
def insideBodies (selection : Span) (role : Role) : List Node → List Node
  | [] => []
  | .mk _ info parts :: rest =>
      if info.role = role then
        let body := settle selection (hitsIn selection .body parts)
          (insideFirst selection .body parts)
        if body.isEmpty then insideBodies selection role rest else body
      else insideBodies selection role rest

end

/-- The statements of a module that a selection stands for. -/
def statements (selection : Span) (tree : Node) : List Node :=
  settle selection (hitsIn selection .body tree.children)
    (insideFirst selection .body tree.children)

end Selection

/-- A single node or a run of neighbouring statements of a unit. -/
structure Region where
  path : String
  span : Option Span := none
  nodes : List Node := []

namespace Region

def ofNode (path : String) (node : Node) : Except Fault Region :=
  match node.span with
  | some span => .ok { path, span := some span, nodes := [node] }
  | none => .error (.noPosition node.form.label)

/-- The region of a run of statements; its span goes from the first start to the last stop. -/
def ofStatements (path : String) (statements : List Node) : Except Fault Region :=
  match statements.head?, statements.getLast? with
  | some first, some last =>
      match first.span, last.span with
      | some start, some stop =>
          .ok { path, span := some ⟨start.start, stop.stop⟩, nodes := statements }
      | none, _ => .error (.noPosition first.form.label)
      | _, none => .error (.noPosition last.form.label)
  | _, _ => .ok { path }

def isEmpty (region : Region) : Bool :=
  region.nodes.isEmpty

/-- The statements among the nodes of a region. -/
def statements (region : Region) : List Node :=
  region.nodes.filter Node.isStatement

/-- The region that a selection of a module stands for. -/
def select (path : String) (tree : Node) (selection : Span) : Except Fault Region :=
  match Selection.statements selection tree with
  | [] => .error .regionNotFound
  | statements => ofStatements path statements

end Region

end SafeRefactor
