/-!
# Faults

Why an operation gives no answer, and the wording of each cause.
-/

namespace SafeRefactor

/-- A reason for which an operation fails. -/
inductive Fault where
  /-- The text is not a selection range. -/
  | selection (text : String)
  /-- A numeral of a selection has more digits than are read. -/
  | numeralTooLong (digits : Nat)
  /-- The selection covers no statement. -/
  | regionNotFound
  /-- The container has no class or member of that name; an empty container is not mentioned. -/
  | memberNotFound (name container : String)
  /-- The operation was cancelled. -/
  | cancelled
  /-- The source text cannot be given to the parser at all. -/
  | unreadable (kind reason : String)
  /-- An expression cannot be written out. -/
  | unprintable (reason : String)
  /-- A parameter is declared to belong to a construct that has no parameters. -/
  | noParameters (construct : String)
  /-- A construct without a place in the text is used where one is needed. -/
  | noPosition (construct : String)
  /-- A construct without a body is given as the function around a region. -/
  | noBody (construct : String)
  /-- The body of the construct given as the function around a region is this expression. -/
  | noStatementList (construct : String)
  /-- A construct other than a function is given as the code of a method. -/
  | noMethod (construct : String)
  /-- The program has no unit at the path asked for. -/
  | noUnit
  /-- A list has no entry at the place asked for: a session no snapshot of that number, a module no
  statement, a name no binding, a parameter list no word about a default. -/
  | outOfRange
  /-- No name can be made for a class without a name. -/
  | emptyClassName
deriving DecidableEq, Repr

/-- The longest numeral that is read. -/
def numeralLimit : Nat :=
  4300

namespace Fault

/-- The wording of a fault. -/
def message : Fault → String
  | .selection text =>
      "Invalid selection range '" ++ text ++
        "'. Expected 'startLine:startColumn-endLine:endColumn'"
  | .numeralTooLong digits =>
      "Exceeds the limit (" ++ toString numeralLimit ++
        " digits) for integer string conversion: value has " ++ toString digits ++
        " digits; use sys.set_int_max_str_digits() to increase the limit"
  | .regionNotFound => "Selected code does not contain extractable statements"
  | .memberNotFound name container =>
      if container.isEmpty then "'" ++ name ++ "' not found"
      else "'" ++ name ++ "' not found in '" ++ container ++ "'"
  | .cancelled => "Operation cancelled"
  | .unreadable _ reason => reason
  | .unprintable reason => reason
  | .noParameters construct => "'" ++ construct ++ "' object has no attribute 'args'"
  | .noPosition construct => "'" ++ construct ++ "' object has no attribute 'lineno'"
  | .noBody construct => "'" ++ construct ++ "' object has no attribute 'body'"
  | .noStatementList construct => "object of type '" ++ construct ++ "' has no len()"
  | .noMethod construct => "'" ++ construct ++ "' object is not iterable"
  | .noUnit => "'NoneType' object has no attribute 'path'"
  | .outOfRange => "list index out of range"
  | .emptyClassName => "target_class_name must not be empty"

end Fault

theorem exists_ok_iff {α : Type} {result : Except Fault α} :
    (∃ value, result = .ok value) ↔ result.isOk = true := by
  cases result with
  | error => exact ⟨nofun, nofun⟩
  | ok value => exact ⟨fun _ => rfl, fun _ => ⟨value, rfl⟩⟩

end SafeRefactor
