import SafeRefactor.Program.Diagnostic

/-!
# Validation of an edit

An edit replaces one unit of a program.  It is valid when it adds no error: errors
that the program had before are not held against it.
-/

namespace SafeRefactor

inductive ValidationFailure where
  | notFound
  | semanticRegression
  | analysisFailure
deriving DecidableEq, Repr

def ValidationFailure.label : ValidationFailure → String
  | .notFound => "not_found"
  | .semanticRegression => "semantic_regression"
  | .analysisFailure => "analysis_failure"

/-- The verdict on an edit. -/
structure Validation where
  errors : List String := []
  warnings : List String := []
  failure : Option ValidationFailure := none
deriving DecidableEq, Repr

namespace Validation

def isValid (validation : Validation) : Bool :=
  validation.errors.isEmpty

/-- The verdict when the findings before and after the edit are known. -/
def compare (before after : List Diagnostic) : Validation :=
  let baseline := before.filter Diagnostic.isError
  let added := after.filter (fun found => found.isError && !baseline.contains found)
  { errors := added.map Diagnostic.render
    warnings := (after.filter (fun found => !found.isError)).map Diagnostic.render
    failure := if added.isEmpty then none else some .semanticRegression }

/-- The verdict when the findings cannot be computed. -/
def ofFault (fault : Fault) : Validation :=
  { errors := ["Validation error: " ++ fault.message], failure := some .analysisFailure }

end Validation

/-- The verdict on replacing the unit of a program at the path of the given one. -/
def Snapshot.validate (snapshot : Snapshot) (settings : Settings) (signal : CancelSignal)
    (modified : SourceUnit) : Validation :=
  if snapshot.contains modified.path then
    match snapshot.diagnostics settings signal with
    | .error fault => .ofFault fault
    | .ok (before, asked) =>
        match (snapshot.withUnit modified).diagnostics settings asked with
        | .error fault => .ofFault fault
        | .ok (after, _) => .compare before after
  else
    { errors := ["Document '" ++ modified.path ++ "' not found in the original program"]
      failure := some .notFound }

end SafeRefactor
