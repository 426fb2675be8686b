import SafeRefactor.Fault
import SafeRefactor.Text.FirstFree
import SafeRefactor.Text.Lowercase

/-!
# Names of generated fields

The name of a private field that holds an instance of a class: an underscore and
the class name with a small first letter, numbered if that name is taken.
-/

namespace SafeRefactor

namespace AccessName

/-- An underscore and the class name with a small first letter. -/
def base (first : Char) (rest : List Char) : String :=
  String.ofList ('_' :: Text.lowerCase first ++ rest)

/-- The base name, then the base name numbered from one. -/
def candidate (base : String) (index : Nat) : String :=
  if index = 0 then base else base ++ toString index

/-- The first name for a field of the given class that does not exist yet. -/
def generate (existing : List String) (className : String) : Except Fault String :=
  match className.toList with
  | [] => .error .emptyClassName
  | first :: rest => .ok (Text.firstFree existing (candidate (base first rest)))

end AccessName

end SafeRefactor
