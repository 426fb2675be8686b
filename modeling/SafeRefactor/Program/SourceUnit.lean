import SafeRefactor.Program.ModuleName
import SafeRefactor.Scope.Model

/-!
# Source units

A unit is the source text at a path together with what the parser and the compiler
make of it: a tree, a tree that the compiler rejects, an error of the parser, or
nothing at all when the text cannot be given to the parser.
-/

namespace SafeRefactor

/-- An error of the parser or the compiler. -/
structure ParseFault where
  message : String
  line : Option Int := none
  offset : Option Int := none
deriving DecidableEq, Repr

/-- What is made of a source text. -/
inductive Content where
  /-- The text parses; the compiler may still reject the tree. -/
  | parsed (tree : Node) (compileFault : Option ParseFault)
  /-- The parser rejects the text. -/
  | rejected (fault : ParseFault)
  /-- The text cannot be given to the parser. -/
  | unreadable (kind reason : String)

/-- The source text at a path.  Units with one stamp are one and the same. -/
structure SourceUnit where
  path : String
  source : String
  content : Content
  stamp : Nat := 0

namespace SourceUnit

/-- The tree of a unit, absent when the parser rejects its text. -/
def tree? (unit : SourceUnit) : Except Fault (Option Node) :=
  match unit.content with
  | .parsed tree _ => .ok (some tree)
  | .rejected _ => .ok none
  | .unreadable kind reason => .error (.unreadable kind reason)

/-- The semantic model of a unit, absent when the parser rejects its text. -/
def model? (unit : SourceUnit) : Except Fault (Option Model) :=
  match unit.content with
  | .parsed tree _ => (Model.build unit.path tree).map some
  | .rejected _ => .ok none
  | .unreadable kind reason => .error (.unreadable kind reason)

/-- The dotted name under which the unit is imported. -/
def moduleName (unit : SourceUnit) : String :=
  SafeRefactor.moduleName unit.path

end SourceUnit

end SafeRefactor
