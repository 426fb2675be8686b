import SafeRefactor.Text.Pieces

/-!
# Module names

The dotted name under which other units know the unit at a path, and the module
that one of its own imports means.
-/

namespace SafeRefactor

/-- The parts of a path between separators of either kind, without empty ones and dots. -/
def pathParts (path : String) : List String :=
  (Text.split '/' (Text.replaceChar '\\' '/' path)).filter
    (fun part => !part.isEmpty && part != ".")

/-- Drops a leading source directory. -/
def dropSourceRoot : List String → List String
  | "src" :: rest => rest
  | parts => parts

/-- Drops the file ending of the last part, and the last part if it names the package itself. -/
def dropFileEnding (parts : List String) : List String :=
  match parts.getLast? with
  | none => parts
  | some last =>
      let stem := if Text.endsWith last ".py" then Text.dropEnd last 3 else last
      if stem = "__init__" then parts.dropLast else parts.dropLast ++ [stem]

def moduleParts (path : String) : List String :=
  dropFileEnding (dropSourceRoot (pathParts path))

def moduleName (path : String) : String :=
  Text.join "." (moduleParts path)

/-- Whether the unit at a path is the package itself rather than a module of it. -/
def isPackageFile (path : String) : Bool :=
  Text.endsWith path "__init__.py"

/-- The package that relative imports of the unit at a path start from. -/
def packageParts (path : String) : List String :=
  let parts := Text.split '.' (moduleName path)
  if isPackageFile path then parts else parts.dropLast

/-- The dotted module that an import of the unit at a path means.  Level zero takes the name as it
is, level one starts from the package of the unit, each further level from the package around. -/
def resolveImport (path : String) (module : Option String) (level : Int) : Option String :=
  if level = 0 then module
  else
    let package := packageParts path
    let steps := (level - 1).toNat
    if package.length < steps then none
    else
      let parts := package.take (package.length - steps) ++ module.toList
      let dotted := Text.join "." (parts.filter (fun part => !part.isEmpty))
      if dotted.isEmpty then none else some dotted

end SafeRefactor
