import SafeRefactor.Program.ModuleName
import SafeRefactor.Table
import SafeRefactor.Text.Lines
import SafeRefactor.Text.NameList

/-!
# Discovery of source files

Which files of a directory tree are source files, in the order of their path parts,
and the texts that they hold.  Directories of tools and very large files are passed
over, and so are files whose bytes are not valid text.
-/

namespace SafeRefactor

namespace Discovery

/-- A directory or a file below the root, at a path with slashes.  A file takes the place of an
earlier one at the same path. -/
inductive Entry where
  | directory (path : String)
  | file (path : String) (content : ByteArray)

/-- A file: the parts of its path and its bytes. -/
structure SourceFile where
  parts : List String
  content : ByteArray

/-- Directories that hold no sources of the program. -/
def skippedNames : List String :=
  [".git", "__pycache__", "node_modules", "venv", ".venv", "env", ".tox", ".mypy_cache",
   ".pytest_cache", ".ruff_cache", "dist", "build", ".eggs", ".nox", ".ipynb_checkpoints"]

/-- The size in bytes above which a file is passed over. -/
def sizeLimit : Nat :=
  2 * 1024 * 1024

/-- Whether a part of a path keeps a file from being a source file. -/
def isSkipped (part : String) : Bool :=
  skippedNames.contains part || Text.endsWith part ".egg-info"

/-- The parts of a path from the root on, below the parts `above`; none when the path leaves the
root. -/
def resolveParts (above : List String) : List String → Option (List String)
  | [] => some above
  | part :: rest =>
      if part.isEmpty || part = "." then resolveParts above rest
      else if part = ".." then
        if above.isEmpty then none else resolveParts above.dropLast rest
      else resolveParts (above ++ [part]) rest

def SourceFile.path (file : SourceFile) : String :=
  Text.join "/" file.parts

/-- The file that an entry is, if it is one below the root. -/
def file? : Entry → Option SourceFile
  | .directory _ => none
  | .file path content =>
      (resolveParts [] (Text.split '/' path)).map fun parts => { parts, content }

/-- The files among entries; of two at one path the later one counts. -/
def files (entries : List Entry) : List SourceFile :=
  (Table.ofList ((entries.filterMap file?).map fun file => (file.path, file))).values

def SourceFile.isSource (file : SourceFile) : Bool :=
  file.parts.getLast?.any (fun name => Text.endsWith name ".py") && !file.parts.any isSkipped &&
    file.content.size ≤ sizeLimit

/-- Paths are ordered part by part. -/
def partsBefore : List String → List String → Bool
  | [], [] => false
  | [], _ :: _ => true
  | _ :: _, [] => false
  | first :: rest, second :: others =>
      first < second || (first = second && partsBefore rest others)

def sourceFiles (entries : List Entry) : List SourceFile :=
  ((files entries).filter SourceFile.isSource).mergeSort
    (fun first second => !partsBefore second.parts first.parts)

/-- The text of a source file with plain line ends, unless its bytes are not valid text. -/
def SourceFile.text? (file : SourceFile) : Option String :=
  (String.fromUTF8? file.content).map fun text =>
    String.ofList (Text.normalizeNewlines text.toList)

/-- The texts of the source files among entries by path, in the order of the paths. -/
def sources (entries : List Entry) : List (String × String) :=
  let table :=
    Table.ofList
      ((sourceFiles entries).filterMap fun file =>
        file.text?.map fun text => (Text.replaceChar '\\' '/' file.path, text))
  (Text.sortedNames table.keys).filterMap fun path =>
    (table.get? path).map fun text => (path, text)

end Discovery

end SafeRefactor
