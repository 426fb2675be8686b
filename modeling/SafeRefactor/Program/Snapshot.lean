import SafeRefactor.Program.SourceUnit
import SafeRefactor.Text.NameList

/-!
# Program snapshots

A snapshot holds the units of a program by path.  It never changes; storing a unit
gives another snapshot.  Where several units have one module name, the one whose
path was inserted last stands for the module.
-/

namespace SafeRefactor

/-- The units of a program, each under its own path. -/
structure Snapshot where
  table : Table SourceUnit
  keyed : ∀ {path unit}, table.get? path = some unit → unit.path = path

namespace Snapshot

def empty : Snapshot where
  table := .empty
  keyed found := absurd found (Table.get?_empty_ne _ _)

theorem keyed_insert (snapshot : Snapshot) (unit : SourceUnit) {path : String}
    {found : SourceUnit} (stored : (snapshot.table.insert unit.path unit).get? path = some found) :
    found.path = path := by
  by_cases same : unit.path = path
  · subst same
    rw [Table.get?_insert_self] at stored
    rw [Option.some.inj stored]
  · rw [Table.get?_insert_of_ne _ same] at stored
    exact snapshot.keyed stored

def withUnit (snapshot : Snapshot) (unit : SourceUnit) : Snapshot :=
  ⟨snapshot.table.insert unit.path unit, snapshot.keyed_insert unit⟩

/-- The snapshot of a list of units; of two at one path the later one counts. -/
def ofUnits (units : List SourceUnit) : Snapshot :=
  units.foldl withUnit empty

/-- The same unit at the path with slashes only. -/
def slashed (unit : SourceUnit) : SourceUnit :=
  { unit with path := Text.replaceChar '\\' '/' unit.path }

/-- The snapshot of a program given by units whose paths may use either separator.  Of two units
at one path as written the later one takes the place of the earlier one; the same goes for units
at paths that agree with slashes only. -/
def ofProgram (units : List SourceUnit) : Snapshot :=
  ofUnits ((ofUnits units).table.values.map slashed)

def get? (snapshot : Snapshot) (path : String) : Option SourceUnit :=
  snapshot.table.get? path

def contains (snapshot : Snapshot) (path : String) : Bool :=
  snapshot.table.contains path

/-- The paths of the program in increasing order. -/
def paths (snapshot : Snapshot) : List String :=
  Text.sortedNames snapshot.table.keys

/-- The units of the program in the order of their paths. -/
def units (snapshot : Snapshot) : List SourceUnit :=
  snapshot.paths.filterMap snapshot.get?

def size (snapshot : Snapshot) : Nat :=
  snapshot.table.entries.length

/-- The unit that stands for a module. -/
def moduleUnit? (snapshot : Snapshot) (name : String) : Option SourceUnit :=
  (snapshot.table.values.filter (fun unit => unit.moduleName = name)).getLast?

end Snapshot

end SafeRefactor
