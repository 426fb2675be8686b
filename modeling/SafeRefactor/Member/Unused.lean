import SafeRefactor.Member.Reference

/-!
# Unused members

Members that are not public and that nothing refers to.  With a program at hand a
member is unused when the search finds nothing but its declaration.  For a single
file the occurrences of its name are counted.
-/

namespace SafeRefactor

/-- How unused members are found. -/
inductive UnusedStrategy where
  | symbolAware
  | syntactic
deriving DecidableEq, Repr

def UnusedStrategy.label : UnusedStrategy → String
  | .symbolAware => "symbol_aware"
  | .syntactic => "syntactic"

/-- A member that nothing refers to. -/
structure UnusedMember where
  name : String
  kind : MemberKind
  className : String
  file : String
  line : Int
deriving DecidableEq, Repr

namespace UnusedMember

/-- The report entry of a member of the unit at a path. -/
def ofMember (path : String) (member : Member) : UnusedMember where
  name := member.name
  kind := member.kind
  className := member.className
  file := path
  line := member.line

/-- The refactoring to apply. -/
def suggestion (member : UnusedMember) : String :=
  if member.kind = .field then "safe-delete-field" else "safe-delete-method"

def message (member : UnusedMember) : String :=
  (if member.kind = .field then "Field" else "Method") ++ " '" ++ member.name ++
    "' appears unused -> " ++ member.suggestion

end UnusedMember

/-- The unused members of a unit. -/
structure UnusedReport where
  strategy : UnusedStrategy
  file : String
  members : List UnusedMember := []
  errors : List String := []

namespace UnusedReport

def suggestions (report : UnusedReport) : List String :=
  report.members.map UnusedMember.message

/-- The members of the classes of a tree that are not public. -/
def candidates (tree : Node) : List Member :=
  (tree.walk.filter (fun node => node.form.isClass)).flatMap fun definition =>
    (Member.ofClass definition).filter (fun member => !member.isPublic)

/-- Why the members of the classes of a tree cannot be listed. -/
def listingFault? (tree : Node) : Option Fault :=
  (tree.walk.filter (fun node => node.form.isClass)).findSome? Member.fault?

/-- The name that a node mentions: an identifier other than that of an accessor decorator, an
attribute, or the literal of a reflective call. -/
def mentioned? (accessors : List NodeId) (node : Node) : Option String :=
  match node.form with
  | .name id _ => if accessors.contains node.id then none else some id
  | .attribute name _ => some name
  | _ => (Reference.reflected? node).map (·.1)

/-- How many nodes of a tree mention a name. -/
def mentions (tree : Node) (name : String) : Nat :=
  let accessors := Reference.accessorNames tree
  tree.walk.countP (fun node => mentioned? accessors node = some name)

/-- Whether the tree mentions a member nowhere; the store that declares a field does not count. -/
def isUnmentioned (tree : Node) (member : Member) : Bool :=
  mentions tree member.name ≤ (if member.kind = .field then 1 else 0)

/-- Whether a search finds nothing but the declaration of a member. -/
def isUnreferenced (path : String) (member : Member) (found : List Location) : Bool :=
  found.all (fun location => location = Reference.declaration member path)

/-- The unused members among candidates, and the errors of the searches for them. -/
def search (snapshot : Snapshot) (path : String) :
    List Member → List UnusedMember × List String
  | [] => ([], [])
  | member :: rest =>
      let (members, errors) := search snapshot path rest
      match Reference.find snapshot member path with
      | .error fault =>
          (members,
            ("Reference search failed for '" ++ member.name ++ "': " ++ fault.message) :: errors)
      | .ok found =>
          if isUnreferenced path member found then
            (UnusedMember.ofMember path member :: members, errors)
          else (members, errors)

/-- The report on a unit in which no member can be looked for. -/
def ofFault (strategy : UnusedStrategy) (path : String) (fault : Fault) : UnusedReport :=
  { strategy, file := path, errors := ["Analysis error: " ++ fault.message] }

/-- The report on a unit, given that on a tree whose members can be listed. -/
def ofContent (strategy : UnusedStrategy) (path : String) (withTree : Node → UnusedReport) :
    Content → UnusedReport
  | .parsed tree _ =>
      match listingFault? tree with
      | some fault => ofFault strategy path fault
      | none => withTree tree
  | .rejected fault =>
      { strategy, file := path, errors := ["Cannot parse " ++ path ++ ": " ++ fault.message] }
  | .unreadable kind reason => ofFault strategy path (.unreadable kind reason)

/-- The unused members of a unit, judged by its own text. -/
def syntactic (unit : SourceUnit) : UnusedReport :=
  ofContent .syntactic unit.path
    (fun tree =>
      { strategy := .syntactic
        file := unit.path
        members :=
          ((candidates tree).filter (isUnmentioned tree)).map (UnusedMember.ofMember unit.path) })
    unit.content

/-- The unused members of a unit, judged by the program with the unit in it. -/
def symbolAware (snapshot : Snapshot) (unit : SourceUnit) : UnusedReport :=
  ofContent .symbolAware unit.path
    (fun tree =>
      let (members, errors) := search (snapshot.withUnit unit) unit.path (candidates tree)
      { strategy := .symbolAware, file := unit.path, members, errors })
    unit.content

/-- The unused members of a unit, judged by a program if there is one. -/
def ofUnit (snapshot : Option Snapshot) (unit : SourceUnit) : UnusedReport :=
  match snapshot with
  | some program => symbolAware program unit
  | none => syntactic unit

end UnusedReport

end SafeRefactor
