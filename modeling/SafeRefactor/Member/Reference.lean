import SafeRefactor.Member.Inventory
import SafeRefactor.Program.Snapshot

/-!
# References to a member

Receivers have no static types, so every attribute access of a member's name
anywhere in the program may refer to it, and so may the name as a literal in a
reflective call.  In the body of the declaring class the bare name does too.
-/

namespace SafeRefactor

namespace Reference

/-- Functions that access an attribute by name. -/
def reflectionNames : List String :=
  ["getattr", "setattr", "hasattr", "delattr"]

/-- The literal name that a reflective call accesses, with its node. -/
def reflected? (node : Node) : Option (String × Node) :=
  match node.form with
  | .call =>
      if ((node.only? .callee).bind Node.identifier?).any reflectionNames.contains then
        match node.field .argument with
        | _ :: second :: _ =>
            match second.form with
            | .constant .str text => some (text, second)
            | _ => none
        | _ => none
      else none
  | _ => none

/-- The span of a node; the origin for a node without one. -/
def spanOf (node : Node) : Span :=
  node.span.getD ⟨node.start, node.start⟩

/-- Where a node accesses an attribute of the given name. -/
def attributeSpan? (name : String) (node : Node) : Option Span :=
  match node.form with
  | .attribute other _ => if other = name then some (node.attributeNameSpan name) else none
  | _ =>
      match reflected? node with
      | some (other, literal) => if other = name then some (spanOf literal) else none
      | none => none

/-- Where a tree accesses attributes of the given name. -/
def attributeSpans (tree : Node) (name : String) : List Span :=
  tree.walk.filterMap (attributeSpan? name)

/-- The name in the decorator of an accessor whose function has that very name: it continues a
property and does not use it. -/
def accessorName? (function : String) (decorator : Node) : Option Node :=
  match decorator.form with
  | .attribute accessor _ =>
      if Node.accessorNames.contains accessor then
        (decorator.only? .value).filter (fun object => object.isNamed function)
      else none
  | _ => none

/-- The names in accessor decorators of a tree that continue a property. -/
def accessorNames (tree : Node) : List NodeId :=
  tree.walk.flatMap fun node =>
    match node.form with
    | .functionDef _ name _ =>
        (node.field .decorator).filterMap
          (fun decorator => (accessorName? name decorator).map Node.id)
    | _ => []

/-- Where the bodies of the classes of a given name mention a bare name. -/
def classBodySpans (model : Model) (className name : String) : List Span :=
  let accessors := accessorNames model.tree
  model.scopes.flatMap fun scope =>
    if scope.name = className && scope.node.form.isClass then
      (scope.node.walk.filter fun node =>
        !accessors.contains node.id && node.isNamed name &&
          (model.scopeOf node).key = scope.key).map spanOf
    else []

/-- Where a unit may refer to a member that the unit at `path` declares. -/
def inUnit (member : Member) (path : String) (unit : SourceUnit) : Except Fault (List Location) :=
  match unit.content with
  | .unreadable kind reason => .error (.unreadable kind reason)
  | .rejected _ => .ok []
  | .parsed tree _ =>
      let attributes := attributeSpans tree member.name
      if unit.path = path then
        match Model.build unit.path tree with
        | .error fault => .error fault
        | .ok model =>
            .ok ((attributes ++ classBodySpans model member.className member.name).map
              (Location.mk unit.path))
      else .ok (attributes.map (Location.mk unit.path))

/-- Where a list of units may refer to a member that the unit at `path` declares. -/
def inUnits (member : Member) (path : String) : List SourceUnit → Except Fault (List Location)
  | [] => .ok []
  | unit :: rest =>
      match inUnit member path unit with
      | .error fault => .error fault
      | .ok found =>
          match inUnits member path rest with
          | .error fault => .error fault
          | .ok others => .ok (found ++ others)

/-- Inserts a location into an increasing list, unless it is there. -/
def insertLocation (location : Location) : List Location → List Location
  | [] => [location]
  | first :: rest =>
      if location.before first then location :: first :: rest
      else if location = first then first :: rest
      else first :: insertLocation location rest

/-- Where a member is declared. -/
def declaration (member : Member) (path : String) : Location :=
  ⟨path, member.span⟩

/-- The declaration of a member and every place of the program that may refer to it, in order. -/
def find (snapshot : Snapshot) (member : Member) (path : String) :
    Except Fault (List Location) :=
  match inUnits member path snapshot.units with
  | .error fault => .error fault
  | .ok found => .ok ((declaration member path :: found).foldr insertLocation [])

end Reference

end SafeRefactor
