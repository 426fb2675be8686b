import SafeRefactor.Tree.Form
import SafeRefactor.Tree.Position

/-!
# Nodes

A module is a tree of nodes.  Each node knows its form, the role it plays in its
parent, its source span and a number that identifies it in its tree.  Children
stand in grammar order.  `Node.walk` lists a tree level by level and `Node.path`
gives the way from the root to a node.
-/

namespace SafeRefactor

/-- The number that identifies a node in its tree. -/
abbrev NodeId := Nat

/-- What a node is besides its form and its children. -/
structure Info where
  id : NodeId := 0
  role : Role := .root
  span : Option Span := none
deriving Repr

/-- A construct with its constituents in grammar order. -/
inductive Node where
  | mk (form : Form) (info : Info) (children : List Node)

namespace Node

def form : Node → Form
  | .mk form _ _ => form

/-- Identity, role and span. -/
def info : Node → Info
  | .mk _ info _ => info

def children : Node → List Node
  | .mk _ _ children => children

instance : Inhabited Node := ⟨.mk .module {} []⟩

def id (node : Node) : NodeId :=
  node.info.id

def role (node : Node) : Role :=
  node.info.role

def span (node : Node) : Option Span :=
  node.info.span

/-- Where the construct starts; constructs without a span start at the origin. -/
def start (node : Node) : Position :=
  match node.span with
  | some span => span.start
  | none => ⟨0, 0⟩

/-- The constituents that play a given role, in order. -/
def field (node : Node) (role : Role) : List Node :=
  node.children.filter (fun child => child.role = role)

/-- The first constituent that plays a given role. -/
def only? (node : Node) (role : Role) : Option Node :=
  node.children.find? (fun child => child.role = role)

def isStatement (node : Node) : Bool :=
  node.form.isStatement

mutual

def size : Node → Nat
  | .mk _ _ children => sizeList children + 1

def sizeList : List Node → Nat
  | [] => 0
  | node :: rest => node.size + sizeList rest

end

/-- Puts two lists of levels side by side. -/
def joinLevels : List (List Node) → List (List Node) → List (List Node)
  | [], right => right
  | left, [] => left
  | first :: left, second :: right => (first ++ second) :: joinLevels left right

mutual

/-- The nodes of a tree by depth. -/
def levels : Node → List (List Node)
  | .mk form info children => [.mk form info children] :: levelsList children

def levelsList : List Node → List (List Node)
  | [] => []
  | node :: rest => joinLevels node.levels (levelsList rest)

end

/-- All nodes of a tree, breadth first, the root first. -/
def walk (node : Node) : List Node :=
  node.levels.flatten

mutual

/-- All nodes of a tree in preorder. -/
def nodes : Node → List Node
  | .mk form info children => .mk form info children :: nodesList children

def nodesList : List Node → List Node
  | [] => []
  | node :: rest => node.nodes ++ nodesList rest

end

def ids (node : Node) : List NodeId :=
  node.nodes.map id

/-- Each node of the tree has a number of its own. -/
def Distinct (node : Node) : Prop :=
  node.ids.Nodup

mutual

/-- The nodes from the root of a tree down to the node with a given number, both included. -/
def path (wanted : NodeId) : Node → Option (List Node)
  | .mk form info children =>
      if info.id = wanted then some [.mk form info children]
      else (pathList wanted children).map (.mk form info children :: ·)

/-- The way to the node with a given number from the first tree of a list that has it. -/
def pathList (wanted : NodeId) : List Node → Option (List Node)
  | [] => none
  | node :: rest => (node.path wanted).or (pathList wanted rest)

end

/-- The node with a given number and the nodes around it, innermost first. -/
def lineage (root : Node) (wanted : NodeId) : List Node :=
  ((root.path wanted).getD []).reverse

/-- The nodes around the node with a given number, innermost first. -/
def ancestors (root : Node) (wanted : NodeId) : List Node :=
  (root.lineage wanted).drop 1

/-- The node directly around the node with a given number. -/
def parent? (root : Node) (wanted : NodeId) : Option Node :=
  (root.ancestors wanted).head?

/-- Whether the node is a plain name with the given identifier. -/
def isNamed (node : Node) (wanted : String) : Bool :=
  match node.form with
  | .name id _ => id = wanted
  | _ => false

/-- The identifier of a plain name. -/
def identifier? (node : Node) : Option String :=
  match node.form with
  | .name id _ => some id
  | _ => none

/-- The last component of a plain or dotted name. -/
def lastName? (node : Node) : Option String :=
  match node.form with
  | .name id _ => some id
  | .attribute name _ => some name
  | _ => none

end Node

end SafeRefactor
