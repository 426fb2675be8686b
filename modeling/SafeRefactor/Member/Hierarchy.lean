import SafeRefactor.Fault
import SafeRefactor.Member.Inventory
import SafeRefactor.Text.NameList

/-!
# Class hierarchies

A class and the classes of its module that it inherits from, nearest first.  A base
stands for the last class of the module that has its name.
-/

namespace SafeRefactor

namespace Node

/-- The classes of a module, breadth first. -/
def classes (module : Node) : List Node :=
  module.walk.filter (fun node => node.form.isClass)

def findClass (module : Node) (name : String) : Except Fault Node :=
  match module.classes.find? (fun definition => definition.className = name) with
  | some definition => .ok definition
  | none => .error (.memberNotFound name "")

def findMethod (definition : Node) (name : String) : Except Fault Node :=
  let found :=
    (definition.field .body).find? fun statement =>
      match statement.form with
      | .functionDef _ other _ => other = name
      | _ => false
  match found with
  | some method => .ok method
  | none => .error (.memberNotFound name definition.className)

end Node

namespace Hierarchy

/-- The class that a base of another class stands for. -/
def baseClass? (classes : List Node) (base : Node) : Option Node :=
  base.lastName?.bind fun name =>
    (classes.filter (fun definition => definition.className = name)).getLast?

def baseClasses (classes : List Node) (definition : Node) : List Node :=
  (definition.field .base).filterMap (baseClass? classes)

/-- The classes of a list other than the given one. -/
def without (remaining : List Node) (definition : Node) : List Node :=
  remaining.filter (fun other => other.id != definition.id)

theorem length_without_lt {remaining : List Node} {definition : Node}
    (found : remaining.any (fun other => other.id = definition.id) = true) :
    (without remaining definition).length < remaining.length := by
  obtain ⟨other, member, same⟩ := List.any_eq_true.mp found
  refine Nat.lt_of_le_of_ne (List.length_filter_le _ remaining) (fun unchanged => ?_)
  have kept := List.length_filter_eq_length_iff.mp unchanged other member
  simp at same kept
  exact kept same

/-- Takes classes from a queue and puts their bases at its end.  Each class of `remaining` is
listed when it is first taken; other classes are passed over. -/
def explore (classes : List Node) (remaining queue : List Node) : List Node :=
  match queue with
  | [] => []
  | definition :: rest =>
      if remaining.any (fun other => other.id = definition.id) then
        definition ::
          explore classes (without remaining definition) (rest ++ baseClasses classes definition)
      else explore classes remaining rest
termination_by (remaining.length, queue.length)
decreasing_by
  · rename_i found
    exact Prod.Lex.left _ _ (length_without_lt (by simpa using found))
  · exact Prod.Lex.right _ (by simp)

/-- A class and the classes it inherits from, breadth first; without a module the class alone. -/
def ofClass (module : Option Node) (definition : Node) : List Node :=
  match module with
  | none => [definition]
  | some tree => explore tree.classes (definition :: tree.classes) [definition]

/-- Why the members of a hierarchy cannot be listed. -/
def fault? (module : Option Node) (definition : Node) : Option Fault :=
  (ofClass module definition).findSome? Member.fault?

/-- The names of the members of a hierarchy that satisfy a condition, in increasing order. -/
def memberNames (module : Option Node) (definition : Node) (wanted : Member → Bool) :
    List String :=
  Text.sortedNames
    ((ofClass module definition).flatMap fun cls =>
      ((Member.ofClass cls).filter wanted).map Member.name)

/-- The fields and properties of a hierarchy that belong to instances. -/
def instanceMemberNames (module : Option Node) (definition : Node) : List String :=
  memberNames module definition (fun member => member.kind != .method && !member.isStatic)

def methodNames (module : Option Node) (definition : Node) : List String :=
  memberNames module definition (fun member => member.kind = .method)

end Hierarchy

end SafeRefactor
