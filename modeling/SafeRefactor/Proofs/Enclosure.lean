import Mathlib.Data.List.Chain
import SafeRefactor.Proofs.Subtree

/-!
# Enclosing constructs

Where a node occurs in a piece of code: which constructs of the code stand around it, from
the outermost one to the one whose constituent it is.  What an analysis knows of a place
when it descends to it depends on these constructs alone.
-/

namespace SafeRefactor

namespace Node

/-- The node occurs in the code inside the given constructs, which stand from the outermost one to
the innermost one. -/
inductive Occurs (node : Node) : List Node → List Node → Prop where
  | here {code : List Node} : node ∈ code → Occurs node code []
  | inside {code around : List Node} {construct : Node} :
      construct ∈ code → Occurs node construct.children around →
      Occurs node code (construct :: around)

namespace Occurs

variable {node root : Node} {code around : List Node}

theorem mono {larger : List Node} (occurs : node.Occurs code around) (included : code ⊆ larger) :
    node.Occurs larger around := by
  cases occurs with
  | here member => exact .here (included member)
  | inside member below => exact .inside (included member) below

theorem iff_exists_root :
    node.Occurs code around ↔ ∃ root ∈ code, node.Occurs [root] around := by
  constructor
  · intro occurs
    cases occurs with
    | here member => exact ⟨node, member, .here List.mem_cons_self⟩
    | inside member below => exact ⟨_, member, .inside List.mem_cons_self below⟩
  · rintro ⟨root, member, occurs⟩
    exact occurs.mono (by simpa using member)

theorem iff_root :
    node.Occurs [root] around ↔ (node = root ∧ around = []) ∨
      ∃ inner, node.Occurs root.children inner ∧ around = root :: inner := by
  constructor
  · intro occurs
    cases occurs with
    | here member => exact Or.inl ⟨List.mem_singleton.mp member, rfl⟩
    | inside member below =>
        obtain rfl := List.mem_singleton.mp member
        exact Or.inr ⟨_, below, rfl⟩
  · rintro (⟨rfl, rfl⟩ | ⟨inner, below, rfl⟩)
    · exact .here List.mem_cons_self
    · exact .inside List.mem_cons_self below

/-- The way from the root of a tree to a node in it starts with the root. -/
theorem exists_way (occurs : node.Occurs [root] around) :
    ∃ rest, around ++ [node] = root :: rest := by
  rcases iff_root.mp occurs with ⟨rfl, rfl⟩ | ⟨inner, _, rfl⟩
  · exact ⟨[], rfl⟩
  · exact ⟨inner ++ [node], rfl⟩

end Occurs

/-- On the way to a node inside the given constructs, each step from a construct to its constituent
is as required. -/
def Along (step : Node → Node → Prop) (around : List Node) (node : Node) : Prop :=
  (around ++ [node]).IsChain step

section

variable {step : Node → Node → Prop} {node outer child : Node} {around : List Node}

theorem along_nil : Along step [] node :=
  List.isChain_singleton node

theorem Occurs.along_cons (occurs : node.Occurs [child] around) :
    Along step (outer :: around) node ↔ step outer child ∧ Along step around node := by
  obtain ⟨rest, way⟩ := occurs.exists_way
  rw [Along, List.cons_append, way, List.isChain_cons_cons, ← way]
  exact Iff.rfl

end

end Node

end SafeRefactor
