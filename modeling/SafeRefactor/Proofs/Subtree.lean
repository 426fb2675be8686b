import Mathlib.Data.List.Nodup
import Mathlib.Data.List.Pairwise
import SafeRefactor.Tree.Node

/-!
# Subtrees

The nodes of a tree spoken of through membership.  In a tree with distinct numbers
a number tells its node, a node has one parent, and the subtrees of different
children have no node in common.
-/

namespace SafeRefactor

namespace Node

@[simp]
theorem form_mk (form : Form) (info : Info) (children : List Node) :
    (Node.mk form info children).form = form :=
  rfl

@[simp]
theorem children_mk (form : Form) (info : Info) (children : List Node) :
    (Node.mk form info children).children = children :=
  rfl

@[simp]
theorem id_mk (form : Form) (info : Info) (children : List Node) :
    (Node.mk form info children).id = info.id :=
  rfl

@[simp]
theorem role_mk (form : Form) (info : Info) (children : List Node) :
    (Node.mk form info children).role = info.role :=
  rfl

theorem form_of_identifier {node : Node} {name : String} (named : node.identifier? = some name) :
    ∃ context, node.form = .name name context := by
  unfold identifier? at named
  split at named
  · next other context form =>
      obtain rfl := Option.some.inj named
      exact ⟨context, form⟩
  · cases named

/-- Induction on trees: a property of all children of a node passes to the node. -/
@[elab_as_elim]
theorem induction {motive : Node → Prop}
    (step : ∀ form info children,
      (∀ child ∈ children, motive child) → motive (.mk form info children)) :
    ∀ node, motive node
  | .mk form info children =>
      step form info children (fun child _ => induction step child)

theorem mem_nodesList {node : Node} {items : List Node} :
    node ∈ nodesList items ↔ ∃ item ∈ items, node ∈ item.nodes := by
  induction items with
  | nil => simp [nodesList]
  | cons item items induction => simp [nodesList, induction]

theorem mem_nodes_mk {node : Node} {form : Form} {info : Info} {children : List Node} :
    node ∈ (Node.mk form info children).nodes ↔
      node = .mk form info children ∨ ∃ child ∈ children, node ∈ child.nodes := by
  simp [nodes, mem_nodesList]

theorem mem_nodes_iff {node root : Node} :
    node ∈ root.nodes ↔ node = root ∨ ∃ child ∈ root.children, node ∈ child.nodes := by
  cases root with
  | mk form info children => exact mem_nodes_mk

theorem self_mem_nodes (node : Node) : node ∈ node.nodes :=
  mem_nodes_iff.mpr (Or.inl rfl)

theorem nodes_of_child {node child root : Node} (member : child ∈ root.children)
    (inside : node ∈ child.nodes) : node ∈ root.nodes :=
  mem_nodes_iff.mpr (Or.inr ⟨child, member, inside⟩)

theorem child_mem_nodes {child root : Node} (member : child ∈ root.children) :
    child ∈ root.nodes :=
  nodes_of_child member (self_mem_nodes child)

theorem nodes_trans {inner middle root : Node} (first : inner ∈ middle.nodes)
    (second : middle ∈ root.nodes) : inner ∈ root.nodes := by
  induction root using Node.induction with
  | step form info children induction =>
      rcases mem_nodes_mk.mp second with rfl | ⟨child, member, inside⟩
      · exact first
      · exact mem_nodes_mk.mpr (Or.inr ⟨child, member, induction child member inside⟩)

/-- Induction on trees from all nodes inside the children of a node to the node. -/
@[elab_as_elim]
theorem strongInduction {motive : Node → Prop}
    (step : ∀ form info children,
      (∀ child ∈ children, ∀ inner ∈ child.nodes, motive inner) → motive (.mk form info children))
    (node : Node) : motive node := by
  have all : ∀ inner ∈ node.nodes, motive inner := by
    induction node using Node.induction with
    | step form info children induction =>
        intro inner member
        rcases mem_nodes_mk.mp member with rfl | ⟨child, isChild, inside⟩
        · exact step form info children induction
        · exact induction child isChild inner inside
  exact all node (self_mem_nodes node)

theorem mem_field {node root : Node} {role : Role} :
    node ∈ root.field role ↔ node ∈ root.children ∧ node.role = role := by
  simp [field]

/-- The levels of two lists side by side have the nodes of both. -/
theorem mem_flatten_joinLevels {node : Node} (left right : List (List Node)) :
    node ∈ (joinLevels left right).flatten ↔ node ∈ left.flatten ∨ node ∈ right.flatten := by
  induction left generalizing right with
  | nil => simp [joinLevels]
  | cons first left induction =>
      cases right with
      | nil => simp [joinLevels]
      | cons second right =>
          simp only [joinLevels, List.flatten_cons, List.mem_append, induction]
          tauto

private theorem mem_flatten_levelsList {node : Node} {items : List Node} :
    node ∈ (levelsList items).flatten ↔ ∃ item ∈ items, node ∈ item.levels.flatten := by
  induction items with
  | nil => simp [levelsList]
  | cons item items induction =>
      rw [levelsList, mem_flatten_joinLevels, induction]
      simp

theorem mem_walk {node root : Node} : node ∈ root.walk ↔ node ∈ root.nodes := by
  induction root using Node.induction with
  | step form info children induction =>
      rw [walk, levels, List.flatten_cons, List.mem_append, mem_flatten_levelsList, mem_nodes_mk,
        List.mem_singleton]
      constructor
      · rintro (same | ⟨child, member, inside⟩)
        · exact Or.inl same
        · exact Or.inr ⟨child, member, (induction child member).mp inside⟩
      · rintro (same | ⟨child, member, inside⟩)
        · exact Or.inl same
        · exact Or.inr ⟨child, member, (induction child member).mpr inside⟩

theorem size_le_of_mem {node root : Node} (member : node ∈ root.nodes) :
    sizeOf node ≤ sizeOf root := by
  induction root using Node.induction with
  | step form info children induction =>
      rcases mem_nodes_mk.mp member with rfl | ⟨child, isChild, inside⟩
      · exact Nat.le_refl _
      · have below := induction child isChild inside
        have smaller := List.sizeOf_lt_of_mem isChild
        simp only [mk.sizeOf_spec]
        omega

theorem not_mem_nodes_of_child {child parent : Node} (isChild : child ∈ parent.children) :
    parent ∉ child.nodes := by
  intro inside
  have below := size_le_of_mem inside
  cases parent with
  | mk form info children =>
      have smaller := List.sizeOf_lt_of_mem isChild
      simp only [mk.sizeOf_spec] at below
      simp only [Node.children] at smaller
      omega

theorem children_sublist (children : List Node) :
    List.Sublist children (nodesList children) := by
  induction children with
  | nil => exact List.Sublist.refl _
  | cons child rest induction =>
      obtain ⟨form, info, parts⟩ := child
      exact (induction.trans (List.sublist_append_right _ _)).cons_cons _

private theorem nodes_sublist {node root : Node} (member : node ∈ root.nodes) :
    List.Sublist node.nodes root.nodes := by
  induction root using Node.induction with
  | step form info children induction =>
      rcases mem_nodes_mk.mp member with rfl | ⟨child, isChild, inside⟩
      · exact List.Sublist.refl _
      · have inner : List.Sublist child.nodes (nodesList children) := by
          clear induction member
          induction children with
          | nil => cases isChild
          | cons first rest hypothesis =>
              rcases List.mem_cons.mp isChild with rfl | later
              · exact List.sublist_append_left _ _
              · exact (hypothesis later).trans (List.sublist_append_right _ _)
        exact ((induction child isChild inside).trans inner).trans (List.sublist_cons_self _ _)

instance (node : Node) : Decidable node.Distinct :=
  inferInstanceAs (Decidable (List.Nodup _))

namespace Distinct

/-- A number tells which node of the tree is meant. -/
theorem eq_of_id {root first second : Node} (distinct : root.Distinct)
    (left : first ∈ root.nodes) (right : second ∈ root.nodes) (same : first.id = second.id) :
    first = second :=
  List.inj_on_of_nodup_map distinct left right same

theorem of_mem {root node : Node} (distinct : root.Distinct) (member : node ∈ root.nodes) :
    node.Distinct :=
  distinct.sublist ((nodes_sublist member).map Node.id)

theorem nodup_nodes {root : Node} (distinct : root.Distinct) : root.nodes.Nodup :=
  List.Nodup.of_map Node.id distinct

theorem nodup_children {root : Node} (distinct : root.Distinct) : root.children.Nodup := by
  cases root with
  | mk form info children =>
      exact (List.nodup_cons.mp distinct.nodup_nodes).2.sublist (children_sublist children)

theorem child_eq {root first second node : Node} (distinct : root.Distinct)
    (left : first ∈ root.children) (right : second ∈ root.children)
    (inFirst : node ∈ first.nodes) (inSecond : node ∈ second.nodes) : first = second := by
  cases root with
  | mk form info children =>
      have nodup : (nodesList children).Nodup := (List.nodup_cons.mp distinct.nodup_nodes).2
      have flat : nodesList children = children.flatMap nodes := by
        clear nodup left right distinct
        induction children with
        | nil => rfl
        | cons child rest induction => rw [nodesList, List.flatMap_cons, induction]
      rw [flat, List.nodup_flatMap] at nodup
      have symmetric : Std.Symm (Function.onFun List.Disjoint nodes) :=
        ⟨fun _ _ apart _ inSecond inFirst => apart inFirst inSecond⟩
      by_contra different
      exact nodup.2.forall left right different inFirst inSecond

end Distinct

end Node

end SafeRefactor
