import SafeRefactor.Proofs.Subtree

/-!
# The way outwards

The nodes around a node are found by its number.  In a tree with distinct numbers the
way outwards from a node goes to its parent and on from there.
-/

namespace SafeRefactor

namespace Node

private theorem path_eq_none {wanted : NodeId} {node : Node} (absent : wanted ∉ node.ids) :
    node.path wanted = none := by
  induction node using Node.induction with
  | step form info children induction =>
      have other : ¬ info.id = wanted := by
        intro same
        exact absent (List.mem_map.mpr ⟨_, self_mem_nodes _, same⟩)
      have deeper : ∀ child ∈ children, child.path wanted = none := by
        intro child isChild
        apply induction child isChild
        intro present
        obtain ⟨inner, inside, same⟩ := List.mem_map.mp present
        exact absent (List.mem_map.mpr ⟨inner, nodes_of_child isChild inside, same⟩)
      have none : pathList wanted children = none := by
        clear induction absent
        induction children with
        | nil => rfl
        | cons child rest hypothesis =>
            rw [pathList, deeper child List.mem_cons_self, Option.none_or]
            exact hypothesis fun other member => deeper other (List.mem_cons_of_mem _ member)
      simp [path, other, none]

/-- Among different trees the way leads into the one that has the number. -/
theorem pathList_eq {wanted : NodeId} {items : List Node} {item : Node} (member : item ∈ items)
    (only : ∀ other ∈ items, other ≠ item → wanted ∉ other.ids) :
    pathList wanted items = item.path wanted := by
  induction items with
  | nil => cases member
  | cons first rest induction =>
      rw [pathList]
      by_cases inRest : item ∈ rest
      · rw [induction inRest fun other isOther => only other (List.mem_cons_of_mem _ isOther)]
        by_cases same : first = item
        · rw [same, Option.or_self]
        · rw [path_eq_none (only first List.mem_cons_self same), Option.none_or]
      · have same : first = item := ((List.mem_cons.mp member).resolve_right inRest).symm
        have none : pathList wanted rest = none := by
          have others : ∀ other ∈ rest, other.path wanted = none := by
            intro other isOther
            apply path_eq_none
            apply only other (List.mem_cons_of_mem _ isOther)
            rintro rfl
            exact inRest isOther
          clear induction only inRest member
          induction rest with
          | nil => rfl
          | cons second rest hypothesis =>
              rw [pathList, others second List.mem_cons_self, Option.none_or]
              exact hypothesis fun other isOther => others other (List.mem_cons_of_mem _ isOther)
        rw [none, same, Option.or_none]

theorem path_of_child {root child node : Node} (distinct : root.Distinct)
    (isChild : child ∈ root.children) (inside : node ∈ child.nodes) :
    root.path node.id = (child.path node.id).map (root :: ·) := by
  cases root with
  | mk form info children =>
      have below : node ∈ (Node.mk form info children).nodes := nodes_of_child isChild inside
      have different : ¬ info.id = node.id := by
        intro same
        have root := distinct.eq_of_id (self_mem_nodes _) below same
        rw [← root] at inside
        exact not_mem_nodes_of_child isChild inside
      have only : ∀ other ∈ children, other ≠ child → node.id ∉ other.ids := by
        intro other isOther apart present
        obtain ⟨lower, inOther, same⟩ := List.mem_map.mp present
        have equal := distinct.eq_of_id (nodes_of_child isOther inOther) below same
        rw [equal] at inOther
        exact apart (distinct.child_eq isOther isChild inOther inside)
      have into : pathList node.id children = child.path node.id := pathList_eq isChild only
      rw [path, if_neg different, into]

private theorem path_self (root : Node) : root.path root.id = some [root] := by
  cases root with
  | mk form info children => simp [path]

private theorem path_isSome {root node : Node} (distinct : root.Distinct)
    (member : node ∈ root.nodes) :
    (root.path node.id).isSome := by
  induction root using Node.induction with
  | step form info children induction =>
      rcases mem_nodes_mk.mp member with rfl | ⟨child, isChild, inside⟩
      · rw [path_self]
        rfl
      · have inner := distinct.of_mem (nodes_of_child isChild (self_mem_nodes child))
        rw [path_of_child distinct isChild inside, Option.isSome_map]
        exact induction child isChild inner inside

private theorem path_step {root parent child : Node} (distinct : root.Distinct)
    (inside : parent ∈ root.nodes) (isChild : child ∈ parent.children) :
    root.path child.id = (root.path parent.id).map (· ++ [child]) := by
  induction root using Node.induction with
  | step form info children induction =>
      rcases mem_nodes_mk.mp inside with rfl | ⟨middle, isMiddle, within⟩
      · rw [path_of_child distinct isChild (self_mem_nodes child), path_self, path_self]
        rfl
      · have lower := nodes_trans (child_mem_nodes isChild) within
        have inner := distinct.of_mem (nodes_of_child isMiddle (self_mem_nodes middle))
        rw [path_of_child distinct isMiddle lower, path_of_child distinct isMiddle within,
          induction middle isMiddle inner within, Option.map_map, Option.map_map]
        rfl

theorem lineage_child {root parent child : Node} (distinct : root.Distinct)
    (inside : parent ∈ root.nodes) (isChild : child ∈ parent.children) :
    root.lineage child.id = child :: root.lineage parent.id := by
  obtain ⟨way, found⟩ := Option.isSome_iff_exists.mp (path_isSome distinct inside)
  rw [lineage, lineage, path_step distinct inside isChild, found]
  simp

theorem ancestors_child {root parent child : Node} (distinct : root.Distinct)
    (inside : parent ∈ root.nodes) (isChild : child ∈ parent.children) :
    root.ancestors child.id = root.lineage parent.id := by
  rw [ancestors, lineage_child distinct inside isChild, List.drop_one, List.tail_cons]

theorem lineage_self (root : Node) : root.lineage root.id = [root] := by
  rw [lineage, path_self]
  rfl

theorem exists_parent {root node : Node} (member : node ∈ root.nodes) :
    node = root ∨ ∃ parent ∈ root.nodes, node ∈ parent.children := by
  induction root using Node.induction with
  | step form info children induction =>
      rcases mem_nodes_mk.mp member with same | ⟨child, isChild, inside⟩
      · exact Or.inl same
      · right
        rcases induction child isChild inside with rfl | ⟨parent, within, isNode⟩
        · exact ⟨_, self_mem_nodes _, isChild⟩
        · exact ⟨parent, nodes_of_child isChild within, isNode⟩

theorem lineage_eq_cons {root node : Node} (distinct : root.Distinct) (inside : node ∈ root.nodes) :
    root.lineage node.id = node :: root.ancestors node.id := by
  rcases exists_parent inside with rfl | ⟨parent, within, isChild⟩
  · rw [ancestors, lineage_self]
    rfl
  · rw [ancestors_child distinct within isChild, lineage_child distinct within isChild]

/-- Induction on trees from all nodes around a node to the node. -/
@[elab_as_elim]
theorem outwardInduction {root : Node} {motive : Node → Prop}
    (step : ∀ node ∈ root.nodes, (∀ outer ∈ root.nodes, ∀ child ∈ outer.children,
      node ∈ child.nodes → motive outer) → motive node)
    {node : Node} (member : node ∈ root.nodes) : motive node := by
  -- What lies around a node is larger than the node and at most as large as the tree.
  induction depth : sizeOf root - sizeOf node using Nat.strongRecOn generalizing node with
  | _ _ induction =>
      apply step node member
      intro outer inside child isChild within
      apply induction _ _ inside rfl
      have smaller : sizeOf node ≤ sizeOf child := size_le_of_mem within
      have bounded : sizeOf outer ≤ sizeOf root := size_le_of_mem inside
      have strict : sizeOf child < sizeOf outer := by
        obtain ⟨form, info, children⟩ := outer
        have below := List.sizeOf_lt_of_mem isChild
        simp only [Node.children] at below
        simp only [mk.sizeOf_spec]
        omega
      omega

theorem Distinct.parent_eq {root first second child : Node} (distinct : root.Distinct)
    (left : first ∈ root.nodes) (right : second ∈ root.nodes) (inFirst : child ∈ first.children)
    (inSecond : child ∈ second.children) : first = second := by
  have outwards := (ancestors_child distinct left inFirst).symm.trans
    (ancestors_child distinct right inSecond)
  rw [lineage_eq_cons distinct left, lineage_eq_cons distinct right] at outwards
  exact (List.cons.inj outwards).1

/-- A node lies around another one in the same function, lambda or class. -/
inductive Around (outer : Node) : Node → Prop where
  | direct {child : Node} : child ∈ outer.children → Around outer child
  | through {middle child : Node} : Around outer middle → middle.form.isBarrier = false →
      child ∈ middle.children → Around outer child

namespace Around

theorem mem {outer node : Node} (around : outer.Around node) : node ∈ outer.nodes := by
  induction around with
  | direct isChild => exact child_mem_nodes isChild
  | through _ _ isChild induction => exact nodes_trans (child_mem_nodes isChild) induction

/-- What lies around a node in its function is met on the way outwards before a barrier. -/
theorem mem_ancestors {root outer node : Node} (distinct : root.Distinct)
    (inside : outer ∈ root.nodes) (passable : outer.form.isBarrier = false)
    (around : outer.Around node) :
    outer ∈ (root.ancestors node.id).takeWhile (fun other => !other.form.isBarrier) := by
  induction around with
  | direct isChild =>
      rw [ancestors_child distinct inside isChild, lineage_eq_cons distinct inside]
      simp [passable]
  | @through middle child around passable isChild induction =>
      have within : middle ∈ root.nodes := nodes_trans around.mem inside
      rw [ancestors_child distinct within isChild, lineage_eq_cons distinct within]
      simp [passable, induction]

end Around

end Node

end SafeRefactor
