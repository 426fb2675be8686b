import SafeRefactor.Tree.Node

/-!
# Numbered trees

The nodes of a tree are numbered in preorder.  Numbering gives each node a number
of its own, so that the number tells which node is meant.
-/

namespace SafeRefactor

namespace Node

mutual

/-- Numbers the nodes of a tree in preorder from `next`; also the first number not used. -/
def numberFrom (next : Nat) : Node → Node × Nat
  | .mk form info children =>
      let (numbered, after) := numberListFrom (next + 1) children
      (.mk form { info with id := next } numbered, after)

def numberListFrom (next : Nat) : List Node → List Node × Nat
  | [] => ([], next)
  | node :: rest =>
      let (first, after) := numberFrom next node
      let (others, final) := numberListFrom after rest
      (first :: others, final)

end

/-- The same tree with its nodes numbered in preorder from zero. -/
def numbered (node : Node) : Node :=
  (node.numberFrom 0).1

mutual

theorem numberFrom_next (next : Nat) (node : Node) :
    (node.numberFrom next).2 = next + node.size := by
  cases node with
  | mk form info children =>
      simp only [numberFrom, size, numberListFrom_next]
      omega

private theorem numberListFrom_next (next : Nat) (nodes : List Node) :
    (numberListFrom next nodes).2 = next + sizeList nodes := by
  cases nodes with
  | nil => simp [numberListFrom, sizeList]
  | cons node rest =>
      simp only [numberListFrom, sizeList, numberFrom_next, numberListFrom_next]
      omega

end

mutual

/-- The numbers of a numbered tree are consecutive. -/
theorem ids_numberFrom (next : Nat) (node : Node) :
    (node.numberFrom next).1.ids = List.range' next node.size := by
  cases node with
  | mk form info children =>
      have inner := ids_numberListFrom (next + 1) children
      simp only [ids, numberFrom, nodes, size, List.map_cons, List.range'_succ, inner]
      rfl

private theorem ids_numberListFrom (next : Nat) (items : List Node) :
    (nodesList (numberListFrom next items).1).map id = List.range' next (sizeList items) := by
  cases items with
  | nil => simp [numberListFrom, nodesList, sizeList]
  | cons node rest =>
      have first := ids_numberFrom next node
      have others := ids_numberListFrom (numberFrom next node).2 rest
      simp only [ids] at first
      rw [numberFrom_next] at others
      simp only [numberListFrom, nodesList, sizeList, List.map_append, first, numberFrom_next,
        others, List.range'_append_1]

end

theorem distinct_numbered (node : Node) : node.numbered.Distinct := by
  unfold Distinct numbered
  rw [ids_numberFrom]
  exact List.nodup_range'

end Node

end SafeRefactor
