import Mathlib.Algebra.GroupWithZero.Nat
import Mathlib.Algebra.Order.BigOperators.Group.List
import Mathlib.Algebra.Order.Group.Nat
import SafeRefactor.Proofs.Placement

/-!
# Each scope opens once

A node of a module is visited once, so no two events open a scope at the same node.
The count of openings at a node is bounded by the count of its number in the tree,
construct by construct: the parts of a construct are visited at most once each.
-/

namespace SafeRefactor

namespace Node

def hit (wanted id : NodeId) : Nat :=
  if id = wanted then 1 else 0

/-- How often a number occurs in a tree. -/
def tally (wanted : NodeId) (node : Node) : Nat :=
  node.ids.count wanted

/-- How often a number occurs in those trees of a list whose roles are asked for. -/
def tallyOf (wanted : NodeId) (asked : Role → Bool) (nodes : List Node) : Nat :=
  ((nodes.filter (fun node => asked node.role)).map (tally wanted)).sum

private theorem tallyOf_cons (wanted : NodeId) (asked : Role → Bool) (node : Node)
    (rest : List Node) :
    tallyOf wanted asked (node :: rest) =
      (if asked node.role then tally wanted node else 0) + tallyOf wanted asked rest := by
  unfold tallyOf
  by_cases yes : asked node.role = true
  · simp [yes]
  · simp [yes]

private theorem tally_mk (wanted : NodeId) (form : Form) (info : Info) (children : List Node) :
    tally wanted (.mk form info children) =
      hit wanted info.id + tallyOf wanted (fun _ => true) children := by
  have inner : ((nodesList children).map Node.id).count wanted =
      tallyOf wanted (fun _ => true) children := by
    induction children with
    | nil => rfl
    | cons child rest induction =>
        rw [nodesList, List.map_append, List.count_append, induction, tallyOf_cons, if_pos rfl]
        rfl
  unfold tally ids nodes hit
  rw [List.map_cons, List.count_cons, inner, id_mk, Nat.add_comm]
  simp

theorem sum_tallyOf_le (wanted : NodeId) (asked : List (Role → Bool))
    (apart : ∀ role, asked.countP (fun ask => ask role) ≤ 1) (nodes : List Node) :
    (asked.map (fun ask => tallyOf wanted ask nodes)).sum ≤
      tallyOf wanted (fun _ => true) nodes := by
  induction nodes with
  | nil => simp [tallyOf]
  | cons node rest induction =>
      have first : (asked.map (fun ask => if ask node.role then tally wanted node else 0)).sum =
          asked.countP (fun ask => ask node.role) * tally wanted node := by
        clear apart induction
        induction asked with
        | nil => simp
        | cons ask others hypothesis =>
            rw [List.map_cons, List.sum_cons, hypothesis, List.countP_cons]
            split
            · rw [Nat.add_mul, Nat.one_mul, Nat.add_comm]
            · simp
      have split : (asked.map (fun ask => tallyOf wanted ask (node :: rest))).sum =
          (asked.map (fun ask => if ask node.role then tally wanted node else 0)).sum +
            (asked.map (fun ask => tallyOf wanted ask rest)).sum := by
        simp only [tallyOf_cons]
        exact List.sum_map_add
      have bound := Nat.mul_le_mul_right (tally wanted node) (apart node.role)
      rw [split, first, tallyOf_cons, if_pos rfl]
      omega

end Node

namespace Event

/-- How often a list of events opens a scope at the node with a given number. -/
def openings (wanted : NodeId) (events : List Event) : Nat :=
  events.countP fun
    | .opens node _ _ _ => node.id = wanted
    | _ => false

@[simp]
theorem openings_nil (wanted : NodeId) : openings wanted [] = 0 :=
  rfl

@[simp]
theorem openings_append (wanted : NodeId) (first second : List Event) :
    openings wanted (first ++ second) = openings wanted first + openings wanted second :=
  List.countP_append

@[simp]
theorem openings_places (wanted node scope : NodeId) (events : List Event) :
    openings wanted (.places node scope :: events) = openings wanted events := by
  simp [openings]

@[simp]
theorem openings_binds (wanted scope : NodeId) (name : String) (binding : Binding)
    (events : List Event) :
    openings wanted (.binds scope name binding :: events) = openings wanted events := by
  simp [openings]

@[simp]
theorem openings_opens (wanted : NodeId) (node : Node) (kind : ScopeKind) (name : String)
    (outer : List NodeId) (events : List Event) :
    openings wanted (.opens node kind name outer :: events) =
      Node.hit wanted node.id + openings wanted events := by
  simp [openings, Node.hit, List.countP_cons, Nat.add_comm]

@[simp]
theorem openings_ofParameters (wanted : NodeId) (callable : Node) :
    openings wanted (ofParameters callable) = 0 := by
  unfold openings
  rw [List.countP_eq_zero]
  intro event member
  simp only [ofParameters, List.mem_flatMap, List.mem_cons, List.not_mem_nil, or_false] at member
  obtain ⟨parameter, _, rfl | rfl⟩ := member
  · exact Bool.false_ne_true
  · exact Bool.false_ne_true

/-- The bound holds of a node and of everything in it. -/
def Bounded (wanted : NodeId) (node : Node) : Prop :=
  ∀ lower ∈ node.nodes, ∀ place, openings wanted (ofNode place lower) ≤ lower.tally wanted

section

variable {wanted : NodeId}

theorem openings_ofAll {nodes : List Node} (bounded : ∀ node ∈ nodes, Bounded wanted node)
    (place : Place) :
    openings wanted (ofAll place nodes) ≤ Node.tallyOf wanted (fun _ => true) nodes := by
  induction nodes with
  | nil => simp [ofAll]
  | cons node rest induction =>
      have first := bounded node List.mem_cons_self node (Node.self_mem_nodes node) place
      have later := induction (fun other member => bounded other (List.mem_cons_of_mem _ member))
      rw [ofAll, openings_append, Node.tallyOf_cons, if_pos rfl]
      omega

theorem openings_ofRole {nodes : List Node} (bounded : ∀ node ∈ nodes, Bounded wanted node)
    (role : Role) (place : Place) :
    openings wanted (ofRole role place nodes) ≤
      Node.tallyOf wanted (fun other => other = role) nodes := by
  induction nodes with
  | nil => simp [ofRole]
  | cons node rest induction =>
      have first := bounded node List.mem_cons_self node (Node.self_mem_nodes node) place
      have later := induction (fun other member => bounded other (List.mem_cons_of_mem _ member))
      rw [Node.tallyOf_cons]
      by_cases same : node.role = role
      · simp only [ofRole, same, if_true, openings_append, decide_true]
        omega
      · simp only [ofRole, same, if_false, decide_false, Bool.false_eq_true, Nat.zero_add]
        exact later

theorem Bounded.children {form : Form} {info : Info} {children : List Node}
    (bounded : Bounded wanted (.mk form info children)) :
    ∀ child ∈ children, Bounded wanted child :=
  fun _ member _ inside => bounded _ (Node.nodes_of_child member inside)

theorem openings_ofHints {nodes : List Node} (bounded : ∀ node ∈ nodes, Bounded wanted node)
    (place : Place) :
    openings wanted (ofHints place nodes) ≤ Node.tallyOf wanted Role.isParameter nodes := by
  induction nodes with
  | nil => simp [ofHints]
  | cons node rest induction =>
      obtain ⟨form, info, children⟩ := node
      have later := induction (fun other member => bounded other (List.mem_cons_of_mem _ member))
      have first := openings_ofRole (bounded _ List.mem_cons_self).children .typeHint
        (place.inside (.mk form info children))
      have parts := Node.sum_tallyOf_le wanted [fun role => role = .typeHint]
        (by intro role; cases role <;> decide) children
      simp only [List.map_cons, List.map_nil, List.sum_cons, List.sum_nil] at parts
      rw [Node.tallyOf_cons, Node.tally_mk, Node.role_mk]
      by_cases parameter : info.role.isParameter = true
      · simp only [ofHints, parameter, if_true, openings_places, openings_append]
        omega
      · simp only [ofHints, parameter, if_false, Bool.false_eq_true]
        omega

theorem openings_ofParameterLists {nodes : List Node}
    (bounded : ∀ node ∈ nodes, Bounded wanted node) (place : Place) :
    openings wanted (ofParameterLists place nodes) ≤
      Node.tallyOf wanted (fun role => role = .parameters) nodes := by
  induction nodes with
  | nil => simp [ofParameterLists]
  | cons node rest induction =>
      obtain ⟨form, info, parts⟩ := node
      have later := induction (fun other member => bounded other (List.mem_cons_of_mem _ member))
      have inner := (bounded _ List.mem_cons_self).children
      have positional := openings_ofRole inner .default (place.inside (.mk form info parts))
      have keyword := openings_ofRole inner .keywordDefault (place.inside (.mk form info parts))
      have hints := openings_ofHints inner place
      have all := Node.sum_tallyOf_le wanted
        [fun role => role = .default, fun role => role = .keywordDefault, Role.isParameter]
        (by intro role; cases role <;> decide) parts
      simp only [List.map_cons, List.map_nil, List.sum_cons, List.sum_nil] at all
      rw [Node.tallyOf_cons, Node.tally_mk, Node.role_mk]
      by_cases parameters : info.role = .parameters
      · simp only [ofParameterLists, parameters, if_true, openings_places, openings_append,
          decide_true]
        omega
      · simp only [ofParameterLists, parameters, if_false, decide_false, Bool.false_eq_true]
        omega

theorem openings_ofClauses {nodes : List Node} (bounded : ∀ node ∈ nodes, Bounded wanted node)
    (place : Place) (first : Bool) :
    openings wanted (ofClauses place first nodes) ≤
      Node.tallyOf wanted (fun role => role = .clause) nodes := by
  induction nodes generalizing first with
  | nil => simp [ofClauses]
  | cons node rest induction =>
      obtain ⟨form, info, parts⟩ := node
      have later := fun first =>
        induction (fun other member => bounded other (List.mem_cons_of_mem _ member)) first
      have inner := (bounded _ List.mem_cons_self).children
      have iterable := openings_ofRole inner .iterable (place.inside (.mk form info parts))
      have target := openings_ofRole inner .target (place.inside (.mk form info parts))
      have condition := openings_ofRole inner .condition (place.inside (.mk form info parts))
      have all := Node.sum_tallyOf_le wanted
        [fun role => role = .iterable, fun role => role = .target, fun role => role = .condition]
        (by intro role; cases role <;> decide) parts
      simp only [List.map_cons, List.map_nil, List.sum_cons, List.sum_nil] at all
      rw [Node.tallyOf_cons, Node.tally_mk, Node.role_mk]
      by_cases clause : info.role = .clause
      · have rest := later false
        simp only [ofClauses, clause, if_true, openings_places, openings_append, decide_true]
        cases first with
        | true =>
            simp only [if_true, openings_nil]
            omega
        | false =>
            simp only [if_false, Bool.false_eq_true]
            omega
      · have rest := later first
        simp only [ofClauses, clause, if_false, decide_false, Bool.false_eq_true]
        omega

private theorem openings_clauses {nodes : List Node} (bounded : ∀ node ∈ nodes, Bounded wanted node)
    (outside inside : Place) :
    openings wanted (ofFirstIterable outside nodes) +
        openings wanted (ofClauses inside true nodes) ≤
      Node.tallyOf wanted (fun role => role = .clause) nodes := by
  induction nodes with
  | nil => simp [ofFirstIterable, ofClauses]
  | cons node rest induction =>
      obtain ⟨form, info, parts⟩ := node
      have others := fun other member => bounded other (List.mem_cons_of_mem _ member)
      have inner := (bounded _ List.mem_cons_self).children
      have iterable := openings_ofRole inner .iterable (outside.inside (.mk form info parts))
      have target := openings_ofRole inner .target (inside.inside (.mk form info parts))
      have condition := openings_ofRole inner .condition (inside.inside (.mk form info parts))
      have all := Node.sum_tallyOf_le wanted
        [fun role => role = .iterable, fun role => role = .target, fun role => role = .condition]
        (by intro role; cases role <;> decide) parts
      simp only [List.map_cons, List.map_nil, List.sum_cons, List.sum_nil] at all
      rw [Node.tallyOf_cons, Node.tally_mk, Node.role_mk]
      by_cases clause : info.role = .clause
      · have later := openings_ofClauses others inside false
        simp only [ofFirstIterable, ofClauses, clause, if_true, openings_places, openings_append,
          decide_true, openings_nil]
        omega
      · have later := induction others
        simp only [ofFirstIterable, ofClauses, clause, if_false, decide_false, Bool.false_eq_true]
        omega

/-- A construct that opens no scope opens at most what its constituents open. -/
theorem openings_ordinary {place : Place} {node : Node}
    (bounded : ∀ child ∈ node.children, Bounded wanted child)
    (visited : ofNode place node = .places node.id place.scope ::
      (ofCapture place node ++ ofAll (place.inside node) node.children)) :
    openings wanted (ofNode place node) ≤ node.tally wanted := by
  have captured : openings wanted (ofCapture place node) = 0 := by
    unfold openings
    rw [List.countP_eq_zero]
    intro event member
    unfold ofCapture at member
    split at member
    all_goals first
      | (split at member
         · cases member
         · rw [List.mem_singleton.mp member]
           exact Bool.false_ne_true)
      | cases member
  have all := openings_ofAll bounded (place.inside node)
  rw [visited, openings_places, openings_append, captured]
  obtain ⟨form, info, children⟩ := node
  rw [Node.tally_mk]
  rw [Node.children_mk] at all
  rw [Node.children_mk]
  omega

private theorem openings_ofEntry {nodes : List Node}
    (bounded : ∀ node ∈ nodes, Bounded wanted node) (place : Place) {entry : Role × Slot}
    (sort : isPlain entry.2 = true ∨ entry = (.parameters, .parameterList)) :
    openings wanted (ofEntry place nodes entry) ≤
      Node.tallyOf wanted (fun role => role = entry.1) nodes := by
  rcases sort with plain | rfl
  · rw [ofEntry_of_isPlain plain]
    exact openings_ofRole bounded entry.1 place
  · exact openings_ofParameterLists bounded place

/-- A definition or lambda opens one scope, besides what the parts in its slots open. -/
theorem openings_of_opensBody (node : Node) (opens : opensBody node.form = true)
    (bounded : ∀ child ∈ node.children, Bounded wanted child) (place : Place) :
    openings wanted (ofNode place node) ≤ node.tally wanted := by
  have apart (role : Role) : (node.form.slots.map fun entry role => decide (role = entry.1)).countP
      (fun ask => ask role) ≤ 1 := by
    have once := List.nodup_iff_count_le_one.mp (Form.nodup_slots node.form) role
    rw [List.count, List.countP_map] at once
    rw [List.countP_map]
    refine Eq.trans_le (List.countP_congr fun entry _ => ?_) once
    simp only [Function.comp_apply, decide_eq_true_eq, beq_iff_eq]
    exact eq_comm
  have visited : openings wanted (ofNode place node) = Node.hit wanted node.id +
      (node.form.slots.map fun entry =>
        openings wanted (ofEntry (placeOfPart place node entry.1) node.children entry)).sum := by
    obtain ⟨form, info, children⟩ := node
    cases form with
    | functionDef | lambda | classDef =>
        simp [ofNode, ofEntry, placeOfPart, Form.slots]
        omega
    | _ => cases opens
  have parts : (node.form.slots.map fun entry =>
        openings wanted (ofEntry (placeOfPart place node entry.1) node.children entry)).sum ≤
      (node.form.slots.map fun entry =>
        Node.tallyOf wanted (fun role => role = entry.1) node.children).sum :=
    List.sum_le_sum fun entry listed =>
      openings_ofEntry bounded _ (sort_of_opensBody opens listed)
  have all := Node.sum_tallyOf_le wanted _ apart node.children
  rw [List.map_map] at all
  calc openings wanted (ofNode place node)
      ≤ Node.hit wanted node.id + Node.tallyOf wanted (fun _ => true) node.children := by
        rw [visited]
        exact Nat.add_le_add_left (Nat.le_trans parts all) _
    _ = node.tally wanted := by
        obtain ⟨form, info, children⟩ := node
        exact (Node.tally_mk wanted form info children).symm

private theorem openings_comprehension {kind : ComprehensionKind} {info : Info}
    {children : List Node}
    (bounded : ∀ child ∈ children, Bounded wanted child) (place : Place) :
    openings wanted (ofNode place (.mk (.comprehension kind) info children)) ≤
      Node.tally wanted (.mk (.comprehension kind) info children) := by
  generalize whole : Node.mk (.comprehension kind) info children = node
  have clauses := openings_clauses bounded (place.inside node) (place.enterComprehension node)
  have keys := openings_ofRole bounded .key (place.enterComprehension node)
  have values := openings_ofRole bounded .value (place.enterComprehension node)
  have elements := openings_ofRole bounded .element (place.enterComprehension node)
  have all := Node.sum_tallyOf_le wanted
    [fun role => role = .clause, fun role => role = .key, fun role => role = .value,
     fun role => role = .element]
    (by intro role; cases role <;> decide) children
  simp only [List.map_cons, List.map_nil, List.sum_cons, List.sum_nil] at all
  rw [← whole] at *
  simp only [ofNode, openings_places, openings_append, openings_opens, openings_nil,
    Node.tally_mk, Node.id_mk]
  omega

private theorem openings_namedExpr {info : Info} {children : List Node}
    (bounded : ∀ child ∈ children, Bounded wanted child) (place : Place) :
    openings wanted (ofNode place (.mk .namedExpr info children)) ≤
      Node.tally wanted (.mk .namedExpr info children) := by
  have target : openings wanted (ofNamedTarget place.frame (.mk .namedExpr info children)) = 0 := by
    unfold openings
    rw [List.countP_eq_zero]
    intro event member
    simp only [ofNamedTarget, List.mem_flatMap, List.mem_cons, List.not_mem_nil, or_false] at member
    obtain ⟨_, _, rfl | rfl⟩ := member
    · exact Bool.false_ne_true
    · exact Bool.false_ne_true
  have value := openings_ofRole bounded .value (place.inside (.mk .namedExpr info children))
  have all := Node.sum_tallyOf_le wanted [fun role => role = .value]
    (by intro role; cases role <;> decide) children
  simp only [List.map_cons, List.map_nil, List.sum_cons, List.sum_nil] at all
  simp only [ofNode, openings_places, openings_append, target, Node.tally_mk]
  omega

private theorem openings_ofImports (scope : NodeId) (statement : Node) :
    openings wanted (ofImports scope statement) = 0 := by
  unfold openings
  rw [List.countP_eq_zero]
  intro event member
  obtain ⟨item, _, found⟩ := List.mem_flatMap.mp member
  split at found
  · split at found
    · rw [List.mem_singleton.mp found]
      exact Bool.false_ne_true
    · simp only [List.mem_cons, List.not_mem_nil, or_false] at found
      rcases found with rfl | rfl
      · exact Bool.false_ne_true
      · exact Bool.false_ne_true
  · cases found

/-- The visit of a node opens a scope at most once at each node in it. -/
theorem openings_ofNode (wanted : NodeId) (node : Node) : Bounded wanted node := by
  induction node using Node.induction with
  | step form info children induction =>
      intro lower member place
      rcases Node.mem_nodes_mk.mp member with rfl | ⟨child, isChild, inside⟩
      · cases form with
        | functionDef | lambda | classDef =>
            exact openings_of_opensBody (.mk _ info children) rfl induction place
        | comprehension => exact openings_comprehension induction place
        | namedExpr => exact openings_namedExpr induction place
        | name id context =>
            simp only [ofNode, openings_places]
            split <;> simp
        | globalStmt names | nonlocalStmt names => simp [ofNode, openings]
        | importStmt | importFrom => simp [ofNode, openings_ofImports]
        | _ => exact openings_ordinary induction rfl
      · exact induction child isChild lower inside place

theorem openings_ofModule {tree : Node} (distinct : tree.Distinct) (wanted : NodeId) :
    openings wanted (ofModule tree) ≤ 1 := by
  have bounded : ∀ child ∈ tree.children, Bounded wanted child :=
    fun child _ => openings_ofNode wanted child
  have body := openings_ofRole bounded .body
    { scope := tree.id, outer := [], frame := tree.id, parent := some tree }
  have all := Node.sum_tallyOf_le wanted [fun role => role = .body]
    (by intro role; cases role <;> decide) tree.children
  have once : tree.tally wanted ≤ 1 := List.nodup_iff_count_le_one.mp distinct wanted
  simp only [List.map_cons, List.map_nil, List.sum_cons, List.sum_nil] at all
  rw [ofModule, openings_opens, openings_places]
  obtain ⟨form, info, children⟩ := tree
  rw [Node.tally_mk] at once
  simp only [Node.id_mk, Node.children_mk] at *
  omega

end

end Event

end SafeRefactor
