import SafeRefactor.Proofs.Descent

/-!
# What a selection leaves out

Following a selection inwards, only the first statement list that it touches counts at each
construct.  What it touches in the later lists of the construct is left out, and nothing else is.
-/

namespace SafeRefactor

namespace Form

/-- Whether a construct is a statement that other statements can stand in. -/
def isCompound : Form → Bool
  | .functionDef .. | .classDef _ | .forLoop _ | .whileLoop | .ifStmt | .withStmt _ | .matchStmt
  | .tryStmt _ => true
  | _ => false

private theorem role_of_slot {form : Form} {role : Role} {slot : Slot}
    (listed : (role, slot) ∈ form.slots)
    (block : slot.isBlock = true) :
    (slot = .statement ∧ role.isBlock = true) ∨ (slot = .handler ∧ role = .handler) ∨
      (slot = .arm ∧ role = .arm) := by
  have all : ∀ entry ∈ form.slots, entry.2.isBlock = true →
      (entry.2 = .statement ∧ entry.1.isBlock = true) ∨
        (entry.2 = .handler ∧ entry.1 = .handler) ∨ (entry.2 = .arm ∧ entry.1 = .arm) := by
    cases form with
    | starred context | list context | tuple context =>
        cases context <;> simp [Form.slots, Context.slot, Slot.isBlock]
    | _ => simp [Form.slots, Slot.isBlock, Role.isBlock]
  exact all _ listed block

/-- A statement with lists for other statements is compound. -/
theorem isCompound_of_slot {form : Form} {role : Role} {slot : Slot}
    (isStatement : form.isStatement = true) (listed : (role, slot) ∈ form.slots)
    (block : slot.isBlock = true) : form.isCompound = true := by
  have simple : form.isCompound = false → ∀ entry ∈ form.slots, entry.2.isBlock = false := by
    intro simple
    cases form with
    | functionDef | classDef | forLoop | whileLoop | ifStmt | withStmt | matchStmt | tryStmt =>
        cases simple
    | _ => first | (cases isStatement; done) | simp [Form.slots, Slot.isBlock]
  by_contra other
  rw [simple (by simpa using other) _ listed] at block
  cases block

theorem not_isStatement_of_part {form : Form}
    (part : Slot.admits .handler form = true ∨ Slot.admits .arm form = true) :
    form.isStatement = false := by
  cases form <;> first | rfl | (rcases part with part | part <;> cases part)

theorem body_of_slot {form : Form} {role : Role} {slot : Slot}
    (part : Slot.admits .handler form = true ∨ Slot.admits .arm form = true)
    (listed : (role, slot) ∈ form.slots) (block : slot.isBlock = true) : role = .body := by
  cases form with
  | handler name caught | matchCase =>
      simp only [Form.slots, List.mem_cons, Prod.mk.injEq, List.not_mem_nil, or_false] at listed
      rcases listed with ⟨rfl, rfl⟩ | ⟨rfl, rfl⟩ | ⟨rfl, rfl⟩ <;> first | rfl | cases block
  | _ => rcases part with part | part <;> cases part

end Form

namespace Node

variable {tree construct statement : Node}

/-- What holds a statement is a statement, a handler or an arm. -/
theorem isBlock_of_inside {node : Node} {slot : Slot} (fitting : node.fits slot = true)
    (inside : statement ∈ node.nodes) (isStatement : statement.isStatement = true) :
    slot.isBlock = true := by
  induction node using Node.induction generalizing slot with
  | step form info children induction =>
      have admitted := admits_of_fits fitting
      rcases mem_nodes_mk.mp inside with rfl | ⟨child, isChild, below⟩
      · exact Slot.isBlock_of_admits admitted (Form.isBlock_of_isStatement isStatement)
      · obtain ⟨inner, listed, fittingChild⟩ := slot_of_child fitting isChild
        exact Slot.isBlock_of_admits admitted
          (Form.isBlock_of_slot listed (induction child isChild fittingChild below))

/-- A statement inside a construct lies in one of its statement lists. -/
theorem WellFormed.exists_listed {child : Node} (wellFormed : tree.WellFormed)
    (inside : construct ∈ tree.nodes) (isChild : child ∈ construct.children)
    (below : statement ∈ child.nodes) (isStatement : statement.isStatement = true) :
    ∃ list ∈ construct.statementLists, ∃ outer ∈ list, statement ∈ outer.nodes := by
  obtain ⟨slot, listed, fitting⟩ := wellFormed.slot_of_child inside isChild
  have inPart : (Slot.admits .handler child.form = true ∨ Slot.admits .arm child.form = true) →
      (child.role = .handler ∨ child.role = .arm) →
      ∃ list ∈ construct.statementLists, ∃ outer ∈ list, statement ∈ outer.nodes := by
    intro part role
    refine ⟨child.field .body, mem_statementLists.mpr (Or.inr ⟨child, isChild, role, rfl⟩), ?_⟩
    rcases mem_nodes_iff.mp below with rfl | ⟨inner, isInner, deeper⟩
    · exact absurd (isStatement.symm.trans (Form.not_isStatement_of_part part)) nofun
    · obtain ⟨innerSlot, innerListed, innerFits⟩ := Node.slot_of_child fitting isInner
      have block := isBlock_of_inside innerFits deeper isStatement
      exact ⟨inner, mem_field.mpr ⟨isInner, Form.body_of_slot part innerListed block⟩, deeper⟩
  rcases Form.role_of_slot listed (isBlock_of_inside fitting below isStatement) with
    ⟨_, block⟩ | ⟨rfl, role⟩ | ⟨rfl, role⟩
  · exact ⟨construct.field child.role, construct.field_mem_statementLists block, child,
      mem_field.mpr ⟨isChild, rfl⟩, below⟩
  · exact inPart (Or.inl (admits_of_fits fitting)) (Or.inl role)
  · exact inPart (Or.inr (admits_of_fits fitting)) (Or.inr role)

/-- Every statement lies in a statement of the module. -/
theorem WellFormed.exists_top (wellFormed : tree.WellFormed) (inside : statement ∈ tree.nodes)
    (isStatement : statement.isStatement = true) :
    ∃ top ∈ tree.field .body, statement ∈ top.nodes := by
  rcases mem_nodes_iff.mp inside with rfl | ⟨child, isChild, below⟩
  · rw [Node.isStatement, Grammatical.form_eq wellFormed.grammatical] at isStatement
    cases isStatement
  · obtain ⟨role, _⟩ := Grammatical.slot_of_child wellFormed.grammatical isChild
    exact ⟨child, mem_field.mpr ⟨isChild, role⟩, below⟩

theorem WellFormed.isCompound_of_listed {list : List Node} {inner : Node}
    (wellFormed : tree.WellFormed) (inside : statement ∈ tree.nodes)
    (isStatement : statement.isStatement = true) (listed : list ∈ statement.statementLists)
    (member : inner ∈ list) : statement.form.isCompound = true := by
  obtain ⟨child, isChild, below⟩ := exists_child_of_listed listed member
  obtain ⟨slot, asked, fitting⟩ := wellFormed.slot_of_child inside isChild
  have innerStatement := admits_of_fits (wellFormed.fits_of_listed inside listed member)
  exact Form.isCompound_of_slot isStatement asked (isBlock_of_inside fitting below innerStatement)

private theorem Distinct.apart_of_children {first second : List Node}
    (distinct : construct.Distinct)
    (owned : ∀ left ∈ first, ∀ right ∈ second, ∃ one ∈ construct.children,
      ∃ other ∈ construct.children, one ≠ other ∧ left ∈ one.nodes ∧ right ∈ other.nodes) :
    ∀ left ∈ first, ∀ right ∈ second, ∀ node ∈ left.nodes, node ∉ right.nodes := by
  intro left isLeft right isRight node inLeft inRight
  obtain ⟨one, isOne, other, isOther, differs, inOne, inOther⟩ := owned left isLeft right isRight
  exact differs (distinct.child_eq isOne isOther (nodes_trans inLeft inOne)
    (nodes_trans inRight inOther))

/-- Different statement lists of a construct have nothing in common. -/
theorem Distinct.statementLists_apart (distinct : construct.Distinct) :
    construct.statementLists.Pairwise (fun first second =>
      ∀ left ∈ first, ∀ right ∈ second, ∀ node ∈ left.nodes, node ∉ right.nodes) := by
  have isPart : ∀ part ∈ construct.field .handler ++ construct.field .arm,
      part ∈ construct.children ∧ part.role.isBlock = false := by
    intro part member
    rcases List.mem_append.mp member with member | member
    · exact ⟨(mem_field.mp member).1, by rw [(mem_field.mp member).2]; rfl⟩
    · exact ⟨(mem_field.mp member).1, by rw [(mem_field.mp member).2]; rfl⟩
  have parts : (construct.field .handler ++ construct.field .arm).Nodup := by
    apply List.Nodup.append (distinct.nodup_children.filter _) (distinct.nodup_children.filter _)
    intro part isHandler isArm
    exact absurd ((mem_field.mp isHandler).2.symm.trans (mem_field.mp isArm).2) nofun
  have roles : [Role.body, .orelse, .finalbody].Pairwise (fun one other => one ≠ other) := by decide
  rw [statementLists, List.pairwise_append, List.pairwise_map, List.pairwise_map]
  refine ⟨roles.imp ?_, parts.imp_of_mem ?_, ?_⟩
  · intro one other differs
    apply distinct.apart_of_children
    intro left isLeft right isRight
    obtain ⟨isOne, leftRole⟩ := mem_field.mp isLeft
    obtain ⟨isOther, rightRole⟩ := mem_field.mp isRight
    refine ⟨left, isOne, right, isOther, ?_, self_mem_nodes left, self_mem_nodes right⟩
    rintro rfl
    exact differs (leftRole.symm.trans rightRole)
  · intro one other isOne isOther differs
    apply distinct.apart_of_children
    intro left isLeft right isRight
    exact ⟨one, (isPart one isOne).1, other, (isPart other isOther).1, differs,
      child_mem_nodes (mem_field.mp isLeft).1, child_mem_nodes (mem_field.mp isRight).1⟩
  · intro first isField second isBody
    obtain ⟨role, block, rfl⟩ := List.mem_map.mp isField
    obtain ⟨part, member, rfl⟩ := List.mem_map.mp isBody
    apply distinct.apart_of_children
    intro left isLeft right isRight
    obtain ⟨isChild, leftRole⟩ := mem_field.mp isLeft
    refine ⟨left, isChild, part, (isPart part member).1, ?_, self_mem_nodes left,
      child_mem_nodes (mem_field.mp isRight).1⟩
    rintro rfl
    have other := (isPart left member).2
    rw [leftRole] at other
    simp only [List.mem_cons, List.not_mem_nil, or_false] at block
    rcases block with rfl | rfl | rfl <;> cases other

/-- The statements of each statement list of a construct lie within the span of the construct. -/
def NestedSpans (tree : Node) : Prop :=
  ∀ construct ∈ tree.nodes, ∀ outer ∈ construct.span, ∀ list ∈ construct.statementLists,
    ∀ statement ∈ list, ∀ inner ∈ statement.span, outer.contains inner = true

instance (tree : Node) : Decidable tree.NestedSpans :=
  inferInstanceAs (Decidable (∀ construct ∈ tree.nodes, ∀ outer ∈ construct.span,
    ∀ list ∈ construct.statementLists, ∀ statement ∈ list, ∀ inner ∈ statement.span, _ = _))

/-- A statement lies in a later statement list of a construct than a run of statements. -/
def LiesBehind (construct : Node) (run : List Node) (statement : Node) : Prop :=
  ∃ taken left, List.Sublist [taken, left] construct.statementLists ∧
    (∀ chosen ∈ run, ∃ outer ∈ taken, chosen ∈ outer.nodes) ∧
      ∃ outer ∈ left, statement ∈ outer.nodes

end Node

namespace Selection

variable {tree : Node} {selection : Span}

theorem touches_of_contains {outer inner : Span} (contained : outer.contains inner = true)
    (touched : touches inner selection = true) : touches outer selection = true := by
  rw [Span.contains, Bool.and_eq_true, decide_eq_true_eq, decide_eq_true_eq] at contained
  obtain ⟨before, behind⟩ := contained
  apply touches_iff.mpr
  rcases touches_iff.mp touched with ⟨empty, left, right⟩ | ⟨wide, left, right⟩
  · exact Or.inl ⟨empty, Position.le_trans before left, Position.le_trans right behind⟩
  · exact Or.inr ⟨wide, Position.lt_of_le_of_lt before left, Position.lt_of_lt_of_le right behind⟩

theorem hits_of_inside {outer statement : Node} (wellFormed : tree.WellFormed)
    (nested : tree.NestedSpans) (within : outer ∈ tree.nodes)
    (fitting : outer.fits .statement = true) (inside : statement ∈ outer.nodes)
    (isStatement : statement.isStatement = true) (hit : hits selection statement = true) :
    hits selection outer = true := by
  induction outer using Node.strongInduction with
  | step form info children induction =>
      rcases Node.mem_nodes_mk.mp inside with rfl | ⟨child, isChild, below⟩
      · exact hit
      · obtain ⟨list, listed, inner, member, deeper⟩ :=
          wellFormed.exists_listed within isChild below isStatement
        obtain ⟨part, isPart, inPart⟩ := Node.exists_child_of_listed listed member
        have innerHit := induction part isPart inner inPart
          (Node.nodes_trans (Node.mem_nodes_of_listed listed member) within)
          (wellFormed.fits_of_listed within listed member) deeper
        obtain ⟨innerSpan, innerPlaced, touched⟩ := exists_span_of_hits innerHit
        obtain ⟨span, placed⟩ := Option.isSome_iff_exists.mp (Node.span_isSome_of_fits fitting)
        have contained := nested _ within span placed list listed inner member innerSpan innerPlaced
        rw [hits, placed]
        exact touches_of_contains contained touched

theorem hits_of_listed {construct outer statement : Node} {list : List Node}
    (wellFormed : tree.WellFormed) (nested : tree.NestedSpans) (within : construct ∈ tree.nodes)
    (listed : list ∈ construct.statementLists) (member : outer ∈ list)
    (inside : statement ∈ outer.nodes) (isStatement : statement.isStatement = true)
    (hit : hits selection statement = true) : hits selection outer = true :=
  hits_of_inside wellFormed nested
    (Node.nodes_trans (Node.mem_nodes_of_listed listed member) within)
    (wellFormed.fits_of_listed within listed member) inside isStatement hit

/-- The list that a selection is followed into lies in the list where it starts. -/
theorem Descends.lies_below {list target : List Node} (descends : Descends selection list target) :
    ∀ statement ∈ target, ∃ outer ∈ list, statement ∈ outer.nodes := by
  induction descends with
  | stay => exact fun statement member => ⟨statement, member, Node.self_mem_nodes statement⟩
  | @into list inner target only before after one apart lists none here descends induction =>
      intro statement member
      obtain ⟨outer, isOuter, inside⟩ := induction statement member
      have listed : inner ∈ only.statementLists := by simp [lists]
      exact ⟨only, mem_of_only one,
        Node.nodes_trans inside (Node.mem_nodes_of_listed listed isOuter)⟩

/-- A touched simple statement in the list where a selection starts is selected, unless it lies
behind what is selected. -/
theorem Descends.covered_or_behind {list target : List Node} {statement : Node}
    (wellFormed : tree.WellFormed) (nested : tree.NestedSpans)
    (descends : Descends selection list target)
    (within : ∃ construct ∈ tree.nodes, list ∈ construct.statementLists)
    (below : ∃ outer ∈ list, statement ∈ outer.nodes) (isStatement : statement.isStatement = true)
    (simple : statement.form.isCompound = false) (hit : hits selection statement = true) :
    (∃ chosen ∈ target.filter (hits selection), statement ∈ chosen.nodes) ∨
      ∃ construct ∈ tree.nodes,
        construct.LiesBehind (target.filter (hits selection)) statement := by
  induction descends with
  | stay =>
      obtain ⟨construct, inside, listed⟩ := within
      obtain ⟨outer, member, deeper⟩ := below
      have touched := hits_of_listed wellFormed nested inside listed member deeper isStatement hit
      exact Or.inl ⟨outer, List.mem_filter.mpr ⟨member, touched⟩, deeper⟩
  | @into list inner target only before after one apart lists none here descends induction =>
      obtain ⟨construct, inside, listed⟩ := within
      obtain ⟨outer, member, deeper⟩ := below
      have touched := hits_of_listed wellFormed nested inside listed member deeper isStatement hit
      obtain rfl : outer = only := by
        rw [← List.mem_singleton, ← one]
        exact List.mem_filter.mpr ⟨member, touched⟩
      have inTree := Node.nodes_trans (Node.mem_nodes_of_listed listed member) inside
      have innerListed : inner ∈ outer.statementLists := by simp [lists]
      rcases Node.mem_nodes_iff.mp deeper with rfl | ⟨child, isChild, inChild⟩
      · -- A simple statement has no statement list to go on in.
        obtain ⟨held, isHeld, _⟩ := here
        have compound := wellFormed.isCompound_of_listed inTree isStatement innerListed isHeld
        exact absurd (simple.symm.trans compound) Bool.false_ne_true
      · obtain ⟨found, foundListed, holder, isHolder, inHolder⟩ :=
          wellFormed.exists_listed inTree isChild inChild isStatement
        have holderHit :=
          hits_of_listed wellFormed nested inTree foundListed isHolder inHolder isStatement hit
        rw [lists] at foundListed
        rcases List.mem_append.mp foundListed with early | late
        · exact absurd ⟨holder, isHolder, holderHit⟩ (none found early)
        rcases List.mem_cons.mp late with rfl | late
        · exact induction ⟨outer, inTree, innerListed⟩ ⟨holder, isHolder, inHolder⟩
        · refine Or.inr ⟨outer, inTree, inner, found, ?_, ?_, holder, isHolder, inHolder⟩
          · rw [lists]
            exact ((List.singleton_sublist.mpr late).cons_cons inner).trans
              (List.sublist_append_right before (inner :: after))
          · intro chosen isChosen
            exact descends.lies_below chosen (List.mem_of_mem_filter isChosen)

end Selection

namespace Region

/-- A simple statement that a selection touches lies in one of the statements that the selection
stands for, unless it lies in a later statement list of a construct than they do. -/
theorem select_leaves_out_behind {path : String} {tree : Node} {selection : Span} {region : Region}
    (wellFormed : tree.WellFormed) (nested : tree.NestedSpans)
    (selected : select path tree selection = .ok region) {statement : Node}
    (inside : statement ∈ tree.nodes) (isStatement : statement.isStatement = true)
    (simple : statement.form.isCompound = false)
    (hit : Selection.hits selection statement = true) :
    (∃ chosen ∈ region.nodes, statement ∈ chosen.nodes) ↔
      ¬∃ construct ∈ tree.nodes, construct.LiesBehind region.nodes statement := by
  constructor
  · rintro ⟨chosen, isChosen, inChosen⟩
      ⟨construct, isConstruct, taken, left, inOrder, fromTaken, outer, isOuter, inOuter⟩
    have apart := List.pairwise_iff_forall_sublist.mp
      (wellFormed.distinct.of_mem isConstruct).statementLists_apart inOrder
    obtain ⟨first, isFirst, below⟩ := fromTaken chosen isChosen
    exact apart first isFirst outer isOuter statement (Node.nodes_trans inChosen below) inOuter
  · intro notBehind
    obtain ⟨child, isTop, below⟩ := wellFormed.exists_top inside isStatement
    have root := Node.self_mem_nodes tree
    have listed : tree.field .body ∈ tree.statementLists := tree.field_mem_statementLists rfl
    have touched : Selection.Touched selection (tree.field .body) := ⟨child, isTop,
      Selection.hits_of_listed wellFormed nested root listed isTop below isStatement hit⟩
    obtain ⟨found, parent, role, result, _, _, _, _, descends, _, nodes, _⟩ :=
      select_of_touched path wellFormed touched
    rw [selected] at result
    cases result
    rw [nodes] at notBehind ⊢
    exact (descends.covered_or_behind wellFormed nested ⟨tree, root, listed⟩ ⟨child, isTop, below⟩
      isStatement simple hit).resolve_right notBehind

def branchStatement : Node :=
  .mk .assign ⟨3, .body, some ⟨⟨2, 4⟩, ⟨2, 9⟩⟩⟩ [
    .mk (.name "x" .store) ⟨4, .target, some ⟨⟨2, 4⟩, ⟨2, 5⟩⟩⟩ [],
    .mk (.constant .int "1") ⟨5, .value, some ⟨⟨2, 8⟩, ⟨2, 9⟩⟩⟩ []]

def elseStatement : Node :=
  .mk .assign ⟨6, .orelse, some ⟨⟨4, 4⟩, ⟨4, 9⟩⟩⟩ [
    .mk (.name "y" .store) ⟨7, .target, some ⟨⟨4, 4⟩, ⟨4, 5⟩⟩⟩ [],
    .mk (.constant .int "2") ⟨8, .value, some ⟨⟨4, 8⟩, ⟨4, 9⟩⟩⟩ []]

/-- A module that is `if c: x = 1 else: y = 2`. -/
def twoBranches : Node :=
  .mk .module ⟨0, .root, none⟩ [
    .mk .ifStmt ⟨1, .body, some ⟨⟨1, 0⟩, ⟨4, 9⟩⟩⟩ [
      .mk (.name "c" .load) ⟨2, .test, some ⟨⟨1, 3⟩, ⟨1, 4⟩⟩⟩ [],
      branchStatement, elseStatement]]

/-- The text from the start of the first branch to the end of the second one. -/
def bothBranches : Span :=
  ⟨⟨2, 4⟩, ⟨4, 9⟩⟩

private theorem elseStatement_mem_nodes : elseStatement ∈ twoBranches.nodes := by
  apply Node.nodes_of_child List.mem_cons_self
  exact Node.child_mem_nodes (List.mem_cons_of_mem _ (List.mem_cons_of_mem _ List.mem_cons_self))

private theorem select_bothBranches :
    select "mod.py" twoBranches bothBranches =
      .ok ⟨"mod.py", some ⟨⟨2, 4⟩, ⟨2, 9⟩⟩, [branchStatement]⟩ := by
  rfl

/-- The statement on the other branch lies behind what is selected. -/
theorem select_leaves_out_behind_else :
    twoBranches.WellFormed ∧ twoBranches.NestedSpans ∧ elseStatement ∈ twoBranches.nodes ∧
      elseStatement.isStatement = true ∧ elseStatement.form.isCompound = false ∧
      Selection.hits bothBranches elseStatement = true ∧
      ∃ region, select "mod.py" twoBranches bothBranches = .ok region ∧
        ((∃ chosen ∈ region.nodes, elseStatement ∈ chosen.nodes) ↔
          ¬∃ construct ∈ twoBranches.nodes, construct.LiesBehind region.nodes elseStatement) := by
  have wellFormed : twoBranches.WellFormed := ⟨by decide, by decide⟩
  have nested : twoBranches.NestedSpans := by decide
  have hit : Selection.hits bothBranches elseStatement = true := by decide
  exact ⟨wellFormed, nested, elseStatement_mem_nodes, rfl, rfl, hit, _, select_bothBranches,
    select_leaves_out_behind wellFormed nested select_bothBranches elseStatement_mem_nodes
      rfl rfl hit⟩

/-- A selection of text on both branches stands for the statement of the first branch alone. -/
theorem select_drops_else :
    twoBranches.WellFormed ∧ twoBranches.NestedSpans ∧ twoBranches.SourceOrdered ∧
      ¬∀ region, select "mod.py" twoBranches bothBranches = .ok region →
        ∀ statement ∈ twoBranches.nodes, statement.isStatement = true →
          statement.form.isCompound = false → Selection.hits bothBranches statement = true →
            ∃ chosen ∈ region.nodes, statement ∈ chosen.nodes := by
  refine ⟨⟨by decide, by decide⟩, by decide, by decide, ?_⟩
  intro claimed
  obtain ⟨chosen, isChosen, inChosen⟩ :=
    claimed _ select_bothBranches elseStatement elseStatement_mem_nodes rfl rfl (by decide)
  rw [List.mem_singleton.mp isChosen] at inChosen
  have numbers : elseStatement.id ∈ branchStatement.ids := List.mem_map.mpr ⟨_, inChosen, rfl⟩
  exact absurd numbers (by decide)

end Region
end SafeRefactor
