import SafeRefactor.Proofs.LiveIn
import SafeRefactor.Region.Selection

/-!
# The run that a selection stands for

A selection is followed from the statements of the module into the first statement list that
it touches, as long as it touches one statement of a list and does not contain it.  The run is
what it touches of the last list on this way.  Where the statements of a list stand one behind
the other, the run is a segment of the list.
-/

namespace SafeRefactor

/-- What a test keeps is a front part of the list if it keeps everything before what it keeps. -/
theorem filter_prefix {α : Type} {test : α → Bool} {items : List α}
    (downward : items.Pairwise (fun first second => test second = true → test first = true)) :
    items.filter test <+: items := by
  induction items with
  | nil => exact List.prefix_rfl
  | cons first rest induction =>
      obtain ⟨before, others⟩ := List.pairwise_cons.mp downward
      by_cases kept : test first = true
      · rw [List.filter_cons_of_pos kept]
        exact (List.prefix_cons_inj first).mpr (induction others)
      · have none : rest.filter test = [] := by
          apply List.filter_eq_nil_iff.mpr
          intro second member passes
          exact kept (before second member passes)
        rw [List.filter_cons_of_neg kept, none]
        exact List.nil_prefix

private theorem filter_infix {α : Type} {test : α → Bool} {items : List α}
    (between : ∀ first middle last, List.Sublist [first, middle, last] items →
      test first = true → test last = true → test middle = true) :
    items.filter test <:+: items := by
  induction items with
  | nil => exact List.infix_rfl
  | cons first rest induction =>
      by_cases kept : test first = true
      · rw [List.filter_cons_of_pos kept]
        apply List.IsPrefix.isInfix
        apply (List.prefix_cons_inj first).mpr
        apply filter_prefix
        apply List.pairwise_iff_forall_sublist.mpr
        intro middle last inOrder passes
        exact between first middle last (inOrder.cons_cons first) kept passes
      · rw [List.filter_cons_of_neg kept]
        apply List.infix_cons
        apply induction
        intro one two three inOrder
        exact between one two three (inOrder.cons first)

namespace Node

/-- The statement lists of a construct and of its handlers and arms, in the order in which a
selection looks at them. -/
def statementLists (construct : Node) : List (List Node) :=
  [Role.body, .orelse, .finalbody].map construct.field ++
    (construct.field .handler ++ construct.field .arm).map (fun part => part.field .body)

theorem mem_statementLists {construct : Node} {list : List Node} :
    list ∈ construct.statementLists ↔
      (∃ role : Role, role.isBlock = true ∧ list = construct.field role) ∨
        ∃ part ∈ construct.children, (part.role = .handler ∨ part.role = .arm) ∧
          list = part.field .body := by
  have roles : ∀ role : Role, role ∈ [Role.body, .orelse, .finalbody] ↔ role.isBlock = true := by
    intro role
    cases role <;> decide
  simp only [statementLists, List.mem_append, List.mem_map, roles, mem_field]
  constructor
  · rintro (⟨role, block, rfl⟩ | ⟨part, ⟨isChild, plays⟩ | ⟨isChild, plays⟩, rfl⟩)
    · exact Or.inl ⟨role, block, rfl⟩
    · exact Or.inr ⟨part, isChild, Or.inl plays, rfl⟩
    · exact Or.inr ⟨part, isChild, Or.inr plays, rfl⟩
  · rintro (⟨role, block, rfl⟩ | ⟨part, isChild, plays | plays, rfl⟩)
    · exact Or.inl ⟨role, block, rfl⟩
    · exact Or.inr ⟨part, Or.inl ⟨isChild, plays⟩, rfl⟩
    · exact Or.inr ⟨part, Or.inr ⟨isChild, plays⟩, rfl⟩

theorem field_mem_statementLists (construct : Node) {role : Role} (block : role.isBlock = true) :
    construct.field role ∈ construct.statementLists :=
  mem_statementLists.mpr (Or.inl ⟨role, block, rfl⟩)

variable {tree construct statement : Node} {list : List Node}

/-- A statement list of a construct is a list of a node at or in the construct. -/
theorem exists_field_of_listed (listed : list ∈ construct.statementLists) :
    ∃ parent ∈ construct.nodes, ∃ role : Role, role.isBlock = true ∧ list = parent.field role := by
  rcases mem_statementLists.mp listed with ⟨role, block, rfl⟩ | ⟨part, isChild, _, rfl⟩
  · exact ⟨construct, self_mem_nodes construct, role, block, rfl⟩
  · exact ⟨part, child_mem_nodes isChild, .body, rfl, rfl⟩

theorem exists_child_of_listed (listed : list ∈ construct.statementLists)
    (member : statement ∈ list) : ∃ child ∈ construct.children, statement ∈ child.nodes := by
  rcases mem_statementLists.mp listed with ⟨role, _, rfl⟩ | ⟨part, isChild, _, rfl⟩
  · exact ⟨statement, (mem_field.mp member).1, self_mem_nodes statement⟩
  · exact ⟨part, isChild, child_mem_nodes (mem_field.mp member).1⟩

theorem mem_nodes_of_listed (listed : list ∈ construct.statementLists) (member : statement ∈ list) :
    statement ∈ construct.nodes := by
  obtain ⟨child, isChild, below⟩ := exists_child_of_listed listed member
  exact nodes_of_child isChild below

/-- What stands in a statement list is a statement of the tree. -/
theorem WellFormed.fits_of_listed (wellFormed : tree.WellFormed) (inside : construct ∈ tree.nodes)
    (listed : list ∈ construct.statementLists) (member : statement ∈ list) :
    statement.fits .statement = true := by
  obtain ⟨parent, below, role, block, rfl⟩ := exists_field_of_listed listed
  have whole : tree.Siblings parent role (parent.field role) :=
    ⟨nodes_trans below inside, block, List.infix_rfl⟩
  exact whole.fits wellFormed member

end Node

namespace Selection

variable {selection : Span}

/-- The statements selected of a statement list. -/
def chosen (selection : Span) (list : List Node) : List Node :=
  settle selection (list.filter (hits selection))
    (((list.find? (hits selection)).map (inside selection)).getD [])

/-- The first of some lists that is not empty. -/
def firstFound (found : List (List Node)) : List Node :=
  (found.find? (fun list => !list.isEmpty)).getD []

private theorem firstFound_cons (list : List Node) (others : List (List Node)) :
    firstFound (list :: others) = if !list.isEmpty then list else firstFound others := by
  unfold firstFound
  rw [List.find?_cons]
  cases list <;> rfl

private theorem hitsIn_eq (selection : Span) (role : Role) (node : Node) :
    hitsIn selection role node.children = (node.field role).filter (hits selection) := by
  rw [hitsIn, Node.field, List.filter_filter]
  congr 1
  funext child
  exact Bool.and_comm _ _

private theorem insideFirst_eq (selection : Span) (role : Role) (children : List Node) :
    insideFirst selection role children =
      (((children.filter (fun child => child.role = role)).find? (hits selection)).map
        (inside selection)).getD [] := by
  induction children with
  | nil => rfl
  | cons child rest induction =>
      rw [insideFirst, List.filter_cons]
      by_cases plays : child.role = role
      · by_cases touched : hits selection child = true
        · simp [plays, touched]
        · simp [plays, touched, induction]
      · simp [plays, induction]

private theorem chosen_field (selection : Span) (role : Role) (node : Node) :
    settle selection (hitsIn selection role node.children)
        (insideFirst selection role node.children) = chosen selection (node.field role) := by
  rw [hitsIn_eq, insideFirst_eq, chosen, Node.field]

private theorem insideBodies_eq (selection : Span) (role : Role) (parts : List Node) :
    insideBodies selection role parts =
      firstFound ((parts.filter (fun part => part.role = role)).map
        (fun part => chosen selection (part.field .body))) := by
  induction parts with
  | nil => rfl
  | cons part rest induction =>
      obtain ⟨form, info, children⟩ := part
      have body := chosen_field selection .body (.mk form info children)
      rw [Node.children_mk] at body
      rw [insideBodies, List.filter_cons, Node.role_mk]
      by_cases plays : info.role = role
      · simp only [plays, if_true, decide_true, List.map_cons, firstFound_cons, body, induction]
        cases chosen selection (Node.field (.mk form info children) .body) <;> rfl
      · simp [plays, induction]

private theorem firstFound_append (left right : List (List Node)) :
    firstFound (left ++ right) =
      if !(firstFound left).isEmpty then firstFound left else firstFound right := by
  induction left with
  | nil => rfl
  | cons list others induction =>
      rw [List.cons_append, firstFound_cons, firstFound_cons, induction]
      cases list <;> rfl

/-- A selection inside a construct is one in the first of its statement lists that it touches. -/
theorem inside_eq (selection : Span) (construct : Node) :
    inside selection construct = firstFound (construct.statementLists.map (chosen selection)) := by
  have body := chosen_field selection .body construct
  have orelse := chosen_field selection .orelse construct
  have finalbody := chosen_field selection .finalbody construct
  have parts : ∀ role, insideBodies selection role construct.children =
      firstFound ((construct.field role).map (fun part => chosen selection (part.field .body))) :=
    fun role => insideBodies_eq selection role construct.children
  have handlers := parts .handler
  have arms := parts .arm
  obtain ⟨form, info, children⟩ := construct
  simp only [Node.children_mk] at body orelse finalbody handlers arms
  rw [inside, body, orelse, finalbody, handlers, arms]
  simp only [Node.statementLists, List.map_cons, List.map_nil, List.map_append, List.map_map,
    List.cons_append, List.nil_append, firstFound_cons, firstFound_append, Function.comp_def]

/-- Whether a selection touches a statement of a list. -/
def Touched (selection : Span) (list : List Node) : Prop :=
  ∃ statement ∈ list, hits selection statement = true

private theorem filter_eq_nil {list : List Node} (untouched : ¬Touched selection list) :
    list.filter (hits selection) = [] :=
  List.filter_eq_nil_iff.mpr (fun statement member hit => untouched ⟨statement, member, hit⟩)

theorem mem_of_only {list : List Node} {only : Node} (one : list.filter (hits selection) = [only]) :
    only ∈ list :=
  List.mem_of_mem_filter (one ▸ List.mem_singleton_self only)

private theorem filter_ne_nil {list : List Node} (touched : Touched selection list) :
    list.filter (hits selection) ≠ [] := by
  obtain ⟨statement, member, hit⟩ := touched
  exact List.ne_nil_of_mem (List.mem_filter.mpr ⟨member, hit⟩)

theorem chosen_eq_nil {list : List Node} (untouched : ¬Touched selection list) :
    chosen selection list = [] := by
  rw [chosen, filter_eq_nil untouched]
  rfl

theorem chosen_of_only {list : List Node} {only : Node}
    (one : list.filter (hits selection) = [only]) :
    chosen selection list =
      if encloses selection only || (inside selection only).isEmpty then [only]
      else inside selection only := by
  have found : list.find? (hits selection) = some only := by
    rw [← List.head?_filter, one, List.head?_cons]
  rw [chosen, one, found, Option.map_some, Option.getD_some, settle]

/-- A list of which a selection touches several statements has all of them selected. -/
theorem chosen_of_several {list others : List Node} {first second : Node}
    (several : list.filter (hits selection) = first :: second :: others) :
    chosen selection list = first :: second :: others := by
  rw [chosen, several, settle]
  rintro only ⟨⟩

theorem chosen_ne_nil {list : List Node} (touched : Touched selection list) :
    chosen selection list ≠ [] := by
  have some := filter_ne_nil touched
  rcases found : list.filter (hits selection) with _ | ⟨first, _ | ⟨second, others⟩⟩
  · exact absurd found some
  · rw [chosen_of_only found]
    split
    · exact List.cons_ne_nil _ _
    · next further =>
        simp only [Bool.or_eq_true, List.isEmpty_iff, not_or] at further
        exact further.2
  · rw [chosen_of_several found]
    exact List.cons_ne_nil _ _

theorem firstFound_eq_nil {lists : List (List Node)}
    (untouched : ∀ list ∈ lists, ¬Touched selection list) :
    firstFound (lists.map (chosen selection)) = [] := by
  induction lists with
  | nil => rfl
  | cons list others induction =>
      obtain ⟨here, further⟩ := List.forall_mem_cons.mp untouched
      rw [List.map_cons, firstFound_cons, chosen_eq_nil here]
      exact induction further

/-- A selection finds what it finds in the first list that it touches. -/
theorem firstFound_eq_chosen {before after : List (List Node)} {list : List Node}
    (untouched : ∀ list ∈ before, ¬Touched selection list) (touched : Touched selection list) :
    firstFound ((before ++ list :: after).map (chosen selection)) = chosen selection list := by
  have here := chosen_ne_nil touched
  rw [List.map_append, firstFound_append, firstFound_eq_nil untouched, List.map_cons,
    firstFound_cons]
  simp [here]

/-- Some list is touched, or the lists are cut at the first one that is. -/
theorem first_touched (selection : Span) (lists : List (List Node)) :
    (∀ list ∈ lists, ¬Touched selection list) ∨
      ∃ before list after, lists = before ++ list :: after ∧
        (∀ list ∈ before, ¬Touched selection list) ∧ Touched selection list := by
  induction lists with
  | nil => exact Or.inl (fun list member => absurd member List.not_mem_nil)
  | cons list others induction =>
      by_cases touched : Touched selection list
      · exact Or.inr ⟨[], list, others, rfl, fun _ isNone => absurd isNone List.not_mem_nil,
          touched⟩
      · rcases induction with none | ⟨before, found, after, rfl, none, some⟩
        · exact Or.inl (List.forall_mem_cons.mpr ⟨touched, none⟩)
        · exact Or.inr ⟨list :: before, found, after, rfl,
            List.forall_mem_cons.mpr ⟨touched, none⟩, some⟩

/-- A selection is followed from one statement list into another: as long as it touches one
statement of a list and does not contain it, it goes on in the first statement list of that
statement that it touches. -/
inductive Descends (selection : Span) : List Node → List Node → Prop where
  | stay {list : List Node} : Descends selection list list
  | into {list inner target : List Node} {only : Node} {before after : List (List Node)} :
      list.filter (hits selection) = [only] → encloses selection only = false →
      only.statementLists = before ++ inner :: after →
      (∀ list ∈ before, ¬Touched selection list) → Touched selection inner →
      Descends selection inner target → Descends selection list target

/-- A selection goes no further than a list: when it touches only one statement of it and does not
contain this one, it touches nothing in the statement lists of it. -/
def Settled (selection : Span) (list : List Node) : Prop :=
  ∀ only, list.filter (hits selection) = [only] → encloses selection only = false →
    ∀ inner ∈ only.statementLists, ¬Touched selection inner

theorem chosen_of_settled {list : List Node} (settled : Settled selection list) :
    chosen selection list = list.filter (hits selection) := by
  rcases found : list.filter (hits selection) with _ | ⟨only, _ | ⟨second, others⟩⟩
  · rw [chosen, found]
    rfl
  · rw [chosen_of_only found]
    by_cases contained : encloses selection only = true
    · rw [contained, Bool.true_or, if_pos rfl]
    · have nothing := firstFound_eq_nil (settled only found (by simpa using contained))
      rw [inside_eq, nothing, List.isEmpty_nil, Bool.or_true, if_pos rfl]
  · rw [chosen_of_several found]

/-- A selection that touches a statement list of a construct is followed from there into the list
whose touched statements are selected. -/
theorem exists_descent {construct : Node} {list : List Node}
    (listed : list ∈ construct.statementLists) (touched : Touched selection list) :
    ∃ target, Descends selection list target ∧ Settled selection target ∧
      Touched selection target ∧ chosen selection list = target.filter (hits selection) := by
  induction construct using Node.strongInduction generalizing list with
  | step form info children induction =>
      by_cases settled : Settled selection list
      · exact ⟨list, .stay, settled, touched, chosen_of_settled settled⟩
      · obtain ⟨only, one, apart, further⟩ : ∃ only, list.filter (hits selection) = [only] ∧
            encloses selection only = false ∧
            ¬∀ inner ∈ only.statementLists, ¬Touched selection inner := by
          simpa only [Settled, not_forall, exists_prop] using settled
        rcases first_touched selection only.statementLists with
          none | ⟨before, inner, after, lists, none, here⟩
        · exact absurd none further
        · obtain ⟨child, isChild, below⟩ :=
            Node.exists_child_of_listed listed (mem_of_only one)
          have innerListed : inner ∈ only.statementLists := by simp [lists]
          obtain ⟨target, descends, ends, reached, same⟩ :=
            induction child isChild only below innerListed here
          refine ⟨target, .into one apart lists none here descends, ends, reached, ?_⟩
          rw [chosen_of_only one, inside_eq, lists, firstFound_eq_chosen none here, apart,
            Bool.false_or, if_neg (by simpa using chosen_ne_nil here), same]

theorem Descends.exists_field {tree : Node} {list target : List Node}
    (descends : Descends selection list target)
    (listed : ∃ parent ∈ tree.nodes, ∃ role : Role,
      role.isBlock = true ∧ list = parent.field role) :
    ∃ parent ∈ tree.nodes, ∃ role : Role, role.isBlock = true ∧ target = parent.field role := by
  induction descends with
  | stay => exact listed
  | @into list inner target only before after found apart lists none here descends induction =>
      obtain ⟨parent, inside, role, block, rfl⟩ := listed
      have onlyInside : only ∈ tree.nodes := Node.nodes_trans
        (Node.child_mem_nodes (Node.mem_field.mp (mem_of_only found)).1) inside
      have innerListed : inner ∈ only.statementLists := by simp [lists]
      obtain ⟨holder, below, part, partBlock, rfl⟩ := Node.exists_field_of_listed innerListed
      exact induction ⟨holder, Node.nodes_trans below onlyInside, part, partBlock, rfl⟩

end Selection

/-- The statements of each statement list stand one behind the other in the text. -/
def Node.SourceOrdered (tree : Node) : Prop :=
  ∀ construct ∈ tree.nodes, ∀ list ∈ construct.statementLists,
    (∀ statement ∈ list, ∀ span ∈ statement.span, span.start ≤ span.stop) ∧
      list.Pairwise (fun first second =>
        ∀ earlier ∈ first.span, ∀ later ∈ second.span, earlier.stop ≤ later.start)

instance (tree : Node) : Decidable tree.SourceOrdered :=
  inferInstanceAs (Decidable (∀ construct ∈ tree.nodes, ∀ list ∈ construct.statementLists, _ ∧ _))

namespace Selection

variable {selection : Span}

theorem exists_span_of_hits {statement : Node} (hit : hits selection statement = true) :
    ∃ span, statement.span = some span ∧ touches span selection = true := by
  unfold hits at hit
  split at hit
  · next span placed => exact ⟨span, placed, hit⟩
  · cases hit

/-- An empty selection touches a span that it lies in or borders on, any other one a span with
which it shares text. -/
theorem touches_iff {span : Span} :
    touches span selection = true ↔
      (selection.isEmpty = true ∧ span.start ≤ selection.start ∧ selection.start ≤ span.stop) ∨
        (selection.isEmpty = false ∧ span.start < selection.stop ∧
          selection.start < span.stop) := by
  unfold touches
  cases selection.isEmpty <;> simp [Span.intersects]

theorem touches_between {first middle last : Span} (sound : middle.start ≤ middle.stop)
    (behind : first.stop ≤ middle.start) (ahead : middle.stop ≤ last.start)
    (hitFirst : touches first selection = true) (hitLast : touches last selection = true) :
    touches middle selection = true := by
  have left : middle.start ≤ last.start := Position.le_trans sound ahead
  have right : first.stop ≤ middle.stop := Position.le_trans behind sound
  rcases touches_iff.mp hitFirst with ⟨empty, _, reached⟩ | ⟨wide, _, after⟩
  · rcases touches_iff.mp hitLast with ⟨_, beyond, _⟩ | ⟨wide, _⟩
    · exact touches_iff.mpr
        (Or.inl ⟨empty, Position.le_trans left beyond, Position.le_trans reached right⟩)
    · exact absurd (empty.symm.trans wide) nofun
  · rcases touches_iff.mp hitLast with ⟨empty, _⟩ | ⟨_, before, _⟩
    · exact absurd (empty.symm.trans wide) nofun
    · exact touches_iff.mpr
        (Or.inr ⟨wide, Position.lt_of_le_of_lt left before, Position.lt_of_lt_of_le after right⟩)

/-- The touched statements of an ordered list are next to each other. -/
theorem touched_infix {tree construct : Node} {list : List Node} (wellFormed : tree.WellFormed)
    (ordered : tree.SourceOrdered) (inside : construct ∈ tree.nodes)
    (listed : list ∈ construct.statementLists) : list.filter (hits selection) <:+: list := by
  obtain ⟨sound, apart⟩ := ordered construct inside list listed
  apply filter_infix
  intro first middle last inOrder hitFirst hitLast
  obtain ⟨start, startPlaced, touchesStart⟩ := exists_span_of_hits hitFirst
  obtain ⟨stop, stopPlaced, touchesStop⟩ := exists_span_of_hits hitLast
  have member : middle ∈ list := inOrder.subset (by simp)
  obtain ⟨span, spanPlaced⟩ := Option.isSome_iff_exists.mp
    (Node.span_isSome_of_fits (wellFormed.fits_of_listed inside listed member))
  have sorted := apart.sublist inOrder
  simp only [List.pairwise_cons, List.mem_cons, List.not_mem_nil, or_false, forall_eq_or_imp,
    forall_eq] at sorted
  have behind := sorted.1.1 start startPlaced span spanPlaced
  have ahead := sorted.2.1 span spanPlaced stop stopPlaced
  rw [hits, spanPlaced]
  exact touches_between (sound middle member span spanPlaced) behind ahead touchesStart touchesStop

theorem statements_eq (selection : Span) (tree : Node) :
    statements selection tree = chosen selection (tree.field .body) :=
  chosen_field selection .body tree

end Selection

namespace Region

variable {path : String} {selection : Span}

/-- A region reaches from the start of its first node to the end of its last one. -/
def SpansNodes (region : Region) : Prop :=
  ∃ first last start stop, region.nodes.head? = some first ∧ region.nodes.getLast? = some last ∧
    first.span = some start ∧ last.span = some stop ∧ region.span = some ⟨start.start, stop.stop⟩

theorem ofStatements_spans {run : List Node} (some : run ≠ [])
    (placed : ∀ statement ∈ run, statement.span.isSome = true) :
    ∃ region, ofStatements path run = .ok region ∧ region.path = path ∧ region.nodes = run ∧
      region.SpansNodes := by
  have head := List.head?_eq_some_head some
  have last := List.getLast?_eq_some_getLast some
  obtain ⟨start, startPlaced⟩ := Option.isSome_iff_exists.mp (placed _ (List.head_mem some))
  obtain ⟨stop, stopPlaced⟩ := Option.isSome_iff_exists.mp (placed _ (List.getLast_mem some))
  refine ⟨⟨path, _, run⟩, ?_, rfl, rfl, _, _, start, stop, head, last, startPlaced, stopPlaced, rfl⟩
  simp only [ofStatements, head, last, startPlaced, stopPlaced]

/-- A region is the segment of a statement list that a selection touches. -/
structure Segment (tree : Node) (selection : Span) (parent : Node) (role : Role)
    (region : Region) : Prop where
  /-- The nodes stand next to each other in a statement list of the tree. -/
  siblings : tree.Siblings parent role region.nodes
  /-- They are the statements of the list that the selection touches. -/
  touched : region.nodes = (parent.field role).filter (Selection.hits selection)
  nonempty : region.nodes ≠ []
  spans : region.SpansNodes
  /-- When there is one of them and the selection does not contain it, the selection touches none
  of the statements in its statement lists. -/
  innermost : ∀ only, region.nodes = [only] → Selection.encloses selection only = false →
    ∀ list ∈ only.statementLists, ∀ statement ∈ list, Selection.hits selection statement = false

theorem select_of_untouched {tree : Node}
    (untouched : ¬Selection.Touched selection (tree.field .body)) :
    select path tree selection = .error .regionNotFound := by
  rw [select, Selection.statements_eq, Selection.chosen_eq_nil untouched]

/-- A selection that touches a statement of a module is followed into some statement list, and
stands for what it touches of that list. -/
theorem select_of_touched (path : String) {tree : Node} (wellFormed : tree.WellFormed)
    (touched : Selection.Touched selection (tree.field .body)) :
    ∃ region parent role, select path tree selection = .ok region ∧ region.path = path ∧
      region.SpansNodes ∧ parent ∈ tree.nodes ∧ role.isBlock = true ∧
      Selection.Descends selection (tree.field .body) (parent.field role) ∧
      Selection.Settled selection (parent.field role) ∧
      region.nodes = (parent.field role).filter (Selection.hits selection) ∧
      region.nodes ≠ [] := by
  obtain ⟨target, descends, settled, reached, same⟩ :=
    Selection.exists_descent (tree.field_mem_statementLists rfl) touched
  obtain ⟨parent, inside, role, block, rfl⟩ :=
    descends.exists_field ⟨tree, Node.self_mem_nodes tree, .body, rfl, rfl⟩
  have some := Selection.filter_ne_nil reached
  obtain ⟨region, built, samePath, nodes, spans⟩ := ofStatements_spans some
    (fun statement member => Node.span_isSome_of_fits (wellFormed.fits_of_listed inside
      (parent.field_mem_statementLists block) (List.mem_of_mem_filter member)))
  refine ⟨region, parent, role, ?_, samePath, spans, inside, block, descends, settled, nodes,
    nodes ▸ some⟩
  rw [select, Selection.statements_eq, same]
  split
  · next empty => exact absurd empty some
  · exact built

/-- A selection that touches no statement of a module is refused.  Any other one stands for the
segment of a statement list that it touches. -/
theorem select_is_segment {tree : Node} (wellFormed : tree.WellFormed)
    (ordered : tree.SourceOrdered) (selection : Span) :
    (select path tree selection = .error .regionNotFound ↔
        ∀ statement ∈ tree.field .body, Selection.hits selection statement = false) ∧
      ((∃ statement ∈ tree.field .body, Selection.hits selection statement = true) →
        ∃ region parent role, select path tree selection = .ok region ∧ region.path = path ∧
          region.Segment tree selection parent role) := by
  have untouched_iff : ¬Selection.Touched selection (tree.field .body) ↔
      ∀ statement ∈ tree.field .body, Selection.hits selection statement = false := by
    simp only [Selection.Touched, not_exists, not_and, Bool.not_eq_true]
  refine ⟨⟨?_, fun untouched => select_of_untouched (untouched_iff.mpr untouched)⟩, ?_⟩
  · intro failed
    apply untouched_iff.mp
    intro touched
    obtain ⟨region, _, _, found, _⟩ := select_of_touched path wellFormed touched
    rw [failed] at found
    cases found
  · intro touched
    obtain ⟨region, parent, role, found, samePath, spans, inside, block, _, settled, nodes, some⟩ :=
      select_of_touched path wellFormed touched
    have segment : region.nodes <:+: parent.field role := by
      rw [nodes]
      exact Selection.touched_infix wellFormed ordered inside
        (parent.field_mem_statementLists block)
    refine ⟨region, parent, role, found, samePath, ⟨inside, block, segment⟩, nodes, some, spans, ?_⟩
    intro only one apart list listedInner statement member
    have untouched := settled only (nodes ▸ one) apart list listedInner
    exact Bool.eq_false_iff.mpr (fun hit => untouched ⟨statement, member, hit⟩)

/-- A selection in the assignment on the branch of a function stands for the assignment. -/
theorem select_is_segment_branch :
    Model.branchModule.WellFormed ∧ Model.branchModule.SourceOrdered ∧
      ∃ region parent role,
        select "m.py" Model.branchModule ⟨⟨3, 10⟩, ⟨3, 12⟩⟩ = .ok region ∧ region.path = "m.py" ∧
          region.Segment Model.branchModule ⟨⟨3, 10⟩, ⟨3, 12⟩⟩ parent role := by
  have wellFormed : Model.branchModule.WellFormed := ⟨by decide, by decide⟩
  have ordered : Model.branchModule.SourceOrdered := by decide
  have touched : ∃ statement ∈ Model.branchModule.field .body,
      Selection.hits ⟨⟨3, 10⟩, ⟨3, 12⟩⟩ statement = true := by decide
  exact ⟨wellFormed, ordered,
    (select_is_segment wellFormed ordered ⟨⟨3, 10⟩, ⟨3, 12⟩⟩).2 touched⟩

end Region
end SafeRefactor
