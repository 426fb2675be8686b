import SafeRefactor.Proofs.Lineage
import SafeRefactor.Proofs.Resolution

/-!
# The scope of a parameter

The visit places a parameter twice: around its callable, where annotations are
evaluated, and then in the scope that the callable opens.  The last word counts.  An
event list whose last word on a node is known stays one when another such list follows,
so the word on a parameter is carried from its callable to the whole module.
-/

namespace SafeRefactor

/-- The scope in which an event places a node. -/
def Event.placement? (node : NodeId) : Event → Option NodeId
  | .places other scope => if other = node then some scope else none
  | _ => none

private theorem placements_concat (events : List Event) (event : Event) (node : NodeId) :
    (placements (events ++ [event]))[node]? =
      (event.placement? node).or (placements events)[node]? := by
  unfold placements
  rw [List.foldl_append, List.foldl_cons, List.foldl_nil]
  cases event with
  | places other scope =>
      simp only [Std.HashMap.getElem?_insert, Event.placement?, beq_iff_eq]
      split
      · rfl
      · rfl
  | _ => rfl

/-- The last word counts. -/
theorem placements_append (first second : List Event) (node : NodeId) :
    (placements (first ++ second))[node]? =
      (placements second)[node]?.or (placements first)[node]? := by
  induction second using List.reverseRecOn with
  | nil => simp [placements]
  | append_singleton rest event induction =>
      rw [← List.append_assoc, placements_concat, placements_concat, induction, Option.or_assoc]

private theorem mem_of_placements {events : List Event} {node scope : NodeId}
    (found : (placements events)[node]? = some scope) : .places node scope ∈ events := by
  induction events using List.reverseRecOn with
  | nil => simp [placements] at found
  | append_singleton rest event induction =>
      rw [placements_concat] at found
      apply List.mem_append.mpr
      rcases Option.or_eq_some_iff.mp found with last | ⟨_, earlier⟩
      · right
        cases event with
        | places other target =>
            simp only [Event.placement?, Option.ite_none_right_eq_some, Option.some.injEq] at last
            obtain ⟨rfl, rfl⟩ := last
            exact List.mem_singleton_self _
        | _ => cases last
      · exact Or.inl (induction earlier)

theorem placements_isSome {events : List Event} {node scope : NodeId}
    (placed : .places node scope ∈ events) : (placements events)[node]?.isSome := by
  obtain ⟨before, after, rfl⟩ := List.append_of_mem placed
  rw [List.append_cons, placements_append, placements_concat]
  simp [Event.placement?]

theorem Node.exists_list_of_part {callable part : Node} (member : part ∈ callable.parameterParts) :
    ∃ list ∈ callable.children, list.role = .parameters ∧ part ∈ list.children := by
  unfold Node.parameterParts at member
  split at member
  · next list found =>
      have role : list.role = .parameters := by simpa using List.find?_some found
      exact ⟨list, List.mem_of_find?_eq_some found, role, member⟩
  · cases member

namespace Event

/-- If the events place the node at all, the last of them places it in the scope. -/
def EndsIn (node scope : NodeId) (events : List Event) : Prop :=
  ∀ other, (placements events)[node]? = some other → other = scope

namespace EndsIn

variable {node scope : NodeId} {first second : List Event} {place : Place} {nodes : List Node}

private theorem of_forall (only : ∀ other, .places node other ∈ first → other = scope) :
    EndsIn node scope first :=
  fun other found => only other (mem_of_placements found)

private theorem of_ne {other target : NodeId} (different : other ≠ node) :
    EndsIn node scope [.places other target] := by
  apply of_forall
  intro last member
  simp only [List.mem_singleton, Event.places.injEq] at member
  exact absurd member.1.symm different

theorem append (left : EndsIn node scope first) (right : EndsIn node scope second) :
    EndsIn node scope (first ++ second) := by
  intro other found
  rw [placements_append] at found
  rcases Option.or_eq_some_iff.mp found with later | ⟨_, earlier⟩
  · exact right other later
  · exact left other earlier

theorem after (right : EndsIn node scope second) (placed : .places node scope ∈ second) :
    EndsIn node scope (first ++ second) := by
  intro other found
  obtain ⟨last, isLast⟩ := Option.isSome_iff_exists.mp (placements_isSome placed)
  rw [placements_append, isLast, Option.some_or] at found
  rw [← Option.some.inj found]
  exact right last isLast

theorem nil : EndsIn node scope [] := by
  apply of_forall
  intro other member
  cases member

theorem ofCapture (place : Place) (construct : Node) :
    EndsIn node scope (ofCapture place construct) := by
  apply of_forall
  intro other placed
  unfold Event.ofCapture at placed
  split at placed
  all_goals first
    | cases placed
    | (split at placed
       · cases placed
       · simp at placed)

theorem ofAll (each : ∀ child ∈ nodes, EndsIn node scope (ofNode place child)) :
    EndsIn node scope (ofAll place nodes) := by
  induction nodes with
  | nil => exact nil
  | cons child rest induction =>
      rw [Event.ofAll]
      apply append (each child List.mem_cons_self)
      exact induction fun other member => each other (List.mem_cons_of_mem _ member)

theorem ofRole {role : Role}
    (each : ∀ child ∈ nodes, child.role = role → EndsIn node scope (ofNode place child)) :
    EndsIn node scope (ofRole role place nodes) := by
  induction nodes with
  | nil => exact nil
  | cons child rest induction =>
      have later := induction fun other member => each other (List.mem_cons_of_mem _ member)
      rw [Event.ofRole]
      split
      · next same => exact append (each child List.mem_cons_self same) later
      · exact later

theorem ofHints
    (apart : ∀ parameter ∈ nodes, parameter.role.isParameter = true → parameter.id ≠ node)
    (each : ∀ parameter ∈ nodes, parameter.role.isParameter = true → ∀ hint ∈ parameter.children,
      hint.role = .typeHint → ∀ place, EndsIn node scope (ofNode place hint)) :
    EndsIn node scope (ofHints place nodes) := by
  induction nodes with
  | nil => exact nil
  | cons first rest induction =>
      have later := induction (fun other member => apart other (List.mem_cons_of_mem _ member))
        (fun other member => each other (List.mem_cons_of_mem _ member))
      obtain ⟨form, info, children⟩ := first
      rw [Event.ofHints]
      split
      · next isParameter =>
          apply append (of_ne (apart _ List.mem_cons_self isParameter))
          apply append _ later
          exact ofRole fun hint member role =>
            each _ List.mem_cons_self isParameter hint member role _
      · exact later

theorem ofParameterLists
    (apart : ∀ list ∈ nodes, list.role = .parameters → list.id ≠ node)
    (defaults : ∀ list ∈ nodes, list.role = .parameters → ∀ part ∈ list.children,
      part.role = .default ∨ part.role = .keywordDefault →
        ∀ place, EndsIn node scope (ofNode place part))
    (hints : ∀ list ∈ nodes, list.role = .parameters →
      EndsIn node scope (Event.ofHints place list.children)) :
    EndsIn node scope (ofParameterLists place nodes) := by
  induction nodes with
  | nil => exact nil
  | cons list rest induction =>
      have later := induction (fun other member => apart other (List.mem_cons_of_mem _ member))
        (fun other member => defaults other (List.mem_cons_of_mem _ member))
        (fun other member => hints other (List.mem_cons_of_mem _ member))
      obtain ⟨form, info, parts⟩ := list
      rw [Event.ofParameterLists]
      split
      · next isList =>
          have each := defaults _ List.mem_cons_self isList
          apply append (of_ne (apart _ List.mem_cons_self isList))
          apply append _ later
          apply append _ (hints _ List.mem_cons_self isList)
          apply append
          · exact ofRole fun part member role => each part member (Or.inl role) _
          · exact ofRole fun part member role => each part member (Or.inr role) _
      · exact later

theorem ofFirstIterable
    (each : ∀ clause ∈ nodes, clause.role = .clause → ∀ part ∈ clause.children,
      ∀ place, EndsIn node scope (ofNode place part)) :
    EndsIn node scope (ofFirstIterable place nodes) := by
  induction nodes with
  | nil => exact nil
  | cons clause rest induction =>
      have later := induction fun other member => each other (List.mem_cons_of_mem _ member)
      obtain ⟨form, info, parts⟩ := clause
      rw [Event.ofFirstIterable]
      split
      · next isClause =>
          exact ofRole fun part member _ => each _ List.mem_cons_self isClause part member _
      · exact later

theorem ofClauses {first : Bool}
    (apart : ∀ clause ∈ nodes, clause.role = .clause → clause.id ≠ node)
    (each : ∀ clause ∈ nodes, clause.role = .clause → ∀ part ∈ clause.children,
      ∀ place, EndsIn node scope (ofNode place part)) :
    EndsIn node scope (ofClauses place first nodes) := by
  induction nodes generalizing first with
  | nil => exact nil
  | cons clause rest induction =>
      have later : ∀ first, EndsIn node scope (Event.ofClauses place first rest) := by
        intro first
        apply induction
        · exact fun other member => apart other (List.mem_cons_of_mem _ member)
        · exact fun other member => each other (List.mem_cons_of_mem _ member)
      obtain ⟨form, info, parts⟩ := clause
      rw [Event.ofClauses]
      split
      · next isClause =>
          have parts : ∀ {role : Role} {place : Place},
              EndsIn node scope (Event.ofRole role place parts) :=
            ofRole fun part member _ => each _ List.mem_cons_self isClause part member _
          apply append (of_ne (apart _ List.mem_cons_self isClause))
          apply append _ (later false)
          apply append _ parts
          apply append _ parts
          split
          · exact nil
          · exact parts
      · exact later first

end EndsIn

private theorem not_isSpecial_of_slot {tree parent child : Node} (wellFormed : tree.WellFormed)
    (member : parent ∈ tree.nodes) (isChild : child ∈ parent.children) (slot : Slot)
    (asked : (child.role, slot) ∈ parent.form.slots) (plain : isPlain slot = true) :
    isSpecial child.form = false :=
  isSpecial_of_isPlain plain (Node.admits_of_fits (wellFormed.fits_of_slot member isChild asked))

/-- A callable of a module and one of its parameters. -/
structure Parameterised (tree callable parameter : Node) : Prop where
  wellFormed : tree.WellFormed
  inside : callable ∈ tree.nodes
  isCallable : callable.form.isCallable = true
  isParameter : parameter ∈ callable.parameters

namespace Parameterised

variable {tree callable parameter : Node} (owned : Parameterised tree callable parameter)

include owned

private theorem ne_of_form {node : Node} (member : node ∈ tree.nodes)
    (other : ∀ name hint, node.form ≠ .parameter name hint) : node.id ≠ parameter.id := by
  intro same
  obtain ⟨inTree, name, hint, form⟩ :=
    owned.wellFormed.parameter_form owned.inside owned.isCallable owned.isParameter
  obtain rfl := owned.wellFormed.distinct.eq_of_id member inTree same
  exact other name hint form

/-- Only the callable has the parameter in a list of its own. -/
theorem callable_eq {other list part : Node} (member : other ∈ tree.nodes)
    (isList : list ∈ other.children) (isPart : part ∈ list.children)
    (same : part.id = parameter.id) : other = callable := by
  have distinct := owned.wellFormed.distinct
  have inTree :=
    (owned.wellFormed.parameter_form owned.inside owned.isCallable owned.isParameter).1
  have listInside : list ∈ tree.nodes := Node.nodes_trans (Node.child_mem_nodes isList) member
  have partInside : part ∈ tree.nodes := Node.nodes_trans (Node.child_mem_nodes isPart) listInside
  obtain rfl := distinct.eq_of_id partInside inTree same
  obtain ⟨own, isOwn, _, isMember⟩ :=
    Node.exists_list_of_part (List.mem_filter.mp owned.isParameter).1
  have ownInside : own ∈ tree.nodes :=
    Node.nodes_trans (Node.child_mem_nodes isOwn) owned.inside
  obtain rfl := distinct.parent_eq listInside ownInside isPart isMember
  exact distinct.parent_eq member owned.inside isList isOwn

section

variable {node : Node} (member : node ∈ tree.nodes)
  (each : ∀ child ∈ node.children, ∀ inner ∈ child.nodes, isSpecial inner.form = false →
    ∀ place, EndsIn parameter.id callable.id (ofNode place inner))

include member

/-- The callable itself has the last word on its parameter. -/
theorem endsIn_ofParameters {events : List Event}
    (before : node ≠ callable → EndsIn parameter.id callable.id events) :
    EndsIn parameter.id callable.id (events ++ ofParameters node) := by
  have told : ∀ scope, .places parameter.id scope ∈ ofParameters node ↔
      ∃ part ∈ node.parameters, parameter.id = part.id ∧ scope = node.id := by
    intro scope
    simp [ofParameters]
  by_cases same : node = callable
  · subst same
    apply EndsIn.after
    · apply EndsIn.of_forall
      intro scope placed
      obtain ⟨_, _, _, same⟩ := (told scope).mp placed
      exact same
    · exact (told node.id).mpr ⟨parameter, owned.isParameter, rfl, rfl⟩
  · apply EndsIn.append (before same)
    apply EndsIn.of_forall
    intro scope placed
    obtain ⟨part, isPart, samePart, _⟩ := (told scope).mp placed
    obtain ⟨list, isList, _, inList⟩ := Node.exists_list_of_part (List.mem_filter.mp isPart).1
    exact absurd (owned.callable_eq member isList inList samePart.symm) same

theorem endsIn_ofNamedTarget (form : node.form = .namedExpr) (scope : NodeId) :
    EndsIn parameter.id callable.id (ofNamedTarget scope node) := by
  apply EndsIn.of_forall
  intro other placed
  simp only [ofNamedTarget, List.mem_flatMap, List.mem_cons, Event.places.injEq, reduceCtorEq,
    List.not_mem_nil, or_false] at placed
  obtain ⟨target, isTarget, same, _⟩ := placed
  obtain ⟨isChild, role⟩ := Node.mem_field.mp isTarget
  have fitting : target.fits .nameTarget = true := by
    apply owned.wellFormed.fits_of_slot member isChild
    rw [form, role]
    exact List.mem_cons_self
  obtain ⟨id, named⟩ := Node.form_of_nameTarget fitting
  refine absurd same.symm (owned.ne_of_form ?_ ?_)
  · exact Node.nodes_trans (Node.child_mem_nodes isChild) member
  · rw [named]
    simp

theorem endsIn_ofImports (scope : NodeId) :
    EndsIn parameter.id callable.id (ofImports scope node) := by
  apply EndsIn.of_forall
  intro other placed
  obtain ⟨item, isItem, told⟩ := List.mem_flatMap.mp placed
  have inside := Node.nodes_trans (Node.child_mem_nodes isItem) member
  split at told
  · next name asName form =>
      have different : item.id ≠ parameter.id := by
        apply owned.ne_of_form inside
        rw [form]
        simp
      split at told
      all_goals
        simp only [List.mem_cons, Event.places.injEq, reduceCtorEq, List.not_mem_nil,
          or_false] at told
        exact absurd told.1.symm different
  · cases told

include each

theorem endsIn_ofRole (role : Role) (slot : Slot) (asked : (role, slot) ∈ node.form.slots)
    (plain : isPlain slot = true) (place : Place) :
    EndsIn parameter.id callable.id (ofRole role place node.children) := by
  apply EndsIn.ofRole
  rintro child isChild rfl
  exact each child isChild child (Node.self_mem_nodes child)
    (not_isSpecial_of_slot owned.wellFormed member isChild slot asked plain) place

theorem endsIn_ofAll (plain : ∀ entry ∈ node.form.slots, isPlain entry.2 = true) (place : Place) :
    EndsIn parameter.id callable.id (ofAll place node.children) := by
  apply EndsIn.ofAll
  intro child isChild
  obtain ⟨slot, asked, _⟩ := owned.wellFormed.slot_of_child member isChild
  exact each child isChild child (Node.self_mem_nodes child)
    (not_isSpecial_of_slot owned.wellFormed member isChild slot asked (plain _ asked)) place

theorem endsIn_ofParameterLists (asked : (.parameters, .parameterList) ∈ node.form.slots)
    (different : node ≠ callable) (place : Place) :
    EndsIn parameter.id callable.id (ofParameterLists place node.children) := by
  have within : ∀ list ∈ node.children, list ∈ tree.nodes :=
    fun list isList => Node.nodes_trans (Node.child_mem_nodes isList) member
  have listForm : ∀ list ∈ node.children, list.role = .parameters →
      ∃ defaults, list.form = .parameters defaults := by
    intro list isList role
    apply Node.form_of_parameterList
    apply owned.wellFormed.fits_of_slot member isList
    rw [role]
    exact asked
  apply EndsIn.ofParameterLists
  · intro list isList role
    obtain ⟨defaults, form⟩ := listForm list isList role
    apply owned.ne_of_form (within list isList)
    rw [form]
    simp
  · intro list isList role part isPart partRole
    obtain ⟨defaults, form⟩ := listForm list isList role
    apply each list isList part (Node.child_mem_nodes isPart)
    apply not_isSpecial_of_slot owned.wellFormed (within list isList) isPart .expression
    · rw [form]
      rcases partRole with partRole | partRole
      · simp [partRole, Form.slots]
      · simp [partRole, Form.slots]
    · rfl
  · intro list isList role
    obtain ⟨defaults, form⟩ := listForm list isList role
    apply EndsIn.ofHints
    · intro part isPart _ same
      exact different (owned.callable_eq member isList isPart same)
    · intro part isPart partRole hint isHint hintRole
      have partInside := Node.nodes_trans (Node.child_mem_nodes isPart) (within list isList)
      have fitting : part.fits .parameter = true := by
        apply owned.wellFormed.fits_of_slot (within list isList) isPart
        rw [form]
        exact parameter_slot partRole
      obtain ⟨name, text, partForm⟩ := Node.form_of_parameter fitting
      apply each list isList hint
        (Node.nodes_trans (Node.child_mem_nodes isHint) (Node.child_mem_nodes isPart))
      apply not_isSpecial_of_slot owned.wellFormed partInside isHint .expression
      · rw [partForm, hintRole]
        exact List.mem_singleton_self _
      · rfl

theorem endsIn_clauses {kind : ComprehensionKind} (form : node.form = .comprehension kind)
    (outer inner : Place) (events : List Event)
    (between : EndsIn parameter.id callable.id events) :
    EndsIn parameter.id callable.id (ofFirstIterable outer node.children ++ events ++
      ofClauses inner true node.children) := by
  have within : ∀ clause ∈ node.children, clause ∈ tree.nodes :=
    fun clause isClause => Node.nodes_trans (Node.child_mem_nodes isClause) member
  have clauseForm : ∀ clause ∈ node.children, clause.role = .clause →
      ∃ isAsync, clause.form = .clause isAsync := by
    intro clause isClause role
    apply Node.form_of_clause
    apply owned.wellFormed.fits_of_slot member isClause
    rw [role, form]
    simp [Form.slots]
  have parts : ∀ clause ∈ node.children, clause.role = .clause → ∀ part ∈ clause.children,
      ∀ place, EndsIn parameter.id callable.id (ofNode place part) := by
    intro clause isClause role part isPart
    obtain ⟨isAsync, form⟩ := clauseForm clause isClause role
    have plain : ∀ entry ∈ clause.form.slots, isPlain entry.2 = true := by
      simp [form, Form.slots, isPlain]
    obtain ⟨slot, asked, _⟩ := owned.wellFormed.slot_of_child (within clause isClause) isPart
    apply each clause isClause part (Node.child_mem_nodes isPart)
    exact not_isSpecial_of_slot owned.wellFormed (within clause isClause) isPart slot asked
      (plain _ asked)
  apply EndsIn.append (EndsIn.append (EndsIn.ofFirstIterable parts) between)
  apply EndsIn.ofClauses _ parts
  intro clause isClause role
  obtain ⟨isAsync, form⟩ := clauseForm clause isClause role
  apply owned.ne_of_form (within clause isClause)
  rw [form]
  simp

end

/-- Whatever is visited, the last word on the parameter is that of its callable. -/
theorem endsIn_ofNode {node : Node} (member : node ∈ tree.nodes)
    (plain : isSpecial node.form = false) (place : Place) :
    EndsIn parameter.id callable.id (ofNode place node) := by
  -- Defaults, annotations and the parts of clauses lie two or three levels below the construct
  -- that visits them, so the hypothesis is needed for all nodes inside the children.
  induction node using Node.strongInduction generalizing place with
  | step form info children induction =>
      have each : ∀ child ∈ children, ∀ inner ∈ child.nodes, isSpecial inner.form = false →
          ∀ place, EndsIn parameter.id callable.id (ofNode place inner) := by
        intro child isChild inner within plain place
        exact induction child isChild inner within
          (Node.nodes_trans (Node.nodes_of_child isChild within) member) plain place
      have visits := owned.endsIn_ofRole member each
      have here : EndsIn parameter.id callable.id [.places info.id place.scope] := by
        apply EndsIn.of_ne
        apply owned.ne_of_form member
        intro name hint same
        rw [same] at plain
        cases plain
      have ordinary : (∀ entry ∈ form.slots, isPlain entry.2 = true) →
          EndsIn parameter.id callable.id (.places info.id place.scope ::
            (ofCapture place (.mk form info children) ++
              ofAll (place.inside (.mk form info children)) children)) := by
        intro plain
        apply EndsIn.append here
        exact EndsIn.append (EndsIn.ofCapture place _) (owned.endsIn_ofAll member each plain _)
      cases form with
      | functionDef isAsync name returns =>
          rw [ofNode]
          apply EndsIn.append here
          apply EndsIn.append _ (visits .body .statement (by simp [Form.slots]) rfl _)
          -- What comes before the parameters matters only if another callable is visited.
          apply owned.endsIn_ofParameters member
          intro different
          apply EndsIn.append _ (EndsIn.of_forall (by simp))
          apply EndsIn.append _ (visits .returns .expression (by simp [Form.slots]) rfl _)
          apply EndsIn.append (visits .decorator .expression (by simp [Form.slots]) rfl _)
          exact owned.endsIn_ofParameterLists member each (by simp [Form.slots]) different _
      | lambda =>
          rw [ofNode]
          apply EndsIn.append here
          apply EndsIn.append _ (visits .result .expression (by simp [Form.slots]) rfl _)
          apply owned.endsIn_ofParameters member
          intro different
          apply EndsIn.append _ (EndsIn.of_forall (by simp))
          exact owned.endsIn_ofParameterLists member each (by simp [Form.slots]) different _
      | classDef name =>
          rw [ofNode]
          apply EndsIn.append here
          apply EndsIn.append _ (visits .body .statement (by simp [Form.slots]) rfl _)
          apply EndsIn.append _ (EndsIn.of_forall (by simp))
          apply EndsIn.append _ (visits .keyword .keyword (by simp [Form.slots]) rfl _)
          apply EndsIn.append (visits .decorator .expression (by simp [Form.slots]) rfl _)
          exact visits .base .expression (by simp [Form.slots]) rfl _
      | comprehension kind =>
          rw [ofNode]
          apply EndsIn.append here
          apply EndsIn.append _ (visits .element .expression (by simp [Form.slots]) rfl _)
          apply EndsIn.append _ (visits .value .expression (by simp [Form.slots]) rfl _)
          apply EndsIn.append _ (visits .key .expression (by simp [Form.slots]) rfl _)
          exact owned.endsIn_clauses member each rfl _ _ _ (EndsIn.of_forall (by simp))
      | namedExpr =>
          rw [ofNode]
          apply EndsIn.append here
          apply EndsIn.append (visits .value .expression (by simp [Form.slots]) rfl _)
          exact owned.endsIn_ofNamedTarget member rfl _
      | name id context =>
          by_cases load : context = .load
          · simpa only [ofNode, load, if_true] using here
          · simp only [ofNode, load, if_false]
            exact EndsIn.append here (EndsIn.of_forall (by simp))
      | globalStmt names | nonlocalStmt names =>
          rw [ofNode]
          exact EndsIn.append here (EndsIn.of_forall (by simp))
      | importStmt | importFrom _ _ =>
          rw [ofNode]
          exact EndsIn.append here (owned.endsIn_ofImports member _)
      | starred context | list context | tuple context =>
          apply ordinary
          simpa [Form.slots] using isPlain_slot context
      | clause | parameters | parameter | module => cases plain
      | _ => exact ordinary (by simp [Form.slots, isPlain])

theorem endsIn_ofModule : EndsIn parameter.id callable.id (ofModule tree) := by
  have form := Node.Grammatical.form_eq owned.wellFormed.grammatical
  have member := Node.self_mem_nodes tree
  have here : EndsIn parameter.id callable.id
      [.opens tree .module "<module>" [], .places tree.id tree.id] := by
    have different : tree.id ≠ parameter.id := by
      apply owned.ne_of_form member
      rw [form]
      simp
    apply EndsIn.of_forall
    intro scope placed
    simp only [List.mem_cons, reduceCtorEq, Event.places.injEq, List.not_mem_nil, or_false,
      false_or] at placed
    exact absurd placed.1.symm different
  apply EndsIn.append here
  apply owned.endsIn_ofRole member _ .body .statement
  · rw [form]
    exact List.mem_singleton_self _
  · rfl
  · intro child isChild inner within plain place
    exact owned.endsIn_ofNode (Node.nodes_of_child isChild within) plain place

/-- A parameter is placed in the scope of its callable. -/
theorem placement_eq : (placements (ofModule tree))[parameter.id]? = some callable.id := by
  obtain ⟨spot, visited⟩ := Spot.Visited.exists_of_mem owned.inside
  have placed : .places parameter.id callable.id ∈ ofModule tree :=
    (mem_ofModule_iff_owned owned.wellFormed).mpr
      ⟨spot, callable, visited, .parameterPlaced parameter owned.isCallable owned.isParameter⟩
  obtain ⟨scope, found⟩ := Option.isSome_iff_exists.mp (placements_isSome placed)
  rw [found, owned.endsIn_ofModule scope found]

end Parameterised

end Event

end SafeRefactor
