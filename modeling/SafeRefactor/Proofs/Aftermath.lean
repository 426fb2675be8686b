import SafeRefactor.Proofs.Jumps
import SafeRefactor.Proofs.Occurrence

/-!
# What follows a statement

A statement marks on each path where it ends normally.  What is left of a path after
such a mark is what follows the statement.  It is put together from inside to outside:
what follows a statement in the construct around it is what follows it in its own part,
and then whatever that construct still does, given how its part was left.
-/

namespace SafeRefactor

/-- The places for code in a construct that control can leave into the code around it. -/
inductive Form.Holds : Form → Role → Slot → Prop where
  | branch : Holds .ifStmt .body .statement
  | alternative : Holds .ifStmt .orelse .statement
  | forRound (isAsync : Bool) : Holds (.forLoop isAsync) .body .statement
  | forEnd (isAsync : Bool) : Holds (.forLoop isAsync) .orelse .statement
  | whileRound : Holds .whileLoop .body .statement
  | whileEnd : Holds .whileLoop .orelse .statement
  | managed (isAsync : Bool) : Holds (.withStmt isAsync) .body .statement
  | tried (isGroup : Bool) : Holds (.tryStmt isGroup) .body .statement
  | rescue (isGroup : Bool) : Holds (.tryStmt isGroup) .handler .handler
  | completed (isGroup : Bool) : Holds (.tryStmt isGroup) .orelse .statement
  | final (isGroup : Bool) : Holds (.tryStmt isGroup) .finalbody .statement
  | handled (name : Option String) (caught : Option Printed) :
      Holds (.handler name caught) .body .statement
  | arm : Holds .matchStmt .arm .arm
  | matched : Holds .matchCase .body .statement

theorem Form.Holds.listed {form : Form} {role : Role} {slot : Slot} (holds : form.Holds role slot) :
    (role, slot) ∈ form.slots := by
  cases holds <;> simp [Form.slots]

theorem Form.holds_of_slot {form : Form} {role : Role} {slot : Slot}
    (listed : (role, slot) ∈ form.slots) (code : slot.isBlock = true)
    (passable : form.isBarrier = false) : form.Holds role slot := by
  have all : ∀ entry ∈ form.slots, entry.2.isBlock = true → form.Holds entry.1 entry.2 := by
    cases form with
    | module | lambda => cases passable
    | functionDef isAsync name returns => cases passable
    | classDef name => cases passable
    | ifStmt => simpa [Form.slots, Slot.isBlock] using ⟨.branch, .alternative⟩
    | forLoop isAsync =>
        simpa [Form.slots, Slot.isBlock] using ⟨.forRound isAsync, .forEnd isAsync⟩
    | whileLoop => simpa [Form.slots, Slot.isBlock] using ⟨.whileRound, .whileEnd⟩
    | withStmt isAsync => simpa [Form.slots, Slot.isBlock] using .managed isAsync
    | tryStmt isGroup =>
        simpa [Form.slots, Slot.isBlock] using
          ⟨.tried isGroup, .rescue isGroup, .completed isGroup, .final isGroup⟩
    | handler name caught => simpa [Form.slots, Slot.isBlock] using .handled name caught
    | matchStmt => simpa [Form.slots, Slot.isBlock] using .arm
    | matchCase => simpa [Form.slots, Slot.isBlock] using .matched
    | starred context | list context | tuple context =>
        cases context <;> simp [Form.slots, Context.slot, Slot.isBlock]
    | _ => simp [Form.slots, Slot.isBlock]
  exact all _ listed code

namespace Paths

/-- What is left of the paths after the statement with a given number has ended. -/
def after (id : NodeId) (paths : Paths) : Paths := fun trace completion =>
  ∃ before, paths (before ++ .ends id :: trace) completion

/-- The statement with a given number ends on no path. -/
def Silent (id : NodeId) (paths : Paths) : Prop :=
  ¬ paths.Does (.ends id)

/-- A loop after a part of a round. -/
inductive rejoins (round whole : Paths) : Paths where
  | breaks {trace : List Action} : round trace .broken → rejoins round whole trace .normal
  | leaves {trace : List Action} {completion : Completion} :
      round trace completion → completion = .returned ∨ completion = .raised →
      rejoins round whole trace completion
  | again {trace later : List Action} {how completion : Completion} :
      round trace how → how = .normal ∨ how = .continued → whole later completion →
      rejoins round whole (trace ++ later) completion

/-- A `finally` after a part of it: the way out that was pending counts unless it has its own. -/
def closes (inner last : Paths) : Paths := fun trace completion =>
  ∃ own, last trace own ∧ ((own = .normal ∧ inner.Ends completion) ∨ own = completion)

variable {id : NodeId} {first second paths : Paths} {trace : List Action} {completion : Completion}

/-- Expressions do not mark the end of a statement. -/
theorem closed_silent (id : NodeId) : Closed (Silent id) where
  done := not_does_done
  reads _ does := nomatch does_act does
  writes _ does := nomatch does_act does
  raise := not_does_stop
  andThen left right does := (does_andThen does).elim left right
  either left right does := (does_either does).elim left right
  inSomeOrder each does := by
    obtain ⟨part, member, does⟩ := does_inSomeOrder does
    exact each part member does
  repeated own does := own (does_repeated does)
  called own does := own (does_called does)

theorem Silent.not_after (silent : Silent id paths) : ¬ after id paths trace completion := by
  intro later
  obtain ⟨before, path⟩ := later
  exact silent ⟨_, _, path, List.mem_append_right _ List.mem_cons_self⟩

theorem Silent.in_loop {test body orelse : Paths} (tests : Silent id test) (rounds : Silent id body)
    (ending : Silent id orelse) : Silent id (loop test body orelse) :=
  fun does => (does_loop does).elim tests fun does => does.elim rounds ending

theorem Silent.in_rescued {body orelse rescue : Paths} (tried : Silent id body)
    (ending : Silent id orelse) (handlers : Silent id rescue) :
    Silent id (rescued body orelse rescue) :=
  fun does => (does_rescued does).elim tried fun does => does.elim ending handlers

theorem Silent.in_finished (inner : Silent id first) (last : Silent id second) :
    Silent id (finished first second) :=
  fun does => (does_finished does).elim inner last

private theorem Silent.not_mem (silent : Silent id paths) (path : paths trace completion) :
    .ends id ∉ trace :=
  fun member => silent ⟨trace, completion, path, member⟩

/-- A mark stands in one of two parts of a path. -/
theorem split_mark {before left right : List Action} {mark : Action}
    (whole : before ++ mark :: trace = left ++ right) :
    (∃ middle, left = before ++ mark :: middle ∧ trace = middle ++ right) ∨
      ∃ middle, right = middle ++ mark :: trace := by
  rcases List.append_eq_append_iff.mp whole with ⟨middle, split, rest⟩ | ⟨middle, _, rest⟩
  · cases middle with
    | nil => exact Or.inr ⟨[], rest.symm⟩
    | cons action middle =>
        obtain ⟨rfl, rfl⟩ := List.cons.inj rest
        exact Or.inl ⟨middle, split, rfl⟩
  · exact Or.inr ⟨middle, rest⟩

private theorem mark_in_second {before left right : List Action} {mark : Action}
    (whole : before ++ mark :: trace = left ++ right) (silent : mark ∉ left) :
    ∃ middle, right = middle ++ mark :: trace := by
  rcases split_mark whole with ⟨middle, rfl, _⟩ | inSecond
  · exact absurd (List.mem_append_right _ List.mem_cons_self) silent
  · exact inSecond

theorem after_andThen (path : after id (first.andThen second) trace completion) :
    (after id first).andThen second trace completion ∨ after id second trace completion := by
  obtain ⟨before, path⟩ := path
  generalize whole : before ++ Action.ends id :: trace = full at path
  cases path with
  | stops path early =>
      subst whole
      exact Or.inl (.stops ⟨before, path⟩ early)
  | goesOn path later =>
      rcases split_mark whole with ⟨middle, rfl, rfl⟩ | ⟨middle, rfl⟩
      · exact Or.inl (.goesOn ⟨before, path⟩ later)
      · exact Or.inr ⟨middle, later⟩

theorem Silent.after_first (silent : Silent id first)
    (path : after id (first.andThen second) trace completion) :
    after id second trace completion := by
  rcases after_andThen path with path | path
  · cases path with
    | stops early _ => exact absurd early silent.not_after
    | goesOn early _ => exact absurd early silent.not_after
  · exact path

theorem Silent.after_second (silent : Silent id second)
    (path : after id (first.andThen second) trace completion) :
    (after id first).andThen second trace completion :=
  (after_andThen path).resolve_right silent.not_after

theorem after_either (path : after id (first.either second) trace completion) :
    after id first trace completion ∨ after id second trace completion := by
  obtain ⟨before, path | path⟩ := path
  · exact Or.inl ⟨before, path⟩
  · exact Or.inr ⟨before, path⟩

theorem after_managed (path : after id (managed paths) trace completion) :
    managed (after id paths) trace completion := by
  obtain ⟨before, inner, path, how⟩ := path
  exact ⟨inner, ⟨before, path⟩, how⟩

theorem after_inOrder {earlier later : List Paths} {part : Paths}
    (before : ∀ other ∈ earlier, Silent id other) (rest : ∀ other ∈ later, Silent id other)
    (path : after id (inOrder (earlier ++ part :: later)) trace completion) :
    (after id part).andThen (inOrder later) trace completion := by
  induction earlier with
  | nil => exact ((closed_silent id).inOrder rest).after_second path
  | cons other earlier induction =>
      apply induction fun part member => before part (List.mem_cons_of_mem _ member)
      exact (before other List.mem_cons_self).after_first path

section

variable {test body orelse rescue inner last wider : Paths}

theorem rejoins.mono {whole : Paths} (path : rejoins first whole trace completion)
    (fewer : ∀ trace completion, first trace completion → wider trace completion) :
    rejoins wider whole trace completion := by
  cases path with
  | breaks path => exact .breaks (fewer _ _ path)
  | leaves path left => exact .leaves (fewer _ _ path) left
  | again path goes later => exact .again (fewer _ _ path) goes later

theorem rescued.mono (path : rescued body orelse rescue trace completion)
    (fewer : ∀ trace completion, body trace completion → wider trace completion) :
    rescued wider orelse rescue trace completion := by
  cases path with
  | completes path later => exact .completes (fewer _ _ path) later
  | rescues path later => exact .rescues (fewer _ _ path) later
  | leaves path early other => exact .leaves (fewer _ _ path) early other

theorem finished.mono (path : finished inner last trace completion)
    (fewer : ∀ trace completion, inner trace completion → wider trace completion) :
    finished wider last trace completion := by
  cases path with
  | resumes path later => exact .resumes (fewer _ _ path) later
  | overrides path later early => exact .overrides (fewer _ _ path) later early

/-- The mark stands in a round, or in the code for the regular end of the loop. -/
theorem rejoins_or_after_end (tests : Silent id test)
    (path : after id (loop test body orelse) trace completion) :
    rejoins (after id body) (loop test body orelse) trace completion ∨
      after id orelse trace completion := by
  obtain ⟨before, path⟩ := path
  generalize whole : before ++ Action.ends id :: trace = full at path
  induction path generalizing before with
  | fails path _ =>
      subst whole
      exact absurd ⟨before, path⟩ tests.not_after
  | exhausted path later =>
      obtain ⟨middle, rfl⟩ := mark_in_second whole (tests.not_mem path)
      exact Or.inr ⟨middle, later⟩
  | breaks path later =>
      obtain ⟨middle, rfl⟩ := mark_in_second whole (tests.not_mem path)
      exact Or.inl (.breaks ⟨middle, later⟩)
  | leaves path later left =>
      obtain ⟨middle, rfl⟩ := mark_in_second whole (tests.not_mem path)
      exact Or.inl (.leaves ⟨middle, later⟩ left)
  | again path later goes last induction =>
      rcases split_mark whole with ⟨middle, inRound, rfl⟩ | ⟨middle, rfl⟩
      · obtain ⟨start, rfl⟩ := mark_in_second inRound.symm (tests.not_mem path)
        exact Or.inl (.again ⟨start, later⟩ goes last)
      · exact induction middle rfl

theorem after_loop (tests : Silent id test) (ending : Silent id orelse)
    (path : after id (loop test body orelse) trace completion) :
    rejoins (after id body) (loop test body orelse) trace completion :=
  (rejoins_or_after_end tests path).resolve_right ending.not_after

theorem after_loop_end (tests : Silent id test) (rounds : Silent id body)
    (path : after id (loop test body orelse) trace completion) :
    after id orelse trace completion := by
  apply (rejoins_or_after_end tests path).resolve_left
  intro inRound
  cases inRound with
  | breaks later => exact rounds.not_after later
  | leaves later _ => exact rounds.not_after later
  | again later _ _ => exact rounds.not_after later

theorem after_rescued (path : after id (rescued body orelse rescue) trace completion) :
    rescued (after id body) orelse rescue trace completion ∨
      after id orelse trace completion ∨ after id rescue trace completion := by
  obtain ⟨before, path⟩ := path
  generalize whole : before ++ Action.ends id :: trace = full at path
  cases path with
  | completes path later =>
      rcases split_mark whole with ⟨middle, rfl, rfl⟩ | ⟨middle, rfl⟩
      · exact Or.inl (.completes ⟨before, path⟩ later)
      · exact Or.inr (Or.inl ⟨middle, later⟩)
  | rescues path later =>
      rcases split_mark whole with ⟨middle, rfl, rfl⟩ | ⟨middle, rfl⟩
      · exact Or.inl (.rescues ⟨before, path⟩ later)
      · exact Or.inr (Or.inr ⟨middle, later⟩)
  | leaves path early other =>
      subst whole
      exact Or.inl (.leaves ⟨before, path⟩ early other)

theorem after_finished (path : after id (finished inner last) trace completion) :
    finished (after id inner) last trace completion ∨
      closes inner (after id last) trace completion := by
  obtain ⟨before, path⟩ := path
  generalize whole : before ++ Action.ends id :: trace = full at path
  cases path with
  | resumes path later =>
      rcases split_mark whole with ⟨middle, rfl, rfl⟩ | ⟨middle, rfl⟩
      · exact Or.inl (.resumes ⟨before, path⟩ later)
      · exact Or.inr ⟨.normal, ⟨middle, later⟩, Or.inl ⟨rfl, _, path⟩⟩
  | overrides path later early =>
      rcases split_mark whole with ⟨middle, rfl, rfl⟩ | ⟨middle, rfl⟩
      · exact Or.inl (.overrides ⟨before, path⟩ later early)
      · exact Or.inr ⟨completion, ⟨middle, later⟩, Or.inr rfl⟩

theorem Silent.after_inner (silent : Silent id last)
    (path : after id (finished inner last) trace completion) :
    finished (after id inner) last trace completion := by
  rcases after_finished path with path | ⟨own, path, _⟩
  · exact path
  · exact absurd path silent.not_after

theorem Silent.after_last (silent : Silent id inner)
    (path : after id (finished inner last) trace completion) :
    closes inner (after id last) trace completion := by
  rcases after_finished path with early | path
  · cases early with
    | resumes early _ => exact absurd early silent.not_after
    | overrides early _ _ => exact absurd early silent.not_after
  · exact path

theorem Silent.after_tried (silent : Silent id body)
    (path : after id (rescued body orelse rescue) trace completion) :
    after id orelse trace completion ∨ after id rescue trace completion := by
  rcases after_rescued path with early | path
  · cases early with
    | completes early _ => exact absurd early silent.not_after
    | rescues early _ => exact absurd early silent.not_after
    | leaves early _ _ => exact absurd early silent.not_after
  · exact path

end

theorem after_dispatch {handlers : List (Paths × Paths)}
    (tests : ∀ handler ∈ handlers, Silent id handler.1)
    (path : after id (dispatch handlers) trace completion) :
    ∃ handler ∈ handlers, after id handler.2 trace completion := by
  induction handlers with
  | nil => exact absurd path (closed_silent id).raise.not_after
  | cons handler rest induction =>
      rcases after_either ((tests handler List.mem_cons_self).after_first path) with path | path
      · exact ⟨handler, List.mem_cons_self, path⟩
      · obtain ⟨other, member, path⟩ :=
          induction (fun other member => tests other (List.mem_cons_of_mem _ member)) path
        exact ⟨other, List.mem_cons_of_mem _ member, path⟩

theorem after_select {arms : List (Paths × Paths × Paths)}
    (tests : ∀ arm ∈ arms, Silent id arm.1 ∧ Silent id arm.2.1)
    (path : after id (select arms) trace completion) :
    ∃ arm ∈ arms, after id arm.2.2 trace completion := by
  induction arms with
  | nil => exact absurd path (closed_silent id).done.not_after
  | cons arm rest induction =>
      obtain ⟨pattern, guard⟩ := tests arm List.mem_cons_self
      have later (path : after id (select rest) trace completion) :
          ∃ other ∈ arm :: rest, after id other.2.2 trace completion := by
        obtain ⟨other, member, path⟩ :=
          induction (fun other member => tests other (List.mem_cons_of_mem _ member)) path
        exact ⟨other, List.mem_cons_of_mem _ member, path⟩
      rcases after_either path with path | path
      · have unmatched : Silent id (failed arm.1) := fun does => pattern (does_failed does)
        exact later (unmatched.after_first path)
      · rcases after_either (guard.after_first (pattern.after_first path)) with path | path
        · exact ⟨arm, List.mem_cons_self, path⟩
        · exact later path

end Paths

namespace Node

/-- The nodes after a child in the list of its parent that it belongs to. -/
def followers (parent node : Node) : List Node :=
  ((parent.field node.role).dropWhile (fun other => other.id != node.id)).drop 1

theorem field_eq_append {parent node : Node} (distinct : parent.Distinct)
    (isChild : node ∈ parent.children) :
    ∃ earlier, parent.field node.role = earlier ++ node :: parent.followers node ∧
      node ∉ earlier ∧ node ∉ parent.followers node := by
  have member : node ∈ parent.field node.role := mem_field.mpr ⟨isChild, rfl⟩
  have nodup : (parent.field node.role).Nodup := distinct.nodup_children.filter _
  obtain ⟨earlier, later, split⟩ := List.append_of_mem member
  rw [split, List.nodup_append] at nodup
  obtain ⟨_, own, apart⟩ := nodup
  have absent : node ∉ earlier := fun early => apart node early node List.mem_cons_self rfl
  have skipped : ∀ other ∈ earlier, (other.id != node.id) = true := by
    intro other early
    rw [bne_iff_ne]
    intro same
    have inField : other ∈ parent.field node.role := by
      rw [split]
      exact List.mem_append_left _ early
    have equal := distinct.eq_of_id (child_mem_nodes (mem_field.mp inField).1)
      (child_mem_nodes isChild) same
    exact absent (equal ▸ early)
  have rest : parent.followers node = later := by
    unfold followers
    rw [split, List.dropWhile_append_of_pos skipped]
    simp
  rw [rest]
  exact ⟨earlier, split, absent, (List.nodup_cons.mp own).1⟩

theorem mem_followers {parent node other : Node} (member : other ∈ parent.followers node) :
    other ∈ parent.children ∧ other.role = node.role := by
  apply mem_field.mp
  exact (List.dropWhile_sublist _).subset (List.mem_of_mem_drop member)

private theorem Distinct.not_mem_ids {parent node other inner : Node} (distinct : parent.Distinct)
    (isChild : node ∈ parent.children) (isOther : other ∈ parent.children) (apart : other ≠ node)
    (inside : inner ∈ node.nodes) : inner.id ∉ other.ids := by
  intro present
  obtain ⟨lower, inOther, same⟩ := List.mem_map.mp present
  have equal := distinct.eq_of_id (nodes_of_child isOther inOther)
    (nodes_of_child isChild inside) same
  rw [equal] at inOther
  exact apart (distinct.child_eq isOther isChild inOther inside)

private theorem Distinct.ne_id {parent node inner : Node} (distinct : parent.Distinct)
    (isChild : node ∈ parent.children) (inside : inner ∈ node.nodes) : parent.id ≠ inner.id := by
  intro same
  have equal := distinct.eq_of_id (self_mem_nodes parent) (nodes_of_child isChild inside) same
  rw [← equal] at inside
  exact not_mem_nodes_of_child isChild inside

end Node

namespace Frame

open Paths

variable {frame : Frame} {id : NodeId}

theorem silent_executesRole {role : Role} {items : List Node}
    (each : ∀ item ∈ items, item.role = role → Silent id (frame.executes item)) :
    Silent id (frame.executesRole role items) := by
  rw [executesRole_eq]
  apply (closed_silent id).inOrder
  intro part member
  obtain ⟨item, isItem, rfl⟩ := List.mem_map.mp member
  obtain ⟨isItem, plays⟩ := List.mem_filter.mp isItem
  exact each item isItem (of_decide_eq_true plays)

private theorem silent_act {other : NodeId} (different : other ≠ id) :
    Silent id (act (.ends other)) := by
  intro does
  exact different (Action.ends.inj (does_act does)).symm

private theorem silent_handles_of_each {isGroup : Bool} {items : List Node}
    (each : ∀ handler ∈ items, handler.role = .handler →
      Silent id (frame.executesRole .body handler.children)) :
    Silent id (frame.handles isGroup items) := by
  intro does
  have some : ∃ entry ∈ frame.handlerPaths items,
      entry.1.Does (.ends id) ∨ entry.2.Does (.ends id) := by
    cases isGroup with
    | true => exact does_dispatchGroup does
    | false => exact does_dispatch does
  obtain ⟨entry, member, does⟩ := some
  rw [handlerPaths_eq] at member
  obtain ⟨handler, isHandler, rfl⟩ := List.mem_map.mp member
  obtain ⟨isItem, plays⟩ := List.mem_filter.mp isHandler
  have body := each handler isItem (of_decide_eq_true plays)
  have closed := closed_silent id
  rcases does with does | does
  · exact closed.ordered frame _ _ does
  · exact closed.andThen (closed.bindsHandler frame handler) body does

private theorem silent_arms_of_each {items : List Node}
    (each : ∀ arm ∈ items, arm.role = .arm →
      Silent id (frame.executesRole .body arm.children)) :
    Silent id (select (frame.armPaths items)) := by
  intro does
  obtain ⟨entry, member, does⟩ := does_select does
  rw [armPaths_eq] at member
  obtain ⟨arm, isArm, rfl⟩ := List.mem_map.mp member
  obtain ⟨isItem, plays⟩ := List.mem_filter.mp isArm
  rcases does with does | does | does
  · exact (closed_silent id).matchesPatterns frame _ does
  · exact (closed_silent id).ordered frame _ _ does
  · exact each arm isItem (of_decide_eq_true plays) does

/-- What a statement does between its marks ends no statement that is not inside it. -/
theorem silent_between {node : Node}
    (below : ∀ child ∈ node.children, ∀ inner ∈ child.nodes, Silent id (frame.executes inner)) :
    ∃ body, Silent id body ∧ frame.executes node =
      (act (.begins node.id)).andThen (body.andThen (act (.ends node.id))) := by
  have closed := closed_silent id
  cases node with
  | mk form info children =>
      have block (role : Role) : Silent id (frame.executesRole role children) :=
        silent_executesRole fun child isChild _ =>
          below child isChild child (Node.self_mem_nodes child)
      have inner (part : Node) (isChild : part ∈ children) :
          Silent id (frame.executesRole .body part.children) :=
        silent_executesRole fun child isInner _ =>
          below part isChild child (Node.child_mem_nodes isInner)
      have role (role : Role) := closed.ordered frame role children
      have named (node : Node) (name : String) := closed.binds frame node name
      refine ⟨_, ?_, rfl⟩
      cases form with
      | functionDef isAsync name returns =>
          apply closed.andThen (role .decorator)
          apply closed.andThen (closed.defaults frame children)
          exact closed.andThen (closed.called (block .body)) (named _ name)
      | classDef name =>
          apply closed.andThen (role .decorator)
          apply closed.andThen (role .base)
          apply closed.andThen (role .keyword)
          exact closed.andThen (fun does => block .body (does_classBody does)) (named _ name)
      | assign => exact closed.andThen (role .value) (role .target)
      | annAssign hint => exact closed.annotates frame children
      | augAssign => exact closed.augments frame children
      | returnStmt => exact closed.andThen (closed.orderedEach frame children) not_does_stop
      | raiseStmt => exact closed.andThen (closed.orderedEach frame children) not_does_stop
      | breakStmt => exact not_does_stop
      | continueStmt => exact not_does_stop
      | assertStmt =>
          apply closed.andThen (role .test)
          exact closed.optional (closed.andThen (role .message) not_does_stop)
      | ifStmt => exact closed.andThen (role .test) (closed.either (block .body) (block .orelse))
      | forLoop isAsync =>
          apply closed.andThen (role .iterable)
          exact closed.attempt.in_loop (closed.andThen (role .target) (block .body)) (block .orelse)
      | whileLoop => exact (role .test).in_loop (block .body) (block .orelse)
      | withStmt isAsync =>
          exact closed.andThen (role .item) (fun does => block .body (does_managed does))
      | tryStmt isGroup =>
          have handlers : Silent id (frame.handles isGroup children) :=
            silent_handles_of_each fun handler isChild _ => inner handler isChild
          exact ((block .body).in_rescued (block .orelse) handlers).in_finished (block .finalbody)
      | matchStmt =>
          apply closed.andThen (role .subject)
          exact silent_arms_of_each fun arm isChild _ => inner arm isChild
      | importStmt => exact closed.imports frame children
      | importFrom module level => exact closed.imports frame children
      | _ => exact closed.orderedEach frame children

/-- A statement marks the ends of the statements inside it only. -/
theorem silent_executes {node : Node} (absent : id ∉ node.ids) :
    Silent id (frame.executes node) := by
  induction node using Node.strongInduction with
  | step form info children induction =>
      have closed := closed_silent id
      have below : ∀ child ∈ children, ∀ inner ∈ child.nodes, Silent id (frame.executes inner) := by
        intro child isChild inner inside
        apply induction child isChild inner inside
        intro present
        obtain ⟨lower, within, same⟩ := List.mem_map.mp present
        have inTree : inner ∈ (Node.mk form info children).nodes :=
          Node.mem_nodes_mk.mpr (Or.inr ⟨child, isChild, inside⟩)
        exact absent (List.mem_map.mpr ⟨lower, Node.nodes_trans within inTree, same⟩)
      obtain ⟨body, silent, whole⟩ := silent_between
        (show ∀ child ∈ (Node.mk form info children).children, ∀ inner ∈ child.nodes,
          Silent id (frame.executes inner) from below)
      rw [whole]
      apply closed.andThen
      · exact fun does => nomatch does_act does
      apply closed.andThen silent
      apply silent_act
      intro same
      exact absent (List.mem_map.mpr ⟨_, Node.self_mem_nodes _, same⟩)

theorem after_self {node : Node} {trace : List Action} {completion : Completion}
    (distinct : node.Distinct) (path : after node.id (frame.executes node) trace completion) :
    trace = [] ∧ completion = .normal := by
  have below : ∀ child ∈ node.children, ∀ inner ∈ child.nodes,
      Silent node.id (frame.executes inner) := by
    intro child isChild inner inside
    apply silent_executes
    intro present
    obtain ⟨lower, within, same⟩ := List.mem_map.mp present
    exact distinct.ne_id isChild (Node.nodes_trans within inside) same.symm
  obtain ⟨body, silent, whole⟩ := silent_between below
  have begins : Silent node.id (act (.begins node.id)) := fun does => nomatch does_act does
  rw [whole] at path
  obtain ⟨before, mark, normal⟩ := silent.after_first (begins.after_first path)
  have nothing := congrArg List.length mark
  simp only [List.length_append, List.length_cons, List.length_nil] at nothing
  exact ⟨List.eq_nil_of_length_eq_zero (by omega), normal⟩

theorem ends_of_normal {node : Node} {trace : List Action}
    (path : frame.executes node trace .normal) : ∃ earlier, trace = earlier ++ [.ends node.id] := by
  cases node with
  | mk form info children =>
      unfold executes at path
      obtain ⟨start, _, rfl, _, path⟩ := path.of_normal
      obtain ⟨middle, _, rfl, _, rfl, _⟩ := path.of_normal
      exact ⟨start ++ middle, (List.append_assoc ..).symm⟩

theorem ends_of_runs {first : Node} {rest : List Node} {trace : List Action}
    (path : frame.runs (first :: rest) trace .normal) :
    ∃ earlier, trace = earlier ++ [.ends ((first :: rest).getLast (List.cons_ne_nil _ _)).id] := by
  induction rest generalizing first trace with
  | nil =>
      obtain ⟨_, _, rfl, own, rfl, _⟩ := path.of_normal
      rw [List.append_nil]
      exact ends_of_normal own
  | cons second rest induction =>
      obtain ⟨start, _, rfl, _, path⟩ := path.of_normal
      obtain ⟨earlier, rfl⟩ := induction path
      exact ⟨start ++ earlier, by simp⟩

/-- The marks around a statement stand outside of what it does. -/
theorem after_marked {body : Paths} {other : NodeId} {trace : List Action}
    {completion : Completion} (different : other ≠ id)
    (path : after id ((act (.begins other)).andThen (body.andThen (act (.ends other)))) trace
      completion) :
    ∃ rest, after id body rest completion ∧ (trace = rest ∨ trace = rest ++ [.ends other]) := by
  have begins : Silent id (act (.begins other)) := fun does => nomatch does_act does
  cases (silent_act different).after_second (begins.after_first path) with
  | stops early _ => exact ⟨trace, early, Or.inl rfl⟩
  | goesOn early last =>
      obtain ⟨rfl, rfl⟩ := last
      exact ⟨_, early, Or.inr rfl⟩

/-- What a statement does, or the body of a handler or of an arm. -/
def performs (frame : Frame) (node : Node) : Paths :=
  match node.form with
  | .handler _ _ | .matchCase => frame.executesRole .body node.children
  | _ => frame.executes node

theorem performs_of_fits {node : Node} (fitting : node.fits .statement = true) :
    frame.performs node = frame.executes node := by
  have statement : node.form.isStatement = true := Node.admits_of_fits fitting
  unfold performs
  generalize node.form = form at statement
  cases form <;> first | rfl | cases statement

/-- How a construct goes on after a part of one of its children.  In a `try` with handlers of
exception groups further handlers may follow, which are left out. -/
def resumes (frame : Frame) (node parent : Node) (paths : Paths) : Paths :=
  let rest := paths.andThen (frame.executesRole node.role (parent.followers node))
  let block (role : Role) := frame.executesRole role parent.children
  match parent.form, node.role with
  | .forLoop _, .body =>
      rejoins rest
        (loop attempt
          ((inOrder (frame.evaluatesRole .target parent.children)).andThen (block .body))
          (block .orelse))
  | .whileLoop, .body =>
      rejoins rest
        (loop (inOrder (frame.evaluatesRole .test parent.children)) (block .body) (block .orelse))
  | .withStmt _, _ => managed rest
  | .tryStmt isGroup, .body =>
      finished (rescued rest (block .orelse) (frame.handles isGroup parent.children))
        (block .finalbody)
  | .tryStmt _, .orelse => finished rest (block .finalbody)
  | .tryStmt _, .handler => finished paths (block .finalbody)
  | .tryStmt isGroup, .finalbody =>
      closes (rescued (block .body) (block .orelse) (frame.handles isGroup parent.children)) rest
  | .matchStmt, _ => paths
  | _, _ => rest

section

variable {node parent inner : Node} {trace : List Action} {completion : Completion}
  (distinct : parent.Distinct) (isChild : node ∈ parent.children) (inside : inner ∈ node.nodes)

include distinct isChild inside

private theorem silent_other {role : Role} (other : role ≠ node.role) :
    Silent inner.id (frame.executesRole role parent.children) := by
  apply silent_executesRole
  intro item isItem plays
  apply silent_executes
  apply distinct.not_mem_ids isChild isItem _ inside
  rintro rfl
  exact other plays.symm

private theorem silent_part {other : Node} (isOther : other ∈ parent.children)
    (apart : other ≠ node) :
    Silent inner.id (frame.executesRole .body other.children) := by
  apply silent_executesRole
  intro item isItem _
  apply silent_executes
  intro present
  apply distinct.not_mem_ids isChild isOther apart inside
  obtain ⟨lower, within, equal⟩ := List.mem_map.mp present
  exact List.mem_map.mpr ⟨lower, Node.nodes_of_child isItem within, equal⟩

theorem silent_handles {isGroup : Bool} (other : node.role ≠ .handler) :
    Silent inner.id (frame.handles isGroup parent.children) := by
  apply silent_handles_of_each
  intro handler isOther plays
  apply silent_part distinct isChild inside isOther
  rintro rfl
  exact other plays

/-- What follows a part of a statement in a list of statements. -/
theorem after_block {role : Role} (plays : node.role = role) (fitting : node.fits .statement = true)
    (path : after inner.id (frame.executesRole role parent.children) trace completion) :
    (after inner.id (frame.performs node)).andThen
      (frame.executesRole role (parent.followers node)) trace completion := by
  subst plays
  obtain ⟨earlier, split, notEarlier, notLater⟩ := Node.field_eq_append distinct isChild
  have silent (other : Node) (member : other ∈ parent.field node.role) (apart : other ≠ node) :
      Silent inner.id (frame.executes other) :=
    silent_executes (distinct.not_mem_ids isChild (Node.mem_field.mp member).1 apart inside)
  have rest : frame.executesRole node.role (parent.followers node) =
      inOrder ((parent.followers node).map frame.executes) := by
    rw [executesRole_eq, List.filter_eq_self.mpr]
    intro other member
    exact decide_eq_true (Node.mem_followers member).2
  rw [executesRole_eq] at path
  change after inner.id (inOrder ((parent.field node.role).map frame.executes)) _ _ at path
  rw [split, List.map_append, List.map_cons] at path
  rw [performs_of_fits fitting, rest]
  apply after_inOrder _ _ path
  · intro part member
    obtain ⟨other, isOther, rfl⟩ := List.mem_map.mp member
    apply silent other
    · rw [split]
      exact List.mem_append_left _ isOther
    · rintro rfl
      exact notEarlier isOther
  · intro part member
    obtain ⟨other, isOther, rfl⟩ := List.mem_map.mp member
    apply silent other
    · rw [split]
      exact List.mem_append_right _ (List.mem_cons_of_mem _ isOther)
    · rintro rfl
      exact notLater isOther

/-- What follows a part of a handler follows a part of its body. -/
theorem after_handles {isGroup : Bool}
    (fits : node.fits .handler = true) (single : isGroup = false)
    (path : after inner.id (frame.handles isGroup parent.children) trace completion) :
    after inner.id (frame.performs node) trace completion := by
  have closed := closed_silent inner.id
  subst single
  have tests : ∀ entry ∈ frame.handlerPaths parent.children, Silent inner.id entry.1 := by
    rw [handlerPaths_eq]
    intro entry member
    obtain ⟨handler, _, rfl⟩ := List.mem_map.mp member
    exact closed.ordered frame _ _
  obtain ⟨entry, member, path⟩ := after_dispatch tests path
  rw [handlerPaths_eq] at member
  obtain ⟨handler, isHandler, rfl⟩ := List.mem_map.mp member
  replace path := (closed.bindsHandler frame handler).after_first path
  obtain ⟨isOther, _⟩ := List.mem_filter.mp isHandler
  by_cases same : handler = node
  · subst same
    obtain ⟨name, caught, form⟩ := Node.form_of_handler fits
    unfold performs
    rw [form]
    exact path
  · exact absurd path (silent_part distinct isChild inside isOther same).not_after

theorem after_arms (fits : node.fits .arm = true)
    (path : after inner.id (select (frame.armPaths parent.children)) trace completion) :
    after inner.id (frame.performs node) trace completion := by
  have closed := closed_silent inner.id
  have tests : ∀ entry ∈ frame.armPaths parent.children,
      Silent inner.id entry.1 ∧ Silent inner.id entry.2.1 := by
    rw [armPaths_eq]
    intro entry member
    obtain ⟨arm, _, rfl⟩ := List.mem_map.mp member
    exact ⟨closed.matchesPatterns frame _, closed.ordered frame _ _⟩
  obtain ⟨entry, member, path⟩ := after_select tests path
  rw [armPaths_eq] at member
  obtain ⟨arm, isArm, rfl⟩ := List.mem_map.mp member
  obtain ⟨isOther, _⟩ := List.mem_filter.mp isArm
  by_cases same : arm = node
  · subst same
    unfold performs
    rw [Node.form_of_arm fits]
    exact path
  · exact absurd path (silent_part distinct isChild inside isOther same).not_after

/-- What follows a part of a construct follows a part of one of its children. -/
theorem resumes_of_after {slot outer : Slot} (fitting : parent.fits outer = true)
    (holds : parent.form.Holds node.role slot)
    (single : parent.form = .tryStmt true → node.role ≠ .handler)
    (path : after inner.id (frame.performs parent) trace completion) :
    ∃ rest, frame.resumes node parent (after inner.id (frame.performs node)) rest completion ∧
      (trace = rest ∨ trace = rest ++ [.ends parent.id]) := by
  have closed := closed_silent inner.id
  have fits := Node.fits_of_slot fitting isChild holds.listed
  have expression (role : Role) := closed.ordered frame role parent.children
  have other (role : Role) (apart : role ≠ node.role) :
      Silent inner.id (frame.executesRole role parent.children) :=
    silent_other distinct isChild inside apart
  have marked {body : Paths} (path : after inner.id
      ((act (.begins parent.id)).andThen (body.andThen (act (.ends parent.id)))) trace
      completion) :
      ∃ rest, after inner.id body rest completion ∧
        (trace = rest ∨ trace = rest ++ [.ends parent.id]) :=
    after_marked (distinct.ne_id isChild inside) path
  have block {role : Role} (plays : node.role = role) (fits : node.fits .statement = true)
      {trace : List Action} {completion : Completion}
      (path : after inner.id (frame.executesRole role parent.children) trace completion) :=
    after_block distinct isChild inside plays fits path
  have handlers (isGroup : Bool) (apart : node.role ≠ .handler) :
      Silent inner.id (frame.handles isGroup parent.children) :=
    silent_handles distinct isChild inside apart
  have arms (fits : node.fits .arm = true) {trace : List Action} {completion : Completion}
      (path : after inner.id (select (frame.armPaths parent.children)) trace completion) :=
    after_arms distinct isChild inside fits path
  have handled (fits : node.fits .handler = true) {trace : List Action} {completion : Completion}
      (path : after inner.id (frame.handles false parent.children) trace completion) :=
    after_handles distinct isChild inside fits rfl path
  obtain ⟨form, info, children⟩ := parent
  unfold resumes
  generalize plays : node.role = role at holds
  simp only [plays] at other handlers
  cases holds with
  | branch =>
      obtain ⟨rest, path, ends⟩ := marked path
      refine ⟨rest, ?_, ends⟩
      rcases after_either ((expression .test).after_first path) with path | path
      · exact block plays fits path
      · exact absurd path (other .orelse nofun).not_after
  | alternative =>
      obtain ⟨rest, path, ends⟩ := marked path
      refine ⟨rest, ?_, ends⟩
      rcases after_either ((expression .test).after_first path) with path | path
      · exact absurd path (other .body nofun).not_after
      · exact block plays fits path
  | forRound isAsync =>
      obtain ⟨rest, path, ends⟩ := marked path
      refine ⟨rest, ?_, ends⟩
      have rejoined := after_loop closed.attempt (other .orelse nofun)
        ((expression .iterable).after_first path)
      apply rejoined.mono
      intro trace completion path
      exact block plays fits ((expression .target).after_first path)
  | forEnd isAsync =>
      obtain ⟨rest, path, ends⟩ := marked path
      refine ⟨rest, ?_, ends⟩
      have silent := closed.andThen (expression .target) (other .body nofun)
      exact block plays fits
        (after_loop_end closed.attempt silent ((expression .iterable).after_first path))
  | whileRound =>
      obtain ⟨rest, path, ends⟩ := marked path
      refine ⟨rest, ?_, ends⟩
      apply (after_loop (expression .test) (other .orelse nofun) path).mono
      intro trace completion path
      exact block plays fits path
  | whileEnd =>
      obtain ⟨rest, path, ends⟩ := marked path
      exact ⟨rest, block plays fits (after_loop_end (expression .test) (other .body nofun) path),
        ends⟩
  | managed isAsync =>
      obtain ⟨rest, path, ends⟩ := marked path
      refine ⟨rest, ?_, ends⟩
      obtain ⟨how, path, counts⟩ := after_managed ((expression .item).after_first path)
      exact ⟨how, block plays fits path, counts⟩
  | tried isGroup =>
      obtain ⟨rest, path, ends⟩ := marked path
      refine ⟨rest, ?_, ends⟩
      apply ((other .finalbody nofun).after_inner path).mono
      intro trace completion path
      rcases after_rescued path with path | path | path
      · exact path.mono fun _ _ path => block plays fits path
      · exact absurd path (other .orelse nofun).not_after
      · exact absurd path (handlers isGroup nofun).not_after
  | rescue isGroup =>
      obtain ⟨rest, path, ends⟩ := marked path
      refine ⟨rest, ?_, ends⟩
      cases isGroup with
      | true => exact absurd plays (single rfl)
      | false =>
          apply ((other .finalbody nofun).after_inner path).mono
          intro trace completion path
          have path := (other .body nofun).after_tried path
          exact handled fits (path.resolve_left (other .orelse nofun).not_after)
  | completed isGroup =>
      obtain ⟨rest, path, ends⟩ := marked path
      refine ⟨rest, ?_, ends⟩
      apply ((other .finalbody nofun).after_inner path).mono
      intro trace completion path
      have path := (other .body nofun).after_tried path
      exact block plays fits (path.resolve_right (handlers isGroup nofun).not_after)
  | final isGroup =>
      obtain ⟨rest, path, ends⟩ := marked path
      refine ⟨rest, ?_, ends⟩
      have tried := (other .body nofun).in_rescued (other .orelse nofun) (handlers isGroup nofun)
      obtain ⟨own, path, counts⟩ := tried.after_last path
      exact ⟨own, block plays fits path, counts⟩
  | handled name caught => exact ⟨trace, block plays fits path, Or.inl rfl⟩
  | arm =>
      obtain ⟨rest, path, ends⟩ := marked path
      exact ⟨rest, arms fits ((expression .subject).after_first path), ends⟩
  | matched => exact ⟨trace, block plays fits path, Or.inl rfl⟩

end

end Frame

end SafeRefactor
