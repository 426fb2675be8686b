import SafeRefactor.Proofs.Evaluation
import SafeRefactor.Proofs.Grammar

/-!
# Jumps

A path leaves a statement by `break` or `continue` only where such a statement stands
in it, outside of nested loops, functions and classes.  Expressions cannot be left in
this way at all.
-/

namespace SafeRefactor

namespace Paths

/-- Some path completes in the given way. -/
def Ends (paths : Paths) (how : Completion) : Prop :=
  ∃ trace, paths trace how

/-- Every path ends normally or raises. -/
def Calm (paths : Paths) : Prop :=
  ∀ how, paths.Ends how → how = .normal ∨ how = .raised

variable {first second : Paths} {how : Completion}

theorem ends_andThen (ends : (first.andThen second).Ends how) :
    (first.Ends how ∧ how ≠ .normal) ∨ second.Ends how := by
  obtain ⟨trace, path⟩ := ends
  cases path with
  | stops path early => exact Or.inl ⟨⟨_, path⟩, early⟩
  | goesOn _ later => exact Or.inr ⟨_, later⟩

theorem ends_either (ends : (first.either second).Ends how) :
    first.Ends how ∨ second.Ends how := by
  obtain ⟨trace, path | path⟩ := ends
  · exact Or.inl ⟨trace, path⟩
  · exact Or.inr ⟨trace, path⟩

theorem calm_act {action : Action} : (act action).Calm := by
  rintro how ⟨trace, _, rfl⟩
  exact Or.inl rfl

theorem calm_called : (called first).Calm := by
  rintro how ⟨trace, calm, _⟩
  exact calm

theorem calm_classBody : (classBody first).Calm := by
  rintro how ⟨trace, ⟨_, rfl⟩ | ⟨_, _, _, rfl⟩⟩
  · exact Or.inl rfl
  · exact Or.inr rfl

private theorem calm_failed : (failed first).Calm := by
  rintro how ⟨trace, calm, _⟩
  exact calm

theorem Calm.andThen (left : first.Calm) (right : second.Calm) : (first.andThen second).Calm := by
  intro how ends
  rcases ends_andThen ends with ⟨ends, _⟩ | ends
  · exact left how ends
  · exact right how ends

theorem Calm.either (left : first.Calm) (right : second.Calm) : (first.either second).Calm := by
  intro how ends
  rcases ends_either ends with ends | ends
  · exact left how ends
  · exact right how ends

theorem Calm.repeated (calm : first.Calm) : (repeated first).Calm := by
  rintro how ⟨trace, path⟩
  induction path with
  | none => exact Or.inl rfl
  | more _ _ induction => exact induction
  | stops path _ => exact calm _ ⟨_, path⟩

theorem calm_inOrder {parts : List Paths} (each : ∀ part ∈ parts, part.Calm) :
    (inOrder parts).Calm := by
  induction parts with
  | nil =>
      rintro how ⟨trace, _, rfl⟩
      exact Or.inl rfl
  | cons part rest induction =>
      have later := induction fun other member => each other (List.mem_cons_of_mem _ member)
      exact (each part List.mem_cons_self).andThen later

theorem closed_calm : Closed Calm where
  done := by
    rintro how ⟨trace, _, rfl⟩
    exact Or.inl rfl
  reads _ := calm_act
  writes _ := calm_act
  raise := by
    rintro how ⟨trace, _, rfl⟩
    exact Or.inr rfl
  andThen := Calm.andThen
  either := Calm.either
  inSomeOrder each := by
    rintro how ⟨trace, order, permuted, path⟩
    exact calm_inOrder (fun part member => each part (permuted.subset member)) how ⟨trace, path⟩
  repeated := Calm.repeated
  called _ := calm_called

end Paths

def Completion.isJump : Completion → Bool
  | .broken | .continued => true
  | _ => false

namespace Node

mutual

/-- Whether a node can be left by a jump that stands in it. -/
def jumps (how : Completion) : Node → Bool
  | .mk form _ children =>
      match form with
      | .breakStmt => how = .broken
      | .continueStmt => how = .continued
      | .forLoop _ | .whileLoop => jumpsRole how .orelse children
      | .functionDef .. | .classDef _ => false
      | _ => jumpsAny how children

def jumpsAny (how : Completion) : List Node → Bool
  | [] => false
  | node :: rest => jumps how node || jumpsAny how rest

def jumpsRole (how : Completion) (role : Role) : List Node → Bool
  | [] => false
  | node :: rest => (node.role = role && jumps how node) || jumpsRole how role rest

end

theorem jumpsAny_iff {how : Completion} {items : List Node} :
    jumpsAny how items = true ↔ ∃ item ∈ items, item.jumps how = true := by
  induction items with
  | nil => simp [jumpsAny]
  | cons item items induction => simp [jumpsAny, induction]

private theorem jumpsRole_iff {how : Completion} {role : Role} {items : List Node} :
    jumpsRole how role items = true ↔
      ∃ item ∈ items, item.role = role ∧ item.jumps how = true := by
  induction items with
  | nil => simp [jumpsRole]
  | cons item items induction => simp [jumpsRole, induction]

end Node

namespace Paths

variable {first second : Paths} {how : Completion}

theorem Calm.not_ends (calm : first.Calm) (jump : how.isJump = true) : ¬ first.Ends how := by
  intro ends
  rcases calm how ends with rfl | rfl
  · cases jump
  · cases jump

/-- Code after an expression is left by a jump of its own. -/
theorem Calm.ends_after (calm : first.Calm) (jump : how.isJump = true)
    (ends : (first.andThen second).Ends how) : second.Ends how :=
  (ends_andThen ends).resolve_left fun early => calm.not_ends jump early.1

theorem ends_loop {test body orelse : Paths} (calm : test.Calm) (jump : how.isJump = true)
    (ends : (loop test body orelse).Ends how) : orelse.Ends how := by
  obtain ⟨trace, path⟩ := ends
  induction path with
  | fails path _ => exact absurd ⟨_, path⟩ (calm.not_ends jump)
  | exhausted _ later => exact ⟨_, later⟩
  | breaks _ _ => cases jump
  | leaves _ _ left =>
      rcases left with rfl | rfl
      · cases jump
      · cases jump
  | again _ _ _ _ induction => exact induction jump

theorem ends_managed (jump : how.isJump = true) (ends : (managed first).Ends how) :
    first.Ends how := by
  obtain ⟨trace, inner, path, rfl | rfl⟩ := ends
  · exact ⟨trace, path⟩
  · cases jump

theorem ends_finished (ends : (finished first second).Ends how) :
    first.Ends how ∨ second.Ends how := by
  obtain ⟨trace, path⟩ := ends
  cases path with
  | resumes path _ => exact Or.inl ⟨_, path⟩
  | overrides _ later _ => exact Or.inr ⟨_, later⟩

theorem ends_rescued {body orelse rescue : Paths} (ends : (rescued body orelse rescue).Ends how) :
    body.Ends how ∨ orelse.Ends how ∨ rescue.Ends how := by
  obtain ⟨trace, path⟩ := ends
  cases path with
  | completes _ later => exact Or.inr (Or.inl ⟨_, later⟩)
  | rescues _ later => exact Or.inr (Or.inr ⟨_, later⟩)
  | leaves path _ _ => exact Or.inl ⟨_, path⟩

theorem ends_dispatch {handlers : List (Paths × Paths)} (jump : how.isJump = true)
    (calm : ∀ handler ∈ handlers, handler.1.Calm) (ends : (dispatch handlers).Ends how) :
    ∃ handler ∈ handlers, handler.2.Ends how := by
  induction handlers with
  | nil => exact absurd ends (closed_calm.raise.not_ends jump)
  | cons handler rest induction =>
      rcases ends_either ((calm handler List.mem_cons_self).ends_after jump ends) with ends | ends
      · exact ⟨handler, List.mem_cons_self, ends⟩
      · obtain ⟨other, member, ends⟩ :=
          induction (fun other member => calm other (List.mem_cons_of_mem _ member)) ends
        exact ⟨other, List.mem_cons_of_mem _ member, ends⟩

theorem calm_dispatchGroup {handlers : List (Paths × Paths)} {handled failed : Bool}
    (calm : ∀ handler ∈ handlers, handler.1.Calm) :
    (dispatchGroup handled failed handlers).Calm := by
  induction handlers generalizing handled failed with
  | nil =>
      cases handled with
      | false => exact closed_calm.raise
      | true =>
          cases failed with
          | false => exact closed_calm.attempt
          | true => exact closed_calm.raise
  | cons handler rest induction =>
      have later (handled failed : Bool) : (dispatchGroup handled failed rest).Calm :=
        induction fun other member => calm other (List.mem_cons_of_mem _ member)
      have normally {body : Paths} : body.completed.Calm := by
        rintro how ⟨trace, _, rfl⟩
        exact Or.inl rfl
      have kept {body : Paths} : body.absorbed.Calm := by
        rintro how ⟨trace, _, rfl⟩
        exact Or.inl rfl
      obtain ⟨test, body⟩ := handler
      simp only [dispatchGroup]
      apply (calm (test, body) List.mem_cons_self).andThen
      exact (later handled failed).either
        ((normally.andThen (later true failed)).either (kept.andThen (later true true)))

theorem ends_select {arms : List (Paths × Paths × Paths)} (jump : how.isJump = true)
    (calm : ∀ arm ∈ arms, arm.1.Calm ∧ arm.2.1.Calm) (ends : (select arms).Ends how) :
    ∃ arm ∈ arms, arm.2.2.Ends how := by
  induction arms with
  | nil => exact absurd ends (closed_calm.done.not_ends jump)
  | cons arm rest induction =>
      obtain ⟨pattern, guard⟩ := calm arm List.mem_cons_self
      have later (ends : (select rest).Ends how) : ∃ other ∈ arm :: rest, other.2.2.Ends how := by
        obtain ⟨other, member, ends⟩ :=
          induction (fun other member => calm other (List.mem_cons_of_mem _ member)) ends
        exact ⟨other, List.mem_cons_of_mem _ member, ends⟩
      rcases ends_either ends with ends | ends
      · exact later (calm_failed.ends_after jump ends)
      · rcases ends_either (guard.ends_after jump (pattern.ends_after jump ends)) with ends | ends
        · exact ⟨arm, List.mem_cons_self, ends⟩
        · exact later ends

end Paths

namespace Frame

open Paths

variable {frame : Frame}

theorem executesRole_eq (role : Role) (items : List Node) :
    frame.executesRole role items =
      inOrder ((items.filter (fun item => item.role = role)).map frame.executes) := by
  induction items with
  | nil => rfl
  | cons item items induction =>
      by_cases plays : item.role = role
      · simp [executesRole, plays, inOrder, induction]
      · simp [executesRole, plays, induction]

theorem handlerPaths_eq (items : List Node) :
    frame.handlerPaths items =
      (items.filter (fun item => item.role = .handler)).map fun handler =>
        (inOrder (frame.evaluatesRole .caught handler.children),
          (frame.bindsHandler handler).andThen (frame.executesRole .body handler.children)) := by
  induction items with
  | nil => rfl
  | cons item items induction =>
      obtain ⟨form, info, parts⟩ := item
      by_cases plays : info.role = .handler
      · simp [handlerPaths, plays, induction]
      · simp [handlerPaths, plays, induction]

theorem armPaths_eq (items : List Node) :
    frame.armPaths items =
      (items.filter (fun item => item.role = .arm)).map fun arm =>
        (frame.matchesPatterns arm.children, inOrder (frame.evaluatesRole .guard arm.children),
          frame.executesRole .body arm.children) := by
  induction items with
  | nil => rfl
  | cons item items induction =>
      obtain ⟨form, info, parts⟩ := item
      by_cases plays : info.role = .arm
      · simp [armPaths, plays, induction]
      · simp [armPaths, plays, induction]

theorem ends_inOrder {parts : List Paths} {how : Completion} (jump : how.isJump = true)
    (ends : (inOrder parts).Ends how) : ∃ part ∈ parts, part.Ends how := by
  induction parts with
  | nil => exact absurd ends (closed_calm.done.not_ends jump)
  | cons part rest induction =>
      rcases ends_andThen ends with ⟨ends, _⟩ | ends
      · exact ⟨part, List.mem_cons_self, ends⟩
      · obtain ⟨other, member, ends⟩ := induction ends
        exact ⟨other, List.mem_cons_of_mem _ member, ends⟩

theorem ends_executesRole {role : Role} {items : List Node} {how : Completion}
    (jump : how.isJump = true) (ends : (frame.executesRole role items).Ends how) :
    ∃ item ∈ items, item.role = role ∧ (frame.executes item).Ends how := by
  rw [executesRole_eq] at ends
  obtain ⟨part, member, ends⟩ := ends_inOrder jump ends
  obtain ⟨item, isItem, rfl⟩ := List.mem_map.mp member
  obtain ⟨isItem, plays⟩ := List.mem_filter.mp isItem
  exact ⟨item, isItem, of_decide_eq_true plays, ends⟩

/-- The handlers of a `try` after an exception. -/
def handles (frame : Frame) (isGroup : Bool) (children : List Node) : Paths :=
  if isGroup then dispatchGroup false false (frame.handlerPaths children)
  else dispatch (frame.handlerPaths children)

theorem ends_handles {isGroup : Bool} {items : List Node} {how : Completion}
    (jump : how.isJump = true) (ends : (frame.handles isGroup items).Ends how) :
    ∃ handler ∈ items, handler.role = .handler ∧
      (frame.executesRole .body handler.children).Ends how := by
  have tests : ∀ entry ∈ frame.handlerPaths items, entry.1.Calm := by
    rw [handlerPaths_eq]
    intro entry member
    obtain ⟨handler, _, rfl⟩ := List.mem_map.mp member
    exact closed_calm.ordered frame _ _
  cases isGroup with
  | true => exact absurd ends ((calm_dispatchGroup tests).not_ends jump)
  | false =>
      obtain ⟨entry, member, ends⟩ := ends_dispatch jump tests ends
      rw [handlerPaths_eq] at member
      obtain ⟨handler, isHandler, rfl⟩ := List.mem_map.mp member
      obtain ⟨isItem, plays⟩ := List.mem_filter.mp isHandler
      exact ⟨handler, isItem, of_decide_eq_true plays,
        (closed_calm.bindsHandler frame _).ends_after jump ends⟩

theorem ends_arms {items : List Node} {how : Completion} (jump : how.isJump = true)
    (ends : (select (frame.armPaths items)).Ends how) :
    ∃ arm ∈ items, arm.role = .arm ∧ (frame.executesRole .body arm.children).Ends how := by
  have tests : ∀ entry ∈ frame.armPaths items, entry.1.Calm ∧ entry.2.1.Calm := by
    rw [armPaths_eq]
    intro entry member
    obtain ⟨arm, _, rfl⟩ := List.mem_map.mp member
    exact ⟨closed_calm.matchesPatterns frame _, closed_calm.ordered frame _ _⟩
  obtain ⟨entry, member, ends⟩ := ends_select jump tests ends
  rw [armPaths_eq] at member
  obtain ⟨arm, isArm, rfl⟩ := List.mem_map.mp member
  obtain ⟨isItem, plays⟩ := List.mem_filter.mp isArm
  exact ⟨arm, isItem, of_decide_eq_true plays, ends⟩

theorem jumps_of_part {part : Node} {slot : Slot} {how : Completion}
    (isPart : slot = .handler ∨ slot = .arm) (fitting : part.fits slot = true)
    (jump : how.isJump = true) (ends : (frame.executesRole .body part.children).Ends how)
    (each : ∀ inner ∈ part.children, inner.fits .statement = true →
      (frame.executes inner).Ends how → inner.jumps how = true) :
    part.jumps how = true := by
  obtain ⟨inner, isInner, plays, ends⟩ := ends_executesRole jump ends
  have shape : (.body, Slot.statement) ∈ part.form.slots ∧
      part.jumps how = Node.jumpsAny how part.children := by
    rcases isPart with rfl | rfl
    · obtain ⟨name, caught, form⟩ := Node.form_of_handler fitting
      obtain ⟨_, info, children⟩ := part
      cases form
      exact ⟨by simp [Form.slots], rfl⟩
    · have form := Node.form_of_arm fitting
      obtain ⟨_, info, children⟩ := part
      cases form
      exact ⟨by simp [Form.slots], rfl⟩
  have fits := Node.fits_of_slot fitting isInner (plays ▸ shape.1)
  rw [shape.2]
  exact Node.jumpsAny_iff.mpr ⟨inner, isInner, each inner isInner fits ends⟩

/-- A statement is left by a jump only where the jump stands in it. -/
theorem jumps_of_ends {node : Node} {how : Completion} (fitting : node.fits .statement = true)
    (jump : how.isJump = true) (ends : (frame.executes node).Ends how) :
    node.jumps how = true := by
  induction node using Node.strongInduction with
  | step form info children induction =>
      have fromRole (role : Role) (block : (role, Slot.statement) ∈ form.slots)
          (ends : (frame.executesRole role children).Ends how) :
          ∃ child ∈ children, child.role = role ∧ child.jumps how = true := by
        obtain ⟨child, member, rfl, endsChild⟩ := ends_executesRole jump ends
        have fittingChild := Node.fits_of_slot fitting member block
        exact ⟨child, member, rfl,
          induction child member child (Node.self_mem_nodes child) fittingChild endsChild⟩
      have fromList (role : Role) (block : (role, Slot.statement) ∈ form.slots)
          (ends : (frame.executesRole role children).Ends how) :
          Node.jumpsAny how children = true := by
        obtain ⟨child, member, _, jumps⟩ := fromRole role block ends
        exact Node.jumpsAny_iff.mpr ⟨child, member, jumps⟩
      have fromPart {part : Node} {slot : Slot} (member : part ∈ children)
          (isPart : slot = .handler ∨ slot = .arm) (listed : (part.role, slot) ∈ form.slots)
          (ends : (frame.executesRole .body part.children).Ends how) :
          Node.jumpsAny how children = true := by
        have fits := Node.fits_of_slot fitting member listed
        have jumps := jumps_of_part isPart fits jump ends fun inner isInner =>
          induction part member inner (Node.child_mem_nodes isInner)
        exact Node.jumpsAny_iff.mpr ⟨part, member, jumps⟩
      have calm (role : Role) := closed_calm.ordered frame role children
      have calmEach := closed_calm.orderedEach frame children
      unfold executes at ends
      replace ends := calm_act.ends_after jump ends
      replace ends := ((ends_andThen ends).resolve_right (calm_act.not_ends jump)).1
      unfold Node.jumps
      cases form with
      | functionDef isAsync name returns =>
          refine absurd ends (Calm.not_ends ?_ jump)
          apply (calm .decorator).andThen
          apply (closed_calm.defaults frame children).andThen
          exact calm_called.andThen (closed_calm.binds frame _ name)
      | classDef name =>
          refine absurd ends (Calm.not_ends ?_ jump)
          apply (calm .decorator).andThen
          apply (calm .base).andThen
          apply (calm .keyword).andThen
          exact calm_classBody.andThen (closed_calm.binds frame _ name)
      | assign => exact absurd ends (((calm .value).andThen (calm .target)).not_ends jump)
      | annAssign hint => exact absurd ends ((closed_calm.annotates frame _).not_ends jump)
      | augAssign => exact absurd ends ((closed_calm.augments frame _).not_ends jump)
      | returnStmt =>
          obtain ⟨trace, _, rfl⟩ := calmEach.ends_after jump ends
          cases jump
      | raiseStmt =>
          obtain ⟨trace, _, rfl⟩ := calmEach.ends_after jump ends
          cases jump
      | breakStmt =>
          obtain ⟨trace, _, rfl⟩ := ends
          rfl
      | continueStmt =>
          obtain ⟨trace, _, rfl⟩ := ends
          rfl
      | assertStmt =>
          have failing := closed_calm.optional ((calm .message).andThen closed_calm.raise)
          exact absurd ends (((calm .test).andThen failing).not_ends jump)
      | ifStmt =>
          rcases ends_either ((calm .test).ends_after jump ends) with ends | ends
          · exact fromList .body (by simp [Form.slots]) ends
          · exact fromList .orelse (by simp [Form.slots]) ends
      | forLoop isAsync =>
          have ends := ends_loop closed_calm.attempt jump ((calm .iterable).ends_after jump ends)
          exact Node.jumpsRole_iff.mpr (fromRole .orelse (by simp [Form.slots]) ends)
      | whileLoop =>
          have ends := ends_loop (calm .test) jump ends
          exact Node.jumpsRole_iff.mpr (fromRole .orelse (by simp [Form.slots]) ends)
      | withStmt isAsync =>
          have ends := ends_managed jump ((calm .item).ends_after jump ends)
          exact fromList .body (by simp [Form.slots]) ends
      | tryStmt isGroup =>
          rcases ends_finished ends with ends | ends
          · rcases ends_rescued ends with ends | ends | ends
            · exact fromList .body (by simp [Form.slots]) ends
            · exact fromList .orelse (by simp [Form.slots]) ends
            · obtain ⟨handler, isChild, plays, ends⟩ := ends_handles jump ends
              exact fromPart isChild (Or.inl rfl) (by simp [plays, Form.slots]) ends
          · exact fromList .finalbody (by simp [Form.slots]) ends
      | matchStmt =>
          obtain ⟨arm, isChild, plays, ends⟩ :=
            ends_arms jump ((calm .subject).ends_after jump ends)
          exact fromPart isChild (Or.inr rfl) (by simp [plays, Form.slots]) ends
      | importStmt => exact absurd ends ((closed_calm.imports frame _).not_ends jump)
      | importFrom module level => exact absurd ends ((closed_calm.imports frame _).not_ends jump)
      | _ => exact absurd ends (calmEach.not_ends jump)

end Frame

end SafeRefactor
