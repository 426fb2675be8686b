import SafeRefactor.Proofs.Paths
import SafeRefactor.Proofs.Subtree

/-!
# Paths of expressions

The paths of an expression are put together from reads, writes and exceptions in a few
ways.  A property of paths that these ways of putting code together preserve holds of
every expression, and of what patterns, imports and assignments do.
-/

namespace SafeRefactor

namespace Paths

/-- A property of paths holds of the parts of expressions and is kept when they are put
together. -/
structure Closed (holds : Paths → Prop) : Prop where
  done : holds done
  reads : ∀ symbol, holds (act (.reads symbol))
  writes : ∀ symbol, holds (act (.writes symbol))
  raise : holds (stop .raised)
  andThen : ∀ {first second}, holds first → holds second → holds (andThen first second)
  either : ∀ {first second}, holds first → holds second → holds (either first second)
  inSomeOrder : ∀ {parts}, (∀ part ∈ parts, holds part) → holds (inSomeOrder parts)
  repeated : ∀ {round}, holds round → holds (repeated round)
  called : ∀ {body}, holds body → holds (called body)

namespace Closed

variable {holds : Paths → Prop} (closed : Closed holds)

include closed

theorem attempt : holds attempt :=
  closed.either closed.done closed.raise

theorem optional {paths : Paths} (own : holds paths) : holds (optional paths) :=
  closed.either closed.done own

theorem inOrder {parts : List Paths} (each : ∀ part ∈ parts, holds part) :
    holds (inOrder parts) := by
  induction parts with
  | nil => exact closed.done
  | cons part rest induction =>
      apply closed.andThen (each part List.mem_cons_self)
      exact induction fun other member => each other (List.mem_cons_of_mem _ member)

theorem shortCircuit {parts : List Paths} (each : ∀ part ∈ parts, holds part) :
    holds (shortCircuit parts) := by
  induction parts with
  | nil => exact closed.done
  | cons part rest induction =>
      apply closed.andThen (each part List.mem_cons_self)
      apply closed.optional
      exact induction fun other member => each other (List.mem_cons_of_mem _ member)

theorem behind {conditions : List Paths} {inner : Paths}
    (each : ∀ part ∈ conditions, holds part) (own : holds inner) :
    holds (behind conditions inner) := by
  induction conditions with
  | nil => exact own
  | cons part rest induction =>
      apply closed.andThen (each part List.mem_cons_self)
      apply closed.optional
      exact induction fun other member => each other (List.mem_cons_of_mem _ member)

end Closed

end Paths

namespace Frame

open Paths

section

variable {frame : Frame} {holds : Paths → Prop}

private theorem holds_evaluatesEach {items : List Node}
    (each : ∀ item ∈ items, holds (frame.evaluates item)) :
    ∀ part ∈ frame.evaluatesEach items, holds part := by
  induction items with
  | nil => simp [evaluatesEach]
  | cons item items induction =>
      have rest := induction fun other member => each other (List.mem_cons_of_mem _ member)
      intro part member
      rcases List.mem_cons.mp member with rfl | member
      · exact each item List.mem_cons_self
      · exact rest part member

private theorem holds_evaluatesRole (role : Role) {items : List Node}
    (each : ∀ item ∈ items, holds (frame.evaluates item)) :
    ∀ part ∈ frame.evaluatesRole role items, holds part := by
  induction items with
  | nil => simp [evaluatesRole]
  | cons item items induction =>
      have rest := induction fun other member => each other (List.mem_cons_of_mem _ member)
      unfold evaluatesRole
      split
      · intro part member
        rcases List.mem_cons.mp member with rfl | member
        · exact each item List.mem_cons_self
        · exact rest part member
      · exact rest

private theorem holds_evaluatesDefaults {items : List Node}
    (each : ∀ item ∈ items, ∀ part ∈ item.children, holds (frame.evaluates part)) :
    ∀ part ∈ frame.evaluatesDefaults items, holds part := by
  induction items with
  | nil => simp [evaluatesDefaults]
  | cons item items induction =>
      obtain ⟨form, info, parts⟩ := item
      have rest := induction fun other member => each other (List.mem_cons_of_mem _ member)
      have own (role : Role) := holds_evaluatesRole role (each _ List.mem_cons_self)
      unfold evaluatesDefaults
      split
      · intro part member
        rcases List.mem_append.mp member with member | member
        · rcases List.mem_append.mp member with member | member
          · exact own .default part member
          · exact own .keywordDefault part member
        · exact rest part member
      · exact rest

end

end Frame

namespace Paths.Closed

variable {holds : Paths → Prop} (closed : Closed holds) (frame : Frame)

include closed

theorem touches (node : Node) (context : Context) : holds (frame.touches node context) := by
  unfold Frame.touches
  split
  · exact closed.done
  · exact closed.reads _
  · exact closed.reads _
  · exact closed.writes _

theorem binds (node : Node) (name : String) : holds (frame.binds node name) := by
  unfold Frame.binds
  split
  · exact closed.writes _
  · exact closed.done

theorem evaluatesClauses {items : List Node} {inner : Paths} (innermost : holds inner)
    (each : ∀ item ∈ items, ∀ part ∈ item.children, holds (frame.evaluates part)) :
    holds (frame.evaluatesClauses inner items) := by
  induction items with
  | nil =>
      unfold Frame.evaluatesClauses
      exact innermost
  | cons item items induction =>
      obtain ⟨form, info, parts⟩ := item
      have rest := induction fun other member => each other (List.mem_cons_of_mem _ member)
      have own (role : Role) := Frame.holds_evaluatesRole role (each _ List.mem_cons_self)
      unfold Frame.evaluatesClauses
      split
      · apply closed.andThen (closed.inOrder (own .iterable))
        apply closed.repeated
        exact closed.andThen (closed.inOrder (own .target)) (closed.behind (own .condition) rest)
      · exact rest

/-- A closed property holds of every expression. -/
theorem evaluates (node : Node) : holds (frame.evaluates node) := by
  induction node using Node.strongInduction with
  | step form info children induction =>
      have each : ∀ child ∈ children, holds (frame.evaluates child) := fun child member =>
        induction child member child (Node.self_mem_nodes child)
      have parts : ∀ child ∈ children, ∀ part ∈ child.children, holds (frame.evaluates part) :=
        fun child member part isPart => induction child member part (Node.child_mem_nodes isPart)
      have role (role : Role) := Frame.holds_evaluatesRole role each
      have ordered (role : Role) := closed.inOrder (Frame.holds_evaluatesRole role each)
      unfold Frame.evaluates
      apply closed.andThen _ closed.attempt
      cases form with
      | name id context => exact closed.touches frame _ context
      | namedExpr => exact closed.andThen (ordered .value) (ordered .target)
      | lambda =>
          have defaults := closed.inOrder (Frame.holds_evaluatesDefaults parts)
          exact closed.andThen defaults (closed.called (ordered .result))
      | comprehension kind =>
          have element := closed.andThen (ordered .value) (ordered .element)
          exact closed.evaluatesClauses frame (closed.andThen (ordered .key) element) parts
      | boolOp => exact closed.shortCircuit (role .operand)
      | compare => exact closed.andThen (ordered .left) (closed.shortCircuit (role .right))
      | ifExp =>
          apply closed.andThen (ordered .test)
          exact closed.either (ordered .result) (ordered .alternative)
      | dict => exact closed.inSomeOrder (Frame.holds_evaluatesEach each)
      | call =>
          apply closed.andThen (ordered .callee)
          apply closed.inSomeOrder
          intro part member
          rcases List.mem_append.mp member with member | member
          · exact role .argument part member
          · exact role .keyword part member
      | _ => exact closed.inOrder (Frame.holds_evaluatesEach each)

theorem ordered (role : Role) (items : List Node) :
    holds (Paths.inOrder (frame.evaluatesRole role items)) :=
  closed.inOrder (Frame.holds_evaluatesRole role fun item _ => closed.evaluates frame item)

theorem orderedEach (items : List Node) : holds (Paths.inOrder (frame.evaluatesEach items)) :=
  closed.inOrder (Frame.holds_evaluatesEach fun item _ => closed.evaluates frame item)

theorem defaults (items : List Node) : holds (Paths.inOrder (frame.evaluatesDefaults items)) :=
  closed.inOrder (Frame.holds_evaluatesDefaults fun _ _ part _ => closed.evaluates frame part)

theorem matchesPatterns (parts : List Node) : holds (frame.matchesPatterns parts) := by
  apply closed.inOrder
  intro paths member
  obtain ⟨pattern, _, rfl⟩ := List.mem_map.mp member
  apply closed.andThen
  · apply closed.inOrder
    intro part isPart
    obtain ⟨node, _, value⟩ := List.mem_flatMap.mp isPart
    have own (role : Role) :=
      Frame.holds_evaluatesRole role fun item (_ : item ∈ node.children) =>
        closed.evaluates frame item
    unfold Frame.valuesAt at value
    split at value
    · exact own .value part value
    · exact own .matchedClass part value
    · exact own .key part value
    · cases value
  · apply closed.inOrder
    intro part isPart
    obtain ⟨node, _, name⟩ := List.mem_flatMap.mp isPart
    unfold Frame.namesAt at name
    split at name
    all_goals first
      | cases name
      | split at name
        · cases name
        · rw [List.mem_singleton.mp name]
          exact closed.binds frame _ _

theorem bindsHandler (handler : Node) : holds (frame.bindsHandler handler) := by
  unfold Frame.bindsHandler
  split
  · split
    · exact closed.done
    · exact closed.binds frame _ _
  · exact closed.done

theorem imports (items : List Node) : holds (frame.imports items) := by
  apply closed.inOrder
  intro paths member
  obtain ⟨item, _, rfl⟩ := List.mem_map.mp member
  split
  · split
    · exact closed.attempt
    · exact closed.andThen closed.attempt (closed.binds frame _ _)
  · exact closed.done

theorem augments (children : List Node) : holds (frame.augments children) := by
  have value := closed.ordered frame .value children
  unfold Frame.augments
  split
  · split
    · split
      · next symbol _ =>
          have stores := closed.andThen closed.attempt (closed.writes symbol)
          exact closed.andThen (closed.reads symbol) (closed.andThen value stores)
      · exact closed.andThen value closed.attempt
    · exact closed.andThen (closed.ordered frame _ _) (closed.andThen value closed.attempt)
  · exact value

theorem annotates (children : List Node) : holds (frame.annotates children) := by
  unfold Frame.annotates
  split
  · exact closed.andThen (closed.ordered frame _ _) (closed.ordered frame _ _)
  · split
    · exact closed.done
    · exact closed.ordered frame _ _

end Paths.Closed

end SafeRefactor
