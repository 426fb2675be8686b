import SafeRefactor.Proofs.LiveIn

/-!
# What a region always assigns

A symbol that counts as always assigned by a region is written on every path through the
region that ends normally, unless an assignment expression stands in a part that
evaluation may skip or a loop with an `else` is left by `break`.
-/

namespace SafeRefactor

namespace Paths

variable {symbol : Symbol} {first second : Paths}

/-- Some path that ends normally does not write the symbol. -/
def Misses (paths : Paths) (symbol : Symbol) : Prop :=
  ∃ trace, paths trace .normal ∧ .writes symbol ∉ trace

theorem misses_andThen (misses : (first.andThen second).Misses symbol) :
    first.Misses symbol ∧ second.Misses symbol := by
  obtain ⟨trace, path, unwritten⟩ := misses
  obtain ⟨_, _, rfl, path, later⟩ := path.of_normal
  rw [List.mem_append, not_or] at unwritten
  exact ⟨⟨_, path, unwritten.1⟩, _, later, unwritten.2⟩

theorem misses_inOrder {parts : List Paths} (misses : (inOrder parts).Misses symbol) :
    ∀ part ∈ parts, part.Misses symbol := by
  induction parts with
  | nil =>
      intro part member
      cases member
  | cons part rest induction =>
      obtain ⟨own, others⟩ := misses_andThen misses
      exact List.forall_mem_cons.mpr ⟨own, induction others⟩

theorem misses_inSomeOrder {parts : List Paths} (misses : (inSomeOrder parts).Misses symbol) :
    ∀ part ∈ parts, part.Misses symbol := by
  obtain ⟨trace, ⟨order, permuted, path⟩, unwritten⟩ := misses
  intro part member
  apply misses_inOrder ⟨trace, path, unwritten⟩
  exact permuted.mem_iff.mpr member

theorem misses_shortCircuit {part : Paths} {rest : List Paths}
    (misses : (shortCircuit (part :: rest)).Misses symbol) : part.Misses symbol :=
  (misses_andThen misses).1

end Paths

namespace Definite

variable {symbol : Symbol} {paths : Paths} {step : Track → Track}

theorem of_misses (spares : paths.Misses symbol →
      ∀ track, symbol ∉ track.assigned → symbol ∉ (step track).assigned) :
    Definite symbol paths (fun track => .next (step track)) where
  falls _ _ := rfl
  keeps path unwritten := spares ⟨_, path, unwritten⟩

theorem spares (definite : Definite symbol paths (fun track => .next (step track)))
    (misses : paths.Misses symbol) (track : Track) (unassigned : symbol ∉ track.assigned) :
    symbol ∉ (step track).assigned := by
  obtain ⟨trace, path, unwritten⟩ := misses
  exact definite.keeps path unwritten track unassigned

end Definite

/-- The parts of a construct that may be skipped although the construct ends normally. -/
def Node.skippable (node : Node) : List Node :=
  match node.form with
  | .boolOp => (node.field .operand).tail
  | .compare => (node.field .right).tail
  | .ifExp => node.field .result ++ node.field .alternative
  | .comprehension _ => node.children
  | .assertStmt => node.field .message
  | _ => []

namespace Frame

open Paths

variable {frame : Frame} {symbol : Symbol}

private theorem evaluatesRole_eq (role : Role) (items : List Node) :
    frame.evaluatesRole role items =
      (items.filter (fun item => item.role = role)).map frame.evaluates := by
  induction items with
  | nil => rfl
  | cons item items induction =>
      by_cases plays : item.role = role
      · simp [evaluatesRole, plays, induction]
      · simp [evaluatesRole, plays, induction]

private theorem evaluatesEach_eq (items : List Node) :
    frame.evaluatesEach items = items.map frame.evaluates := by
  induction items with
  | nil => rfl
  | cons item items induction => simp [evaluatesEach, induction]

/-- What is bound inside a node does not depend on a part that may be skipped. -/
structure Certain (frame : Frame) (symbol : Symbol) (root : Node) : Prop where
  skipped : ∀ node ∈ root.nodes, ∀ part ∈ node.skippable, frame.Still symbol True part
  /-- A loop with an `else` has no `break` of its own. -/
  loops : ∀ loop ∈ root.nodes, loop.form.isLoop = true →
    loop.field .orelse = [] ∨ ∀ statement ∈ loop.field .body, statement.jumps .broken = false

theorem Certain.of_mem {root node : Node} (certain : frame.Certain symbol root)
    (inside : node ∈ root.nodes) : frame.Certain symbol node where
  skipped inner within := certain.skipped inner (Node.nodes_trans within inside)
  loops inner within := certain.loops inner (Node.nodes_trans within inside)

def DefiniteNode (frame : Frame) (symbol : Symbol) (node : Node) : Prop :=
  Definite symbol (frame.evaluates node) (fun track => .next (track.evaluate frame node))

/-- Following a node as an expression leaves the symbol unassigned. -/
def Spares (frame : Frame) (symbol : Symbol) (node : Node) : Prop :=
  ∀ track : Track, symbol ∉ track.assigned → symbol ∉ (track.evaluate frame node).assigned

theorem Still.spares {node : Node} (still : frame.Still symbol True node) :
    frame.Spares symbol node := by
  intro track unassigned
  rwa [(covers_evaluate still).assigned]

theorem spares_evaluateAll {items : List Node} (each : ∀ item ∈ items, frame.Spares symbol item)
    (track : Track) (unassigned : symbol ∉ track.assigned) :
    symbol ∉ (track.evaluateAll frame items).assigned := by
  induction items generalizing track with
  | nil => exact unassigned
  | cons item items induction =>
      rw [List.forall_mem_cons] at each
      exact induction each.2 _ (each.1 track unassigned)

theorem definite_evaluateRole {role : Role} {items : List Node}
    (each : ∀ item ∈ items, item.role = role → frame.DefiniteNode symbol item) :
    Definite symbol (inOrder (frame.evaluatesRole role items))
      (fun track => .next (track.evaluateRole frame role items)) := by
  induction items with
  | nil => exact .unmoved fun _ unassigned => unassigned
  | cons item items induction =>
      rw [List.forall_mem_cons] at each
      have rest := induction each.2
      by_cases plays : item.role = role
      · simp only [evaluatesRole, Track.evaluateRole, plays, if_true]
        exact (each.1 plays).after rest
      · simp only [evaluatesRole, Track.evaluateRole, plays, if_false]
        exact rest

private theorem spares_of_role {role : Role} {parts : List Paths} {items : List Node} {item : Node}
    (each : ∀ item ∈ items, frame.DefiniteNode symbol item)
    (misses : ∀ part ∈ parts, part.Misses symbol)
    (evaluated : frame.evaluatesRole role items ⊆ parts) (isItem : item ∈ items)
    (plays : item.role = role) : frame.Spares symbol item := by
  apply (each item isItem).spares
  apply misses
  apply evaluated
  rw [evaluatesRole_eq]
  exact List.mem_map_of_mem (List.mem_filter.mpr ⟨isItem, decide_eq_true plays⟩)

private theorem spares_of_each {items : List Node} {item : Node}
    (each : ∀ item ∈ items, frame.DefiniteNode symbol item)
    (misses : ∀ part ∈ frame.evaluatesEach items, part.Misses symbol) (isItem : item ∈ items) :
    frame.Spares symbol item := by
  apply (each item isItem).spares
  apply misses
  rw [evaluatesEach_eq]
  exact List.mem_map_of_mem isItem

/-- The first constituent in a role is always evaluated, the later ones may be skipped. -/
theorem spares_shortCircuit (node : Node) {child : Node} {role : Role}
    (each : ∀ child ∈ node.children, frame.DefiniteNode symbol child)
    (skipped : ∀ part ∈ (node.field role).tail, frame.Still symbol True part)
    (misses : (shortCircuit (frame.evaluatesRole role node.children)).Misses symbol)
    (isChild : child ∈ node.children) (plays : child.role = role) : frame.Spares symbol child := by
  have member : child ∈ node.field role := Node.mem_field.mpr ⟨isChild, plays⟩
  rw [evaluatesRole_eq] at misses
  change (shortCircuit ((node.field role).map frame.evaluates)).Misses symbol at misses
  cases parts : node.field role with
  | nil =>
      rw [parts] at member
      cases member
  | cons first later =>
      rw [parts] at member misses skipped
      rcases List.mem_cons.mp member with rfl | isLater
      · exact (each child isChild).spares (misses_shortCircuit misses)
      · exact (skipped child isLater).spares

section Constituents

variable {node : Node} {slot : Slot} (fitting : node.fits slot = true)
  (skipped : ∀ part ∈ node.skippable, frame.Still symbol True part)
  (each : ∀ child ∈ node.children, frame.DefiniteNode symbol child)

include skipped each

private theorem spares_conditional {rest : Paths}
    (others : ∀ child ∈ node.children, child.role ≠ .test → child ∈ node.skippable)
    (misses : ((inOrder (frame.evaluatesRole .test node.children)).andThen rest).Misses symbol) :
    ∀ child ∈ node.children, frame.Spares symbol child := by
  intro child isChild
  obtain ⟨tested, _⟩ := misses_andThen misses
  by_cases plays : child.role = .test
  · exact spares_of_role each (misses_inOrder tested) (List.Subset.refl _) isChild plays
  · exact (skipped child (others child isChild plays)).spares

include fitting

private theorem spares_boolOp (form : node.form = .boolOp)
    (misses : (shortCircuit (frame.evaluatesRole .operand node.children)).Misses symbol) :
    ∀ child ∈ node.children, frame.Spares symbol child := by
  intro child isChild
  have plays : child.role = .operand := by
    simpa [form, Form.slots] using Node.role_of_child fitting isChild
  simp only [Node.skippable, form] at skipped
  exact spares_shortCircuit node each skipped misses isChild plays

private theorem spares_compare (form : node.form = .compare)
    (misses : ((inOrder (frame.evaluatesRole .left node.children)).andThen
      (shortCircuit (frame.evaluatesRole .right node.children))).Misses symbol) :
    ∀ child ∈ node.children, frame.Spares symbol child := by
  intro child isChild
  obtain ⟨left, right⟩ := misses_andThen misses
  have plays : child.role = .left ∨ child.role = .right := by
    simpa [form, Form.slots] using Node.role_of_child fitting isChild
  simp only [Node.skippable, form] at skipped
  rcases plays with plays | plays
  · exact spares_of_role each (misses_inOrder left) (List.Subset.refl _) isChild plays
  · exact spares_shortCircuit node each skipped right isChild plays

omit skipped in
private theorem spares_call (form : node.form = .call)
    (misses : ((inOrder (frame.evaluatesRole .callee node.children)).andThen
      (inSomeOrder (frame.evaluatesRole .argument node.children ++
        frame.evaluatesRole .keyword node.children))).Misses symbol) :
    ∀ child ∈ node.children, frame.Spares symbol child := by
  intro child isChild
  obtain ⟨callee, arguments⟩ := misses_andThen misses
  have others := misses_inSomeOrder arguments
  have plays : child.role = .callee ∨ child.role = .argument ∨ child.role = .keyword := by
    simpa [form, Form.slots] using Node.role_of_child fitting isChild
  rcases plays with plays | plays | plays
  · exact spares_of_role each (misses_inOrder callee) (List.Subset.refl _) isChild plays
  · exact spares_of_role each others (List.subset_append_left _ _) isChild plays
  · exact spares_of_role each others (List.subset_append_right _ _) isChild plays

end Constituents

theorem definite_evaluateDefaults {items : List Node}
    (each : ∀ item ∈ items, ∀ part ∈ item.children, frame.DefiniteNode symbol part) :
    Definite symbol (inOrder (frame.evaluatesDefaults items))
      (fun track => .next (track.evaluateDefaults frame items)) := by
  induction items with
  | nil => exact .unmoved fun _ unassigned => unassigned
  | cons item items induction =>
      obtain ⟨form, info, parts⟩ := item
      rw [List.forall_mem_cons] at each
      have rest := induction each.2
      by_cases plays : info.role = .parameters
      · have own (role : Role) : Definite symbol (inOrder (frame.evaluatesRole role parts))
            (fun track => .next (track.evaluateRole frame role parts)) :=
          definite_evaluateRole fun part isPart _ => each.1 part isPart
        simp only [evaluatesDefaults, Track.evaluateDefaults, plays, if_true]
        apply (((own .default).after (own .keywordDefault)).after rest).fewer
        intro trace path
        obtain ⟨_, _, rfl, own, later⟩ := (inOrder_append path).of_normal
        exact .goesOn (inOrder_append own) later
      · simp only [evaluatesDefaults, Track.evaluateDefaults, plays, if_false]
        exact rest

/-- Following any constituent of a grammatical tree is certain of a symbol that is not bound in a
part which may be skipped. -/
theorem definite_evaluate {node : Node} {slot : Slot} (fitting : node.fits slot = true)
    (certain : frame.Certain symbol node) : frame.DefiniteNode symbol node := by
  induction node using Node.strongInduction generalizing slot with
  | step form info children induction =>
      have each : ∀ child ∈ children, frame.DefiniteNode symbol child := by
        intro child isChild
        obtain ⟨inner, _, fits⟩ := Node.slot_of_child fitting isChild
        exact induction child isChild child (Node.self_mem_nodes child) fits
          (certain.of_mem (Node.child_mem_nodes isChild))
      have parts : ∀ child ∈ children, ∀ part ∈ child.children, frame.DefiniteNode symbol part := by
        intro child isChild part isPart
        obtain ⟨inner, _, fits⟩ := Node.slot_of_child fitting isChild
        obtain ⟨lower, _, fitsPart⟩ := Node.slot_of_child fits isPart
        exact induction child isChild part (Node.child_mem_nodes isPart) fitsPart
          (certain.of_mem (Node.nodes_of_child isChild (Node.child_mem_nodes isPart)))
      have role (role : Role) : Definite symbol (inOrder (frame.evaluatesRole role children))
          (fun track => .next (track.evaluateRole frame role children)) :=
        definite_evaluateRole fun child isChild _ => each child isChild
      have skipped := certain.skipped _ (Node.self_mem_nodes _)
      -- All constituents are followed, also those that a path need not evaluate.
      have all {inner : Paths}
          (spared : inner.Misses symbol → ∀ child ∈ children, frame.Spares symbol child) :
          Definite symbol (inner.andThen attempt)
            (fun track => .next (track.evaluateAll frame children)) :=
        .of_misses fun misses => spares_evaluateAll (spared (misses_andThen misses).1)
      unfold DefiniteNode
      cases form with
      | name id context => exact (sound_touches _ context).toDefinite.attempted
      | namedExpr => exact ((role .value).after (role .target)).attempted
      | lambda =>
          have called : Definite symbol (called (inOrder (frame.evaluatesRole .result children)))
              (fun track => .next
                ((track.evaluateRole frame .result children).within track.assigned)) :=
            .unmoved fun _ unassigned => unassigned
          exact ((definite_evaluateDefaults parts).after called).attempted
      | comprehension kind =>
          have still : frame.Still symbol True (.mk (.comprehension kind) info children) := by
            intro inner inside id context form occurs
            rcases Node.mem_nodes_mk.mp inside with rfl | ⟨child, isChild, within⟩
            · cases form
            · exact skipped child isChild inner within id context form occurs
          exact .unmoved still.spares
      | boolOp => exact all (spares_boolOp fitting skipped each rfl)
      | compare => exact all (spares_compare fitting skipped each rfl)
      | ifExp =>
          apply all
          apply spares_conditional skipped each
          intro child isChild other
          have plays : child.role = .result ∨ child.role = .alternative := by
            simpa [Form.slots, other] using Node.role_of_child fitting isChild
          simpa only [Node.skippable, Node.form_mk, List.mem_append, Node.mem_field, isChild,
            true_and] using plays
      | dict =>
          apply all
          intro misses child isChild
          exact spares_of_each each (misses_inSomeOrder misses) isChild
      | call => exact all (spares_call fitting each rfl)
      | _ =>
          apply all
          intro misses child isChild
          exact spares_of_each each (misses_inOrder misses) isChild

theorem definite_role {node : Node} {slot : Slot} (fitting : node.fits slot = true)
    (certain : frame.Certain symbol node) (role : Role) :
    Definite symbol (inOrder (frame.evaluatesRole role node.children))
      (fun track => .next (track.evaluateRole frame role node.children)) := by
  apply definite_evaluateRole
  intro child isChild _
  obtain ⟨inner, _, fits⟩ := Node.slot_of_child fitting isChild
  exact definite_evaluate fits (certain.of_mem (Node.child_mem_nodes isChild))

theorem definite_each {node : Node} {slot : Slot} (fitting : node.fits slot = true)
    (certain : frame.Certain symbol node) :
    Definite symbol (inOrder (frame.evaluatesEach node.children))
      (fun track => .next (track.evaluateAll frame node.children)) := by
  apply Definite.of_misses
  intro misses
  apply spares_evaluateAll
  intro child isChild
  refine spares_of_each (fun item isItem => ?_) (misses_inOrder misses) isChild
  obtain ⟨inner, _, fits⟩ := Node.slot_of_child fitting isItem
  exact definite_evaluate fits (certain.of_mem (Node.child_mem_nodes isItem))

theorem definite_augments {node : Node} {slot : Slot} (fitting : node.fits slot = true)
    (certain : frame.Certain symbol node) :
    Definite symbol (frame.augments node.children)
      (fun track => .next (track.augment frame node.children)) := by
  have value := definite_role fitting certain .value
  have target := definite_role fitting certain .target
  have attempted : Definite symbol attempt (fun track => .next track) :=
    .unmoved fun _ unassigned => unassigned
  unfold augments Track.augment
  cases node.children.find? (fun child => child.role = .target) with
  | none => exact value
  | some place =>
      simp only
      cases place.form with
      | name id context =>
          cases frame.occurrence place with
          | none => exact value.attempted
          | some other =>
              have reads : Definite symbol (act (.reads other))
                  (fun track => .next (track.read other)) :=
                .unmoved fun _ unassigned => unassigned
              exact reads.after (value.after (attempted.after (.writes other)))
      | _ => exact target.after value.attempted

theorem definite_annotates {node : Node} {slot : Slot} (fitting : node.fits slot = true)
    (certain : frame.Certain symbol node) :
    Definite symbol (frame.annotates node.children)
      (fun track => .next (track.annotate frame node.children)) := by
  have value := definite_role fitting certain .value
  have target := definite_role fitting certain .target
  unfold annotates Track.annotate
  cases node.children.any (fun child => child.role = .value) with
  | true => exact value.after target
  | false =>
      cases node.children.any (fun child => child.role = .target && child.identifier?.isSome) with
      | true => exact .unmoved fun _ unassigned => unassigned
      | false => exact target

theorem definite_asserts {node : Node} {slot : Slot} (fitting : node.fits slot = true)
    (certain : frame.Certain symbol node) (form : node.form = .assertStmt) :
    Definite symbol
      ((inOrder (frame.evaluatesRole .test node.children)).andThen
        (optional ((inOrder (frame.evaluatesRole .message node.children)).andThen
          (stop .raised))))
      (fun track => .next (track.evaluateAll frame node.children)) := by
  have each : ∀ child ∈ node.children, frame.DefiniteNode symbol child := by
    intro child isChild
    obtain ⟨inner, _, fits⟩ := Node.slot_of_child fitting isChild
    exact definite_evaluate fits (certain.of_mem (Node.child_mem_nodes isChild))
  apply Definite.of_misses
  intro misses
  apply spares_evaluateAll
  refine spares_conditional (certain.skipped node (Node.self_mem_nodes node)) each ?_ misses
  intro child isChild other
  have plays : child.role = .message := by
    simpa [form, Form.slots, other] using Node.role_of_child fitting isChild
  rw [Node.skippable, form]
  exact Node.mem_field.mpr ⟨isChild, plays⟩

theorem definite_handlers {node : Node} {slot : Slot} {isGroup : Bool}
    (fitting : node.fits slot = true) (certain : frame.Certain symbol node)
    (form : node.form = .tryStmt isGroup)
    (bodies : ∀ handler ∈ node.children, handler.fits .handler = true →
      Definite symbol (frame.executesRole .body handler.children)
        (fun track => track.executeRole frame .body handler.children)) :
    DefiniteEnds symbol
      (if isGroup then dispatchGroup false false (frame.handlerPaths node.children)
       else dispatch (frame.handlerPaths node.children))
      (fun before track => track.executeHandlers frame before node.children) := by
  have each : ∀ handler ∈ node.children.filter (fun item => item.role = .handler),
      handler ∈ node.children ∧ handler.fits .handler = true := by
    intro handler member
    obtain ⟨isChild, plays⟩ := List.mem_filter.mp member
    exact ⟨isChild, Node.fits_of_slot fitting isChild (by simp_all [Form.slots])⟩
  have tests : ∀ handler ∈ node.children.filter (fun item => item.role = .handler),
      Definite symbol (inOrder (frame.evaluatesRole .caught handler.children))
        (fun track => .next (track.evaluateRole frame .caught handler.children)) := by
    intro handler member
    obtain ⟨isChild, fits⟩ := each handler member
    exact definite_role fits (certain.of_mem (Node.child_mem_nodes isChild)) .caught
  have named : ∀ handler ∈ node.children.filter (fun item => item.role = .handler),
      Definite symbol ((frame.bindsHandler handler).andThen
          (frame.executesRole .body handler.children))
        (fun track =>
          (track.bindHandler frame handler).executeRole frame .body handler.children) := by
    intro handler member
    obtain ⟨isChild, fits⟩ := each handler member
    exact (sound_bindsHandler handler).toDefinite.after (bodies handler isChild fits)
  simp only [Track.executeHandlers_eq]
  apply DefiniteEnds.of_handlers tests named
  intro trace path
  exact normal_of_handlers path

def DefiniteStatement (frame : Frame) (symbol : Symbol) (node : Node) : Prop :=
  Definite symbol (frame.executes node) (fun track => track.execute frame node)

theorem definite_executeRole {role : Role} {items : List Node}
    (each : ∀ item ∈ items, item.role = role → frame.DefiniteStatement symbol item) :
    Definite symbol (frame.executesRole role items)
      (fun track => track.executeRole frame role items) := by
  induction items with
  | nil => exact .unmoved fun _ unassigned => unassigned
  | cons item items induction =>
      rw [List.forall_mem_cons] at each
      have rest := induction each.2
      by_cases plays : item.role = role
      · simp only [executesRole, Track.executeRole, plays, if_true]
        exact (each.1 plays).andThen rest
      · simp only [executesRole, Track.executeRole, plays, if_false]
        exact rest

private theorem definite_marked {inner : Paths} {walk : Track → Outcome} (id : NodeId)
    (definite : Definite symbol inner walk) :
    Definite symbol ((act (.begins id)).andThen (inner.andThen (act (.ends id)))) walk := by
  have marks (action : Action) : Definite symbol (act action) (fun track => .next track) :=
    .unmoved fun _ unassigned => unassigned
  have whole := (marks (.begins id)).after (definite.andThen (marks (.ends id)))
  simpa only [Outcome.andThen_next] using whole

/-- Following any statement is certain of a symbol that is not bound in a part which may be
skipped. -/
theorem definite_execute {node : Node} (fitting : node.fits .statement = true)
    (certain : frame.Certain symbol node) : frame.DefiniteStatement symbol node := by
  induction node using Node.strongInduction with
  | step form info children induction =>
      have block (role : Role) (asked : (role, Slot.statement) ∈ form.slots) :
          Definite symbol (frame.executesRole role children)
            (fun track => track.executeRole frame role children) := by
        apply definite_executeRole
        intro child isChild plays
        have fits : child.fits .statement = true :=
          Node.fits_of_slot fitting isChild (plays ▸ asked)
        exact induction child isChild child (Node.self_mem_nodes child) fits
          (certain.of_mem (Node.child_mem_nodes isChild))
      have role (role : Role) : Definite symbol (inOrder (frame.evaluatesRole role children))
          (fun track => .next (track.evaluateRole frame role children)) :=
        definite_role fitting certain role
      have all : Definite symbol (inOrder (frame.evaluatesEach children))
          (fun track => .next (track.evaluateAll frame children)) :=
        definite_each fitting certain
      -- The body of a function or class is followed on a copy of the assigned set.
      have copied (paths : Paths) : Definite symbol paths (fun track =>
          .next ((track.executeRole frame .body children).track.within track.assigned)) :=
        .unmoved fun _ unassigned => unassigned
      have inner (part : Node) (isChild : part ∈ children) (slot : Slot)
          (fits : part.fits slot = true) (asked : (.body, Slot.statement) ∈ part.form.slots) :
          Definite symbol (frame.executesRole .body part.children)
            (fun track => track.executeRole frame .body part.children) := by
        apply definite_executeRole
        intro child isInner plays
        have fitsInner := Node.fits_of_slot fits isInner (plays ▸ asked)
        exact induction part isChild child (Node.child_mem_nodes isInner) fitsInner
          (certain.of_mem (Node.nodes_of_child isChild (Node.child_mem_nodes isInner)))
      unfold DefiniteStatement executes
      apply definite_marked
      cases form with
      | functionDef isAsync name returns =>
          have defaults : Definite symbol (inOrder (frame.evaluatesDefaults children))
              (fun track => .next (track.evaluateDefaults frame children)) := by
            apply definite_evaluateDefaults
            intro child isChild part isPart
            obtain ⟨inner, _, fits⟩ := Node.slot_of_child fitting isChild
            obtain ⟨lower, _, fitsPart⟩ := Node.slot_of_child fits isPart
            exact definite_evaluate fitsPart
              (certain.of_mem (Node.nodes_of_child isChild (Node.child_mem_nodes isPart)))
          exact (role .decorator).after (defaults.after
            ((copied (called (frame.executesRole .body children))).after
              (sound_binds _ name).toDefinite))
      | classDef name =>
          exact (role .decorator).after ((role .base).after ((role .keyword).after
            ((copied (classBody (frame.executesRole .body children))).after
              (sound_binds _ name).toDefinite)))
      | assign => exact (role .value).after (role .target)
      | annAssign hint => exact definite_annotates fitting certain
      | augAssign => exact definite_augments fitting certain
      | returnStmt => exact .stopped (by decide)
      | raiseStmt => exact .stopped (by decide)
      | breakStmt => exact .never fun trace path => absurd path.2 (by decide)
      | continueStmt => exact .never fun trace path => absurd path.2 (by decide)
      | assertStmt => exact definite_asserts fitting certain rfl
      | ifStmt =>
          exact (role .test).after
            ((block .body (by simp [Form.slots])).either (block .orelse (by simp [Form.slots])))
      | forLoop isAsync =>
          have attempted : Definite symbol attempt (fun track => .next track) :=
            .unmoved fun _ unassigned => unassigned
          have loops := certain.loops _ (Node.self_mem_nodes _) rfl
          refine (role .iterable).after (attempted.loop (fun track =>
              (track.evaluateRole frame .target children).executeRole frame .body children)
            (block .orelse (by simp [Form.slots]))
              ((regular_of_loop fitting rfl loops).imp_left ?_))
          intro never trace path
          obtain ⟨rest, later⟩ := (closed_calm.ordered frame _ _).ends_after rfl ⟨trace, path⟩
          exact never rest later
      | whileLoop =>
          have loops := certain.loops _ (Node.self_mem_nodes _) rfl
          exact (role .test).loop (fun track => track.executeRole frame .body children)
            (block .orelse (by simp [Form.slots])) (regular_of_loop fitting rfl loops)
      | withStmt isAsync => exact (role .item).after (block .body (by simp [Form.slots])).managed
      | tryStmt isGroup =>
          have handlers : DefiniteEnds symbol
              (if isGroup then dispatchGroup false false (frame.handlerPaths children)
               else dispatch (frame.handlerPaths children))
              (fun before track => track.executeHandlers frame before children) := by
            apply definite_handlers fitting certain rfl
            intro handler isChild fits
            obtain ⟨name, caught, shape⟩ := Node.form_of_handler fits
            exact inner handler isChild .handler fits (by simp [shape, Form.slots])
          exact ((block .body (by simp [Form.slots])).rescued
            (block .orelse (by simp [Form.slots])) handlers).finished
              (block .finalbody (by simp [Form.slots]))
      | matchStmt =>
          have arms : Definite symbol (select (frame.armPaths children)) (fun track =>
              .next ((track.executeArms frame track.assigned children).1.within
                (SymbolSet.interAll
                  (track.assigned :: (track.executeArms frame track.assigned children).2)))) :=
            .unmoved fun track unassigned assigned =>
              unassigned (SymbolSet.mem_interAll assigned track.assigned List.mem_cons_self)
          exact (role .subject).after arms
      | importStmt => exact (sound_imports children).toDefinite
      | importFrom module level => exact (sound_imports children).toDefinite
      | _ => exact all

/-- On a path through statements that ends normally, what following them takes for assigned is
written. -/
theorem writes_of_follow {statements : List Node} {trace : List Action} {track : Track}
    (fitting : ∀ statement ∈ statements, statement.fits .statement = true)
    (certain : ∀ statement ∈ statements, frame.Certain symbol statement)
    (path : frame.runs statements trace .normal) (unassigned : symbol ∉ track.assigned)
    (assigned : symbol ∈ (track.follow frame statements).assigned) : .writes symbol ∈ trace := by
  by_contra unwritten
  suffices missing : symbol ∉ (track.follow frame statements).assigned from missing assigned
  clear assigned
  induction statements generalizing trace track with
  | nil => exact unassigned
  | cons statement rest induction =>
      rw [List.forall_mem_cons] at fitting certain
      have isStatement : statement.isStatement = true := Node.admits_of_fits fitting.1
      obtain ⟨_, _, rfl, path, later⟩ := path.of_normal
      rw [List.mem_append, not_or] at unwritten
      have kept := (definite_execute fitting.1 certain.1).keeps path unwritten.1 track unassigned
      have step : track.follow frame (statement :: rest) =
          (track.execute frame statement).track.follow frame rest := by
        simp [Track.follow, isStatement]
      rw [step]
      exact induction fitting.2 certain.2 later kept unwritten.2

end Frame

/-- Code in which nothing is assigned on the strength of a part that may be skipped. -/
structure Node.Decided (root : Node) : Prop where
  /-- There is no assignment expression in a part that may be skipped. -/
  plain : ∀ node ∈ root.nodes, ∀ part ∈ node.skippable, ∀ inner ∈ part.nodes,
    inner.form.isNamedExpr = false
  /-- No loop has both an `else` and a `break` of its own. -/
  loops : ∀ loop ∈ root.nodes, loop.form.isLoop = true →
    loop.field .orelse = [] ∨ ∀ statement ∈ loop.field .body, statement.jumps .broken = false

instance (root : Node) : Decidable root.Decided :=
  decidable_of_iff
    ((∀ node ∈ root.nodes, ∀ part ∈ node.skippable, ∀ inner ∈ part.nodes,
        inner.form.isNamedExpr = false) ∧
      ∀ loop ∈ root.nodes, loop.form.isLoop = true →
        (loop.field .orelse).isEmpty = true ∨
          ∀ statement ∈ loop.field .body, statement.jumps .broken = false)
    (by
      simp only [List.isEmpty_iff]
      exact ⟨fun ⟨plain, loops⟩ => ⟨plain, loops⟩, fun ⟨plain, loops⟩ => ⟨plain, loops⟩⟩)

theorem Node.skippable_cases {tree node part : Node} (wellFormed : tree.WellFormed)
    (inside : node ∈ tree.nodes) (skippable : part ∈ node.skippable) :
    part ∈ node.children ∧
      ((∃ kind, node.form = .comprehension kind ∧ node.skippable = node.children) ∨
        Slot.isExpression part.form = true) := by
  have expression {role : Role} {others : Prop} (member : part ∈ node.field role)
      (asked : (role, Slot.expression) ∈ node.form.slots) :
      part ∈ node.children ∧ (others ∨ Slot.isExpression part.form = true) := by
    obtain ⟨isChild, rfl⟩ := Node.mem_field.mp member
    exact ⟨isChild, Or.inr (Node.admits_of_fits (wellFormed.fits_of_slot inside isChild asked))⟩
  unfold Node.skippable at skippable ⊢
  split at skippable
  · next form => exact expression (List.mem_of_mem_tail skippable) (by simp [form, Form.slots])
  · next form => exact expression (List.mem_of_mem_tail skippable) (by simp [form, Form.slots])
  · next form =>
      rcases List.mem_append.mp skippable with member | member
      · exact expression member (by simp [form, Form.slots])
      · exact expression member (by simp [form, Form.slots])
  · next kind form => exact ⟨skippable, Or.inl ⟨kind, form, rfl⟩⟩
  · next form => exact expression skippable (by simp [form, Form.slots])
  · cases skippable

namespace Model

section

variable {path : String} {tree : Node} {model : Model} (settles : model.Settles path tree)
  (wellFormed : tree.WellFormed)

include settles wellFormed

/-- A part that may be skipped and has no assignment expression binds no symbol of a function. -/
theorem still_of_skippable {first node part : Node} (symbol : Symbol) (member : first ∈ tree.nodes)
    (block : first.form.isBlock = true) (inside : node ∈ tree.nodes)
    (plain : ∀ part ∈ node.skippable, ∀ inner ∈ part.nodes, inner.form.isNamedExpr = false)
    (skippable : part ∈ node.skippable) :
    (Frame.ofModel model (model.trackedSymbols (model.scopeOf first))).Still symbol True part := by
  by_cases tracked : symbol ∈ model.trackedSymbols (model.scopeOf first)
  · obtain ⟨isChild, ⟨kind, form, all⟩ | isExpression⟩ :=
      Node.skippable_cases wellFormed inside skippable
    · -- The targets of a comprehension belong to the comprehension as a whole.
      have quiet := quiet_of_tracked settles wellFormed member block tracked inside (by
        intro inner within named
        rcases Node.mem_nodes_iff.mp within with rfl | ⟨child, isChild, within⟩
        · rw [form] at named
          cases named
        · have unnamed := plain child (all ▸ isChild) inner within
          rw [named] at unnamed
          cases unnamed)
      exact (quiet node (Node.self_mem_nodes node) (by rw [form]; rfl)).child isChild
    · have inTree := Node.nodes_trans (Node.child_mem_nodes isChild) inside
      have quiet := quiet_of_tracked settles wellFormed member block tracked inTree (by
        intro inner within named
        have unnamed := plain part skippable inner within
        rw [named] at unnamed
        cases unnamed)
      exact quiet part (Node.self_mem_nodes part) isExpression
  · intro inner _ id context _ occurs
    exact absurd (of_decide_eq_true (Option.filter_eq_some_iff.mp occurs).2) tracked

theorem certain_of_decided {first node : Node} (symbol : Symbol) (member : first ∈ tree.nodes)
    (block : first.form.isBlock = true) (inside : node ∈ tree.nodes) (decided : node.Decided) :
    (Frame.ofModel model (model.trackedSymbols (model.scopeOf first))).Certain symbol node where
  skipped inner within _ skippable :=
    still_of_skippable settles wellFormed symbol member block (Node.nodes_trans within inside)
      (decided.plain inner within) skippable
  loops := decided.loops

end

/-- Definite assignment is definite: each symbol that a region always assigns is written on every
path through the region that ends normally. -/
theorem writes_of_alwaysAssigned {path : String} {tree : Node} {model : Model}
    (wellFormed : tree.WellFormed) (built : build path tree = .ok model) {parent first : Node}
    {role : Role} {rest : List Node} (siblings : tree.Siblings parent role (first :: rest))
    (decided : ∀ statement ∈ first :: rest, statement.Decided) :
    ∃ flow, model.regionFlow? (first :: rest) = .ok flow ∧
      ∀ symbol ∈ flow.alwaysAssigned, ∀ trace,
        (Frame.ofModel model (model.trackedSymbols (model.scopeOf first))).runs (first :: rest)
          trace .normal → .writes symbol ∈ trace := by
  have settles := settles_of_build built
  have fitting : ∀ statement ∈ first :: rest, statement.fits .statement = true :=
    fun statement member => siblings.fits wellFormed member
  have firstFits := fitting first List.mem_cons_self
  refine ⟨model.flowOf first rest, regionFlow?_of_fits firstFits, ?_⟩
  intro symbol always trace runs
  have certain : ∀ statement ∈ first :: rest,
      (Frame.ofModel model (model.trackedSymbols (model.scopeOf first))).Certain symbol statement :=
    fun statement member => certain_of_decided settles wellFormed symbol
      (siblings.mem List.mem_cons_self) (Node.isBlock_of_fits firstFits) (siblings.mem member)
      (decided statement member)
  exact Frame.writes_of_follow fitting certain runs List.not_mem_nil
    (SymbolSet.mem_inter.mp always).1

/-- The assignment `x = 1` in the `else` of a loop. -/
def fallback : Node :=
  .mk .assign ⟨7, .orelse, some ⟨⟨5, 8⟩, ⟨5, 13⟩⟩⟩ [
    .mk (.name "x" .store) ⟨8, .target, some ⟨⟨5, 8⟩, ⟨5, 9⟩⟩⟩ [],
    .mk (.constant .int "1") ⟨9, .value, some ⟨⟨5, 12⟩, ⟨5, 13⟩⟩⟩ []]

/-- A loop `while c` with one simple statement and with an `else` that assigns. -/
def search (step : Form) : Node :=
  .mk .whileLoop ⟨4, .body, some ⟨⟨2, 4⟩, ⟨5, 13⟩⟩⟩ [
    .mk (.name "c" .load) ⟨5, .test, some ⟨⟨2, 10⟩, ⟨2, 11⟩⟩⟩ [],
    .mk step ⟨6, .body, some ⟨⟨3, 8⟩, ⟨3, 13⟩⟩⟩ [],
    fallback]

def searching (step : Form) : Node :=
  .mk (.functionDef false "f" none) ⟨1, .body, some ⟨⟨1, 0⟩, ⟨6, 12⟩⟩⟩ [
    .mk (.parameters []) ⟨2, .parameters, none⟩ [
      .mk (.parameter "c" none) ⟨3, .positional, some ⟨⟨1, 6⟩, ⟨1, 7⟩⟩⟩ []],
    search step,
    .mk .returnStmt ⟨10, .body, some ⟨⟨6, 4⟩, ⟨6, 12⟩⟩⟩ [
      .mk (.name "x" .load) ⟨11, .value, some ⟨⟨6, 11⟩, ⟨6, 12⟩⟩⟩ []]]

def searchModule (step : Form) : Node :=
  .mk .module ⟨0, .root, none⟩ [searching step]

/-- Without a `break` the assignment in the `else` is definite. -/
theorem writes_of_alwaysAssigned_else :
    ∃ model, build "m.py" (searchModule .passStmt) = .ok model ∧
      ∃ flow, model.regionFlow? [search .passStmt] = .ok flow ∧
        ∃ symbol ∈ flow.alwaysAssigned, symbol.name = "x" ∧ ∀ trace,
          (Frame.ofModel model (model.trackedSymbols (model.scopeOf (search .passStmt)))).runs
            [search .passStmt] trace .normal → .writes symbol ∈ trace := by
  have checked : (build "m.py" (searchModule .passStmt)).toOption.any (fun model =>
      (model.flowOf (search .passStmt) []).alwaysAssigned.any
        fun symbol => symbol.name = "x") = true := by cbv
  obtain ⟨model, built, known⟩ := exists_of_check checked
  obtain ⟨symbol, always, name⟩ := List.any_eq_true.mp known
  have siblings :
      (searchModule .passStmt).Siblings (searching .passStmt) .body [search .passStmt] :=
    ⟨Node.child_mem_nodes List.mem_cons_self, rfl, ⟨[], _, rfl⟩⟩
  obtain ⟨flow, ok, writes⟩ := writes_of_alwaysAssigned ⟨by decide, by decide⟩ built siblings
    (by decide)
  have same : flow = model.flowOf (search .passStmt) [] :=
    Except.ok.inj (ok.symm.trans (regionFlow?_of_fits (by decide)))
  subst same
  exact ⟨model, built, _, ok, symbol, always, of_decide_eq_true name, writes symbol always⟩

private theorem runs_search {frame : Frame} {flag : Symbol}
    (test : frame.occurrence
      (.mk (.name "c" .load) ⟨5, .test, some ⟨⟨2, 10⟩, ⟨2, 11⟩⟩⟩ []) = some flag) :
    frame.runs [search .breakStmt] [.begins 4, .reads flag, .begins 6, .ends 4] .normal := by
  have marks (action : Action) : Paths.act action [action] .normal := ⟨rfl, rfl⟩
  have breaks : frame.executes (.mk .breakStmt ⟨6, .body, some ⟨⟨3, 8⟩, ⟨3, 13⟩⟩⟩ [])
      [.begins 6] .broken :=
    .goesOn (marks (.begins 6)) (.stops ⟨rfl, rfl⟩ (by decide))
  have body : frame.executesRole .body (search .breakStmt).children [.begins 6] .broken :=
    .stops breaks (by decide)
  have looped : frame.executes (search .breakStmt)
      [.begins 4, .reads flag, .begins 6, .ends 4] .normal :=
    .goesOn (marks (.begins 4))
      (.goesOn (Paths.loop.breaks (Frame.evaluates_load test) body) (marks (.ends 4)))
  exact .goesOn looped ⟨rfl, rfl⟩

/-- A loop with a `break`: its `else` counts as definite although the `break` skips it. -/
theorem break_skips_alwaysAssigned :
    ∃ model, build "m.py" (searchModule .breakStmt) = .ok model ∧
      ∃ flow, model.regionFlow? [search .breakStmt] = .ok flow ∧
        ∃ symbol ∈ flow.alwaysAssigned, ∃ trace,
          (Frame.ofModel model (model.trackedSymbols (model.scopeOf (search .breakStmt)))).runs
            [search .breakStmt] trace .normal ∧ .writes symbol ∉ trace := by
  have checked : (build "m.py" (searchModule .breakStmt)).toOption.any (fun model =>
      let frame := Frame.ofModel model (model.trackedSymbols (model.scopeOf (search .breakStmt)))
      (model.flowOf (search .breakStmt) []).alwaysAssigned.any (fun symbol => symbol.name = "x") &&
      (frame.occurrence
        (.mk (.name "c" .load) ⟨5, .test, some ⟨⟨2, 10⟩, ⟨2, 11⟩⟩⟩ [])).isSome) = true := by cbv
  obtain ⟨model, built, known⟩ := exists_of_check checked
  simp only [Bool.and_eq_true, Option.isSome_iff_exists] at known
  obtain ⟨always, flag, test⟩ := known
  obtain ⟨symbol, member, _⟩ := List.any_eq_true.mp always
  exact ⟨model, built, _, regionFlow?_of_fits (by decide), symbol, member, _, runs_search test,
    by simp⟩

end Model

end SafeRefactor
