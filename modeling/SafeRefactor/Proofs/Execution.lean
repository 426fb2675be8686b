import SafeRefactor.Proofs.Soundness

/-!
# Following statements is sound

Every expression, target and statement of a grammatical tree is followed soundly, for a
symbol that the expressions around do not bind.  Two more things must hold of the code.
A loop with an `else` has no `break` of its own, since the track takes the `else` for
the only way out.  The symbol is not mentioned by the values, classes and keys of
patterns, since the track follows a pattern level by level and not in the order in which
it is matched.
-/

namespace SafeRefactor

/-- Whether constructs of the sort are evaluated. -/
def Slot.isEvaluated : Slot → Bool
  | .expression | .target | .deletion | .item | .keyword => true
  | _ => false

/-- Whether a place or an item is evaluated by evaluating its constituents in order. -/
def Form.isPlain : Form → Bool
  | .attribute _ _ | .subscript _ | .starred _ | .list _ | .tuple _ | .withItem | .keyword _ => true
  | _ => false

private theorem Form.isPlain_of_admits {slot : Slot} {form : Form}
    (admitted : slot.admits form = true)
    (evaluated : slot.isEvaluated = true) (place : Slot.isExpression form = false) :
    form.isPlain = true ∨ ∃ id context, form = .name id context := by
  cases slot with
  | expression =>
      rw [show Slot.isExpression form = true from admitted] at place
      cases place
  | target | deletion | item | keyword =>
      cases form with
      | name id context => exact Or.inr ⟨id, context, rfl⟩
      | _ => first | exact Or.inl rfl | cases admitted
  | _ => cases evaluated

theorem Form.isEvaluated_of_slot {form : Form} {role : Role} {slot : Slot}
    (plain : form.isPlain = true) (listed : (role, slot) ∈ form.slots) :
    slot.isEvaluated = true := by
  have all : ∀ entry ∈ form.slots, entry.2.isEvaluated = true := by
    cases form with
    | starred context | list context | tuple context =>
        cases context <;> simp [Form.slots, Context.slot, Slot.isEvaluated]
    | _ => first | cases plain; done | simp [Form.slots, Slot.isEvaluated]
  exact all _ listed

namespace Frame

open Paths

variable {frame : Frame} {symbol : Symbol}

theorem sound_binds (node : Node) (name : String) :
    Sound symbol (frame.binds node name) (fun track => .next (track.bind frame node name)) := by
  unfold binds Track.bind Track.write?
  cases frame.capture node name with
  | none => exact .done
  | some other => exact .writes other

theorem sound_touches (node : Node) (context : Context) :
    Sound symbol (frame.touches node context)
      (fun track => .next (track.touch frame node context)) := by
  unfold touches Track.touch
  cases frame.occurrence node with
  | none => exact .done
  | some other =>
      cases context with
      | load => exact .reads other
      | store => exact .writes other
      | del =>
          have sound : Sound symbol _ _ := .reads other
          refine ⟨.unmoved fun track unassigned assigned => ?_, fun track => ?_, sound.exposes,
            sound.records⟩
          · exact unassigned (Track.mem_assigned_unassign.mp assigned).1
          · exact ⟨(sound.grows track).exposed, (sound.grows track).writes⟩

/-- Following a node as an expression, a target or a part of one is sound. -/
def SoundNode (frame : Frame) (symbol : Symbol) (node : Node) : Prop :=
  Sound symbol (frame.evaluates node) (fun track => .next (track.evaluate frame node))

theorem sound_evaluateAll {items : List Node}
    (each : ∀ item ∈ items, frame.SoundNode symbol item) :
    Sound symbol (inOrder (frame.evaluatesEach items))
      (fun track => .next (track.evaluateAll frame items)) := by
  induction items with
  | nil => exact .done
  | cons item items induction =>
      have rest := induction fun other member => each other (List.mem_cons_of_mem _ member)
      exact (each item List.mem_cons_self).after rest

theorem sound_evaluateRole {role : Role} {items : List Node}
    (each : ∀ item ∈ items, item.role = role → frame.SoundNode symbol item) :
    Sound symbol (inOrder (frame.evaluatesRole role items))
      (fun track => .next (track.evaluateRole frame role items)) := by
  induction items with
  | nil => exact .done
  | cons item items induction =>
      have rest := induction fun other member => each other (List.mem_cons_of_mem _ member)
      by_cases plays : item.role = role
      · simp only [evaluatesRole, Track.evaluateRole, plays, if_true]
        exact (each item List.mem_cons_self plays).after rest
      · simp only [evaluatesRole, Track.evaluateRole, plays, if_false]
        exact rest

/-- No expression inside the node binds or deletes the symbol. -/
def Quiet (frame : Frame) (symbol : Symbol) (node : Node) : Prop :=
  ∀ inner ∈ node.nodes, Slot.isExpression inner.form = true → frame.Still symbol True inner

theorem Quiet.child {node child : Node} (quiet : frame.Quiet symbol node)
    (isChild : child ∈ node.children) : frame.Quiet symbol child :=
  fun inner inside => quiet inner (Node.nodes_of_child isChild inside)

/-- Following an expression, a target, a deletion or an item is sound. -/
theorem sound_evaluate {node : Node} {slot : Slot} (fitting : node.fits slot = true)
    (evaluated : slot.isEvaluated = true) (quiet : frame.Quiet symbol node) :
    frame.SoundNode symbol node := by
  induction node using Node.induction generalizing slot with
  | step form info children induction =>
      have admitted := Node.admits_of_fits fitting
      cases place : Slot.isExpression form with
      | true => exact (covers_evaluate (quiet _ (Node.self_mem_nodes _) place)).sound
      | false =>
          rcases Form.isPlain_of_admits admitted evaluated place with plain | ⟨id, context, rfl⟩
          · have each : ∀ child ∈ children, frame.SoundNode symbol child := by
              intro child isChild
              obtain ⟨inner, listed, fittingChild⟩ := Node.slot_of_child fitting isChild
              exact induction child isChild fittingChild (Form.isEvaluated_of_slot plain listed)
                (quiet.child isChild)
            have sound := (sound_evaluateAll each).attempted
            unfold SoundNode
            cases form <;> first | exact sound | cases plain
          · exact (sound_touches _ context).attempted

theorem sound_evaluateDefaults {node : Node} {slot : Slot} (fitting : node.fits slot = true)
    (asked : (.parameters, .parameterList) ∈ node.form.slots) (quiet : frame.Quiet symbol node) :
    Sound symbol (inOrder (frame.evaluatesDefaults node.children))
      (fun track => .next (track.evaluateDefaults frame node.children)) := by
  have covers : Covers symbol True (DoesAny (frame.evaluatesDefaults node.children))
      (fun track => track.evaluateDefaults frame node.children) := by
    apply covers_evaluateDefaults
    intro item isItem plays part isPart isDefault
    have fittingItem := Node.fits_of_slot fitting isItem (plays ▸ asked)
    obtain ⟨defaults, form⟩ := Node.form_of_parameterList fittingItem
    have expression : part.fits .expression = true := by
      apply Node.fits_of_slot fittingItem isPart
      rcases isDefault with role | role <;> simp [form, role, Form.slots]
    have quietPart := (quiet.child isItem).child isPart
    exact covers_evaluate
      (quietPart part (Node.self_mem_nodes part) (Node.admits_of_fits expression))
  exact (covers.mono fun _ => does_inOrder).sound

/-- The code around a symbol is of the kind that a track can follow. -/
structure Steady (frame : Frame) (symbol : Symbol) (root : Node) : Prop where
  quiet : frame.Quiet symbol root
  /-- A loop with an `else` has no `break` of its own. -/
  loops : ∀ loop ∈ root.nodes, loop.form.isLoop = true →
    loop.field .orelse = [] ∨ ∀ statement ∈ loop.field .body, statement.jumps .broken = false
  /-- The values, classes and keys of patterns do not mention the symbol. -/
  patterns : ∀ pattern ∈ root.nodes, Slot.isPattern pattern.form = true →
    ∀ child ∈ pattern.children, Slot.isExpression child.form = true →
      frame.Still symbol False child

theorem Steady.of_mem {root node : Node} (steady : frame.Steady symbol root)
    (inside : node ∈ root.nodes) : frame.Steady symbol node where
  quiet inner within := steady.quiet inner (Node.nodes_trans within inside)
  loops inner within := steady.loops inner (Node.nodes_trans within inside)
  patterns inner within := steady.patterns inner (Node.nodes_trans within inside)

theorem inOrder_append {left right : List Paths} {trace : List Action} {completion : Completion}
    (path : inOrder (left ++ right) trace completion) :
    (inOrder left).andThen (inOrder right) trace completion := by
  induction left generalizing trace with
  | nil =>
      have start : done [] .normal := ⟨rfl, rfl⟩
      exact .goesOn start path
  | cons part left induction =>
      cases path with
      | stops path early => exact .stops (.stops path early) early
      | goesOn path following =>
          cases induction following with
          | stops later early => exact .stops (.goesOn path later) early
          | goesOn later last =>
              rw [← List.append_assoc]
              exact .goesOn (.goesOn path later) last

private theorem still_of_expression {node child : Node} {slot : Slot} {role : Role}
    (steady : frame.Steady symbol node) (fitting : node.fits slot = true)
    (pattern : Slot.isPattern node.form = true) (asked : (role, .expression) ∈ node.form.slots)
    (isChild : child ∈ node.children) (plays : child.role = role) :
    frame.Still symbol False child := by
  have expression := Node.fits_of_slot fitting isChild (plays ▸ asked)
  exact steady.patterns node (Node.self_mem_nodes node) pattern child isChild
    (Node.admits_of_fits expression)

theorem ignores_valuesAt {node : Node} {slot : Slot} (steady : frame.Steady symbol node)
    (fitting : node.fits slot = true) {part : Paths} (isPart : part ∈ frame.valuesAt node) :
    ¬ part.Does (.reads symbol) ∧ ¬ part.Does (.writes symbol) := by
  have ofRole (role : Role) (pattern : Slot.isPattern node.form = true)
      (asked : (role, .expression) ∈ node.form.slots)
      (isPart : part ∈ frame.evaluatesRole role node.children) :
      ¬ part.Does (.reads symbol) ∧ ¬ part.Does (.writes symbol) := by
    have covers := covers_evaluateRole fun child isChild plays =>
      covers_evaluate (still_of_expression steady fitting pattern asked isChild plays)
    exact ⟨fun does => covers.mentioned ⟨part, isPart, does⟩,
      fun does => covers.silent ⟨part, isPart, does⟩⟩
  unfold valuesAt at isPart
  split at isPart
  · next form => exact ofRole .value (by rw [form]; rfl) (by simp [form, Form.slots]) isPart
  · next form => exact ofRole .matchedClass (by rw [form]; rfl) (by simp [form, Form.slots]) isPart
  · next form => exact ofRole .key (by rw [form]; rfl) (by simp [form, Form.slots]) isPart
  · cases isPart

private theorem ignores_patternValues {pattern : Node} {slot : Slot}
    (steady : frame.Steady symbol pattern)
    (fitting : pattern.fits slot = true) :
    ¬ (inOrder (frame.patternValues pattern)).Does (.reads symbol) ∧
      ¬ (inOrder (frame.patternValues pattern)).Does (.writes symbol) := by
  have each : ∀ part ∈ frame.patternValues pattern,
      ¬ part.Does (.reads symbol) ∧ ¬ part.Does (.writes symbol) := by
    intro part isPart
    obtain ⟨node, member, isPart⟩ := List.mem_flatMap.mp isPart
    have inside := Node.mem_walk.mp member
    obtain ⟨inner, fits⟩ := Node.fits_of_mem fitting inside
    exact ignores_valuesAt (steady.of_mem inside) fits isPart
  constructor
  · intro does
    obtain ⟨part, isPart, does⟩ := does_inOrder does
    exact (each part isPart).1 does
  · intro does
    obtain ⟨part, isPart, does⟩ := does_inOrder does
    exact (each part isPart).2 does

theorem sound_matchNode {node : Node} {slot : Slot} (steady : frame.Steady symbol node)
    (fitting : node.fits slot = true) :
    Sound symbol (inOrder (frame.namesAt node))
      (fun track => .next (track.matchNode frame node)) := by
  have silent (role : Role) (pattern : Slot.isPattern node.form = true)
      (asked : (role, .expression) ∈ node.form.slots) :
      Sound symbol done (fun track => .next (track.evaluateRole frame role node.children)) := by
    have covers := covers_evaluateRole fun child isChild plays =>
      covers_evaluate (still_of_expression steady fitting pattern asked isChild plays)
    exact (covers.mono fun _ does => absurd does not_does_done).sound
  have named (name : String) :
      Sound symbol (inOrder (if name.isEmpty then [] else [frame.binds node name]))
        (fun track => .next (if name.isEmpty then track else track.bind frame node name)) := by
    split
    · exact .done
    · exact (sound_binds node name).after .done
  unfold namesAt Track.matchNode
  cases form : node.form with
  | matchValue => exact silent .value (by rw [form]; rfl) (by simp [form, Form.slots])
  | matchClass keywords =>
      exact silent .matchedClass (by rw [form]; rfl) (by simp [form, Form.slots])
  | matchAs name | matchStar name | matchMapping name =>
      cases name with
      | none => exact .done
      | some name => exact named name
  | _ => exact .done

theorem sound_matchNodes {nodes : List Node}
    (steady : ∀ node ∈ nodes, frame.Steady symbol node)
    (fitting : ∀ node ∈ nodes, ∃ slot, node.fits slot = true) :
    Sound symbol (inOrder (nodes.flatMap frame.namesAt))
      (fun track => .next (nodes.foldl (fun track node => track.matchNode frame node) track)) := by
  induction nodes with
  | nil => exact .done
  | cons node nodes induction =>
      have rest := induction (fun other member => steady other (List.mem_cons_of_mem _ member))
        (fun other member => fitting other (List.mem_cons_of_mem _ member))
      obtain ⟨slot, fits⟩ := fitting node List.mem_cons_self
      have own := sound_matchNode (steady node List.mem_cons_self) fits
      apply (own.after rest).fewer
      intro trace completion path
      rw [List.flatMap_cons] at path
      exact ⟨completion, inOrder_append path, id⟩

theorem sound_matchPattern {pattern : Node} {slot : Slot} (steady : frame.Steady symbol pattern)
    (fitting : pattern.fits slot = true) :
    Sound symbol
      ((inOrder (frame.patternValues pattern)).andThen (inOrder (frame.patternNames pattern)))
      (fun track => .next (track.matchPattern frame pattern)) := by
  have within : ∀ node ∈ pattern.walk, frame.Steady symbol node ∧
      ∃ slot, node.fits slot = true := by
    intro node member
    have inside := Node.mem_walk.mp member
    exact ⟨steady.of_mem inside, Node.fits_of_mem fitting inside⟩
  obtain ⟨unread, silent⟩ := ignores_patternValues steady fitting
  exact (Sound.ignored silent unread).andThen
    (sound_matchNodes (fun node member => (within node member).1)
      (fun node member => (within node member).2))

theorem sound_matchesPatterns {parts : List Node}
    (steady : ∀ part ∈ parts, frame.Steady symbol part)
    (fitting : ∀ part ∈ parts, part.role = .pattern → part.fits .pattern = true) :
    Sound symbol (frame.matchesPatterns parts)
      (fun track => .next (track.matchPatterns frame parts)) := by
  have each : ∀ pattern ∈ parts.filter (fun part => part.role = .pattern),
      frame.Steady symbol pattern ∧ pattern.fits .pattern = true := by
    intro pattern member
    obtain ⟨isPart, plays⟩ := List.mem_filter.mp member
    exact ⟨steady pattern isPart, fitting pattern isPart (of_decide_eq_true plays)⟩
  unfold matchesPatterns Track.matchPatterns
  generalize parts.filter (fun part => part.role = .pattern) = patterns at each
  induction patterns with
  | nil => exact .done
  | cons pattern patterns induction =>
      obtain ⟨steadyPattern, fits⟩ := each pattern List.mem_cons_self
      have rest := induction fun other member => each other (List.mem_cons_of_mem _ member)
      exact (sound_matchPattern steadyPattern fits).after rest

private theorem not_reads_binds {node : Node} {name : String} :
    ¬ (frame.binds node name).Does (.reads symbol) := by
  unfold binds
  split
  · exact fun does => nomatch does_act does
  · exact not_does_done

private theorem not_reads_namesAt {node : Node} {part : Paths}
    (isPart : part ∈ frame.namesAt node) :
    ¬ part.Does (.reads symbol) := by
  unfold namesAt at isPart
  split at isPart
  all_goals first
    | cases isPart
    | split at isPart
      · cases isPart
      · rw [List.mem_singleton.mp isPart]
        exact not_reads_binds

theorem not_reads_matchesPatterns {parts : List Node}
    (steady : ∀ part ∈ parts, frame.Steady symbol part)
    (fitting : ∀ part ∈ parts, part.role = .pattern → part.fits .pattern = true) :
    ¬ (frame.matchesPatterns parts).Does (.reads symbol) := by
  intro does
  obtain ⟨paths, member, does⟩ := does_inOrder does
  obtain ⟨pattern, isPattern, rfl⟩ := List.mem_map.mp member
  obtain ⟨isPart, plays⟩ := List.mem_filter.mp isPattern
  have fits := fitting pattern isPart (of_decide_eq_true plays)
  rcases does_andThen does with does | does
  · exact (ignores_patternValues (steady pattern isPart) fits).1 does
  · obtain ⟨part, isPart, does⟩ := does_inOrder does
    obtain ⟨node, _, isName⟩ := List.mem_flatMap.mp isPart
    exact not_reads_namesAt isName does

theorem sound_bindsHandler (handler : Node) :
    Sound symbol (frame.bindsHandler handler)
      (fun track => .next (track.bindHandler frame handler)) := by
  unfold bindsHandler Track.bindHandler
  cases handler.form with
  | handler name caught =>
      cases name with
      | none => exact .done
      | some name =>
          cases empty : name.isEmpty with
          | true => simpa [empty] using Sound.done
          | false => simpa [empty] using sound_binds handler name
  | _ => exact .done

theorem not_reads_bindsHandler {handler : Node} :
    ¬ (frame.bindsHandler handler).Does (.reads symbol) := by
  unfold bindsHandler
  split
  · split
    · exact not_does_done
    · exact not_reads_binds
  · exact not_does_done

private theorem sound_import (item : Node) :
    Sound symbol
      (match item.form with
      | .alias name asName =>
          if name = "*" then attempt
          else attempt.andThen (frame.binds item (importedName name asName))
      | _ => done)
      (fun track => .next
        (match item.form with
        | .alias name asName =>
            if name = "*" then track else track.bind frame item (importedName name asName)
        | _ => track)) := by
  have attempted : Sound symbol attempt (fun track => .next track) :=
    .ignored not_does_attempt not_does_attempt
  cases item.form
  all_goals first
    | exact .done
    | next name asName =>
        by_cases all : name = "*"
        · simpa [all] using attempted
        · simpa [all] using attempted.after (sound_binds item (importedName name asName))

theorem sound_imports (items : List Node) :
    Sound symbol (frame.imports items) (fun track => .next (track.bindImports frame items)) := by
  unfold imports Track.bindImports
  induction items with
  | nil => exact .done
  | cons item items induction => exact (sound_import item).after induction

/-- The constituents that play an evaluated role are followed soundly. -/
theorem sound_role {node : Node} {slot inner : Slot} {role : Role} (fitting : node.fits slot = true)
    (quiet : frame.Quiet symbol node) (asked : (role, inner) ∈ node.form.slots)
    (evaluated : inner.isEvaluated = true) :
    Sound symbol (inOrder (frame.evaluatesRole role node.children))
      (fun track => .next (track.evaluateRole frame role node.children)) := by
  apply sound_evaluateRole
  intro child isChild plays
  exact sound_evaluate (Node.fits_of_slot fitting isChild (plays ▸ asked)) evaluated
    (quiet.child isChild)

theorem sound_each {node : Node} {slot : Slot} (fitting : node.fits slot = true)
    (quiet : frame.Quiet symbol node)
    (evaluated : ∀ entry ∈ node.form.slots, entry.2.isEvaluated = true) :
    Sound symbol (inOrder (frame.evaluatesEach node.children))
      (fun track => .next (track.evaluateAll frame node.children)) := by
  apply sound_evaluateAll
  intro child isChild
  obtain ⟨inner, listed, fits⟩ := Node.slot_of_child fitting isChild
  exact sound_evaluate fits (evaluated _ listed) (quiet.child isChild)

theorem sound_augments {node : Node} {slot : Slot} (fitting : node.fits slot = true)
    (quiet : frame.Quiet symbol node) (form : node.form = .augAssign) :
    Sound symbol (frame.augments node.children)
      (fun track => .next (track.augment frame node.children)) := by
  have value := sound_role fitting quiet
    (show (.value, .expression) ∈ node.form.slots by simp [form, Form.slots]) rfl
  have target := sound_role fitting quiet
    (show (.target, .target) ∈ node.form.slots by simp [form, Form.slots]) rfl
  have attempted : Sound symbol attempt (fun track => .next track) :=
    .ignored not_does_attempt not_does_attempt
  unfold augments Track.augment
  cases node.children.find? (fun child => child.role = .target) with
  | none => exact value
  | some place =>
      simp only
      cases place.form with
      | name id context =>
          cases frame.occurrence place with
          | none => exact value.attempted
          | some other =>
              exact (Sound.reads other).after (value.after (attempted.after (.writes other)))
      | _ => exact target.after value.attempted

theorem sound_annotates {node : Node} {slot : Slot} {hint : TypeText}
    (fitting : node.fits slot = true) (quiet : frame.Quiet symbol node)
    (form : node.form = .annAssign hint) :
    Sound symbol (frame.annotates node.children)
      (fun track => .next (track.annotate frame node.children)) := by
  have value := sound_role fitting quiet
    (show (.value, .expression) ∈ node.form.slots by simp [form, Form.slots]) rfl
  have target := sound_role fitting quiet
    (show (.target, .target) ∈ node.form.slots by simp [form, Form.slots]) rfl
  unfold annotates Track.annotate
  cases node.children.any (fun child => child.role = .value) with
  | true => exact value.after target
  | false =>
      cases node.children.any (fun child => child.role = .target && child.identifier?.isSome) with
      | true => exact .done
      | false => exact target

/-- The message of an assertion is evaluated only if the test fails. -/
theorem sound_asserts {node : Node} {slot : Slot} (fitting : node.fits slot = true)
    (quiet : frame.Quiet symbol node) (form : node.form = .assertStmt) :
    Sound symbol
      ((inOrder (frame.evaluatesRole .test node.children)).andThen
        (optional ((inOrder (frame.evaluatesRole .message node.children)).andThen
          (stop .raised))))
      (fun track => .next (track.evaluateAll frame node.children)) := by
  have each : ∀ child ∈ node.children, frame.CoversNode symbol True child := by
    intro child isChild
    obtain ⟨inner, listed, fits⟩ := Node.slot_of_child fitting isChild
    have expression : inner = .expression := by
      simp only [form, Form.slots, List.mem_cons, Prod.mk.injEq, List.not_mem_nil] at listed
      rcases listed with ⟨_, same⟩ | ⟨_, same⟩ | impossible
      · exact same
      · exact same
      · cases impossible
    subst expression
    exact covers_evaluate
      (quiet.child isChild child (Node.self_mem_nodes child) (Node.admits_of_fits fits))
  refine ((covers_evaluateAll each).mono fun action does => ?_).sound
  rcases does_andThen does with does | does
  · exact doesAny_of_role (does_inOrder does)
  · have message := (does_andThen (does_optional does)).resolve_right not_does_stop
    exact doesAny_of_role (does_inOrder message)

def SoundStatement (frame : Frame) (symbol : Symbol) (node : Node) : Prop :=
  Sound symbol (frame.executes node) (fun track => track.execute frame node)

theorem sound_executeRole {role : Role} {items : List Node}
    (each : ∀ item ∈ items, item.role = role → frame.SoundStatement symbol item) :
    Sound symbol (frame.executesRole role items)
      (fun track => track.executeRole frame role items) := by
  induction items with
  | nil => exact .done
  | cons item items induction =>
      have rest := induction fun other member => each other (List.mem_cons_of_mem _ member)
      by_cases plays : item.role = role
      · simp only [executesRole, Track.executeRole, plays, if_true]
        exact (each item List.mem_cons_self plays).andThen rest
      · simp only [executesRole, Track.executeRole, plays, if_false]
        exact rest

end Frame

namespace Track

variable {frame : Frame} {before : SymbolSet}

theorem executeHandlers_eq (items : List Node) (track : Track) :
    executeHandlers frame before items track =
      alternatives before
        (fun handler track =>
          executeRole frame .body handler.children
            ((evaluateRole frame .caught handler.children track).bindHandler frame handler))
        (items.filter (fun item => item.role = .handler)) track := by
  induction items generalizing track with
  | nil => rfl
  | cons item items induction =>
      obtain ⟨form, info, parts⟩ := item
      by_cases plays : info.role = .handler
      · simp [executeHandlers, alternatives, plays, induction]
      · simp [executeHandlers, plays, induction]

theorem executeArms_eq (items : List Node) (track : Track) :
    executeArms frame before items track =
      alternatives before
        (fun arm track =>
          executeRole frame .body arm.children
            (evaluateRole frame .guard arm.children (track.matchPatterns frame arm.children)))
        (items.filter (fun item => item.role = .arm)) track := by
  induction items generalizing track with
  | nil => rfl
  | cons item items induction =>
      obtain ⟨form, info, parts⟩ := item
      by_cases plays : info.role = .arm
      · simp [executeArms, alternatives, plays, induction]
      · simp [executeArms, plays, induction]

theorem executeRole_of_none {role : Role} {items : List Node}
    (none : ∀ item ∈ items, ¬ decide (item.role = role) = true) (track : Track) :
    executeRole frame role items track = .next track := by
  induction items with
  | nil => rfl
  | cons item items induction =>
      have absent : ¬ item.role = role := by simpa using none item List.mem_cons_self
      simp only [executeRole, absent, if_false]
      exact induction fun other member => none other (List.mem_cons_of_mem _ member)

end Track

namespace Frame

open Paths

variable {frame : Frame} {symbol : Symbol}

theorem normal_of_handlers {items : List Node} {isGroup : Bool} {trace : List Action}
    (path : (if isGroup then dispatchGroup false false (frame.handlerPaths items)
      else dispatch (frame.handlerPaths items)) trace .normal) :
    ∃ handler ∈ items.filter (fun item => item.role = .handler), ∃ inner, inner ⊆ trace ∧
      (inOrder (frame.evaluatesRole .caught handler.children)).andThen
        ((frame.bindsHandler handler).andThen (frame.executesRole .body handler.children))
        inner .normal := by
  rw [handlerPaths_eq] at path
  cases isGroup with
  | true =>
      obtain ⟨entry, member, inner, within, ends⟩ := normal_of_dispatchGroup path
      obtain ⟨handler, isHandler, rfl⟩ := List.mem_map.mp member
      exact ⟨handler, isHandler, inner, within, ends⟩
  | false =>
      obtain ⟨entry, member, inner, within, ends⟩ := normal_of_dispatch path
      obtain ⟨handler, isHandler, rfl⟩ := List.mem_map.mp member
      exact ⟨handler, isHandler, inner, within, ends⟩

/-- The handlers of a `try` are followed soundly if their bodies are. -/
theorem rescues_handlers {node : Node} {slot : Slot} {isGroup : Bool}
    (fitting : node.fits slot = true) (quiet : frame.Quiet symbol node)
    (form : node.form = .tryStmt isGroup)
    (bodies : ∀ handler ∈ node.children, handler.fits .handler = true →
      Sound symbol (frame.executesRole .body handler.children)
        (fun track => track.executeRole frame .body handler.children)) :
    Rescues symbol
      (if isGroup then dispatchGroup false false (frame.handlerPaths node.children)
       else dispatch (frame.handlerPaths node.children))
      (fun before track => track.executeHandlers frame before node.children) := by
  have each : ∀ handler ∈ node.children.filter (fun item => item.role = .handler),
      handler ∈ node.children ∧ handler.fits .handler = true := by
    intro handler member
    obtain ⟨isChild, plays⟩ := List.mem_filter.mp member
    exact ⟨isChild, Node.fits_of_slot fitting isChild (by simp_all [Form.slots])⟩
  have tests : ∀ handler ∈ node.children.filter (fun item => item.role = .handler),
      Sound symbol (inOrder (frame.evaluatesRole .caught handler.children))
        (fun track => .next (track.evaluateRole frame .caught handler.children)) := by
    intro handler member
    obtain ⟨isChild, fits⟩ := each handler member
    obtain ⟨name, caught, shape⟩ := Node.form_of_handler fits
    exact sound_role fits (quiet.child isChild)
      (show (.caught, .expression) ∈ handler.form.slots by simp [shape, Form.slots]) rfl
  have named : ∀ handler ∈ node.children.filter (fun item => item.role = .handler),
      Sound symbol ((frame.bindsHandler handler).andThen
          (frame.executesRole .body handler.children))
        (fun track =>
          (track.bindHandler frame handler).executeRole frame .body handler.children) := by
    intro handler member
    obtain ⟨isChild, fits⟩ := each handler member
    exact (sound_bindsHandler handler).after (bodies handler isChild fits)
  simp only [Track.executeHandlers_eq]
  apply Rescues.of_handlers tests named
  · intro trace completion path
    rw [handlerPaths_eq] at path
    cases isGroup with
    | true =>
        have some := someOf_dispatchGroup path
        rwa [List.map_map] at some
    | false =>
        have some := someOf_dispatch path
        rwa [List.map_map] at some
  · intro trace path
    exact normal_of_handlers path

/-- The arms of a `match` are followed from the set before it, and it may be that none is taken. -/
theorem sound_arms {node : Node} {slot : Slot} (fitting : node.fits slot = true)
    (steady : frame.Steady symbol node) (form : node.form = .matchStmt)
    (bodies : ∀ arm ∈ node.children, arm.fits .arm = true →
      Sound symbol (frame.executesRole .body arm.children)
        (fun track => track.executeRole frame .body arm.children)) :
    Sound symbol (select (frame.armPaths node.children)) (fun track =>
      let (matched, ends) := track.executeArms frame track.assigned node.children
      .next (matched.within (SymbolSet.interAll (track.assigned :: ends)))) := by
  have each : ∀ arm ∈ node.children.filter (fun item => item.role = .arm),
      Visits symbol
        (either (failed (frame.matchesPatterns arm.children))
          ((frame.matchesPatterns arm.children).andThen
            (guarded (inOrder (frame.evaluatesRole .guard arm.children))
              (frame.executesRole .body arm.children))))
        (fun track => (((track.matchPatterns frame arm.children).evaluateRole frame .guard
          arm.children).executeRole frame .body arm.children).track) := by
    intro arm member
    obtain ⟨isChild, plays⟩ := List.mem_filter.mp member
    have fits : arm.fits .arm = true := Node.fits_of_slot fitting isChild (by simp_all [Form.slots])
    have shape := Node.form_of_arm fits
    have steadyParts : ∀ part ∈ arm.children, frame.Steady symbol part := fun part isPart =>
      steady.of_mem (Node.nodes_of_child isChild (Node.child_mem_nodes isPart))
    have fittingParts : ∀ part ∈ arm.children, part.role = .pattern → part.fits .pattern = true :=
      fun part isPart plays => Node.fits_of_slot fits isPart (by simp [shape, plays, Form.slots])
    have guard := sound_role fits (steady.quiet.child isChild)
      (show (.guard, .expression) ∈ arm.form.slots by simp [shape, Form.slots]) rfl
    exact .arm (sound_matchesPatterns steadyParts fittingParts)
      (not_reads_matchesPatterns steadyParts fittingParts)
      (.guarded guard (bodies arm isChild fits))
  have some {trace : List Action} {completion : Completion}
      (path : select (frame.armPaths node.children) trace completion) := by
    have some := someOf_select path
    rw [armPaths_eq, List.map_map] at some
    exact some
  simp only [Track.executeArms_eq]
  refine ⟨.unmoved fun track unassigned assigned => ?_, fun track => ?_, ?_, ?_⟩
  · exact unassigned (SymbolSet.mem_interAll assigned track.assigned List.mem_cons_self)
  · exact (Track.alternatives_extends
      (fun arm member => (each arm member).toReveals) track).within _
  · intro trace completion path exposes track unassigned
    exact Track.alternatives_exposes (fun arm member => (each arm member).toReveals) (some path)
      exposes unassigned track
  · intro trace completion path written track
    exact Track.alternatives_records each (some path) written track

theorem sound_marked {inner : Paths} {walk : Track → Outcome} (id : NodeId)
    (sound : Sound symbol inner walk) :
    Sound symbol ((act (.begins id)).andThen (inner.andThen (act (.ends id)))) walk := by
  have begins : Sound symbol (act (.begins id)) (fun track => .next track) :=
    .ignored (fun does => nomatch does_act does) (fun does => nomatch does_act does)
  have ends : Sound symbol (act (.ends id)) (fun track => .next track) :=
    .ignored (fun does => nomatch does_act does) (fun does => nomatch does_act does)
  have whole := begins.after (sound.andThen ends)
  simpa only [Outcome.andThen_next] using whole

/-- A loop without an `else` or without a `break` of its own ends regularly. -/
theorem regular_of_loop {node : Node} {slot : Slot} (fitting : node.fits slot = true)
    (form : node.form.isLoop = true)
    (loops : node.field .orelse = [] ∨
      ∀ statement ∈ node.field .body, statement.jumps .broken = false) :
    (∀ trace, ¬ frame.executesRole .body node.children trace .broken) ∨
      ∀ track, Track.executeRole frame .orelse node.children track = .next track := by
  rcases loops with none | never
  · right
    intro track
    exact Track.executeRole_of_none (List.filter_eq_nil_iff.mp none) track
  · left
    intro trace path
    obtain ⟨child, isChild, plays, ends⟩ := ends_executesRole rfl ⟨trace, path⟩
    have fits : child.fits .statement = true := by
      apply Node.fits_of_slot fitting isChild
      generalize node.form = shape at form
      cases shape with
      | forLoop isAsync => simp [plays, Form.slots]
      | whileLoop => simp [plays, Form.slots]
      | _ => cases form
    have jumps := jumps_of_ends fits rfl ends
    rw [never child (Node.mem_field.mpr ⟨isChild, plays⟩)] at jumps
    cases jumps

/-- Every statement is followed soundly. -/
theorem sound_execute {node : Node} (fitting : node.fits .statement = true)
    (steady : frame.Steady symbol node) : frame.SoundStatement symbol node := by
  induction node using Node.strongInduction with
  | step form info children induction =>
      have block (role : Role) (asked : (role, Slot.statement) ∈ form.slots) :
          Sound symbol (frame.executesRole role children)
            (fun track => track.executeRole frame role children) := by
        apply sound_executeRole
        intro child isChild plays
        have fits : child.fits .statement = true :=
          Node.fits_of_slot fitting isChild (plays ▸ asked)
        exact induction child isChild child (Node.self_mem_nodes child) fits
          (steady.of_mem (Node.child_mem_nodes isChild))
      have inner (part : Node) (isChild : part ∈ children) (slot : Slot)
          (fits : part.fits slot = true) (asked : (.body, Slot.statement) ∈ part.form.slots) :
          Sound symbol (frame.executesRole .body part.children)
            (fun track => track.executeRole frame .body part.children) := by
        apply sound_executeRole
        intro child isInner plays
        have fitsInner := Node.fits_of_slot fits isInner (plays ▸ asked)
        exact induction part isChild child (Node.child_mem_nodes isInner) fitsInner
          (steady.of_mem (Node.nodes_of_child isChild (Node.child_mem_nodes isInner)))
      have role (role : Role) (slot : Slot) (asked : (role, slot) ∈ form.slots)
          (evaluated : slot.isEvaluated = true) :
          Sound symbol (inOrder (frame.evaluatesRole role children))
            (fun track => .next (track.evaluateRole frame role children)) :=
        sound_role fitting steady.quiet asked evaluated
      have all (evaluated : ∀ entry ∈ form.slots, entry.2.isEvaluated = true) :
          Sound symbol (inOrder (frame.evaluatesEach children))
            (fun track => .next (track.evaluateAll frame children)) :=
        sound_each fitting steady.quiet evaluated
      unfold SoundStatement executes
      apply sound_marked
      cases form with
      | functionDef isAsync name returns =>
          have defaults := sound_evaluateDefaults fitting
            (show (.parameters, .parameterList) ∈ (Form.functionDef isAsync name returns).slots
              by simp [Form.slots]) steady.quiet
          exact (role .decorator .expression (by simp [Form.slots]) rfl).after (defaults.after
            ((block .body (by simp [Form.slots])).called.after (sound_binds _ name)))
      | classDef name =>
          exact (role .decorator .expression (by simp [Form.slots]) rfl).after
            ((role .base .expression (by simp [Form.slots]) rfl).after
              ((role .keyword .keyword (by simp [Form.slots]) rfl).after
                ((block .body (by simp [Form.slots])).classBody.after (sound_binds _ name))))
      | assign =>
          exact (role .value .expression (by simp [Form.slots]) rfl).after
            (role .target .target (by simp [Form.slots]) rfl)
      | annAssign hint => exact sound_annotates fitting steady.quiet rfl
      | augAssign => exact sound_augments fitting steady.quiet rfl
      | returnStmt => exact (all (by simp [Form.slots, Slot.isEvaluated])).stopped (by decide)
      | raiseStmt => exact (all (by simp [Form.slots, Slot.isEvaluated])).stopped (by decide)
      | breakStmt => exact .leaving (by decide)
      | continueStmt => exact .leaving (by decide)
      | assertStmt => exact sound_asserts fitting steady.quiet rfl
      | ifStmt =>
          exact (role .test .expression (by simp [Form.slots]) rfl).after
            ((block .body (by simp [Form.slots])).either (block .orelse (by simp [Form.slots])))
      | forLoop isAsync =>
          have target := role .target .target (by simp [Form.slots]) rfl
          have attempted : Sound symbol attempt (fun track => .next track) :=
            .ignored not_does_attempt not_does_attempt
          refine (role .iterable .expression (by simp [Form.slots]) rfl).after
            (attempted.loop (target.after (block .body (by simp [Form.slots])))
              (block .orelse (by simp [Form.slots])) ?_)
          refine (regular_of_loop fitting rfl (steady.loops _ (Node.self_mem_nodes _) rfl)).imp_left
            fun never trace path => ?_
          obtain ⟨rest, later⟩ := (closed_calm.ordered frame _ _).ends_after rfl ⟨trace, path⟩
          exact never rest later
      | whileLoop =>
          exact (role .test .expression (by simp [Form.slots]) rfl).loop
            (block .body (by simp [Form.slots])) (block .orelse (by simp [Form.slots]))
            (regular_of_loop fitting rfl (steady.loops _ (Node.self_mem_nodes _) rfl))
      | withStmt isAsync =>
          exact (role .item .item (by simp [Form.slots]) rfl).after
            (block .body (by simp [Form.slots])).managed
      | tryStmt isGroup =>
          have handlers := rescues_handlers fitting steady.quiet rfl fun handler isChild fits => by
            obtain ⟨name, caught, shape⟩ := Node.form_of_handler fits
            exact inner handler isChild .handler fits (by simp [shape, Form.slots])
          exact ((block .body (by simp [Form.slots])).rescued
            (block .orelse (by simp [Form.slots])) handlers).finished
              (block .finalbody (by simp [Form.slots]))
      | matchStmt =>
          have arms := sound_arms fitting steady rfl fun arm isChild fits =>
            inner arm isChild .arm fits (by simp [Node.form_of_arm fits, Form.slots])
          exact (role .subject .expression (by simp [Form.slots]) rfl).after arms
      | importStmt => exact sound_imports children
      | importFrom module level => exact sound_imports children
      | _ =>
          first
            | exact (Bool.noConfusion (Node.admits_of_fits fitting))
            | exact all (by simp [Form.slots, Slot.isEvaluated])

/-- What some path of statements reads before writing it is exposed by following them, and what it
writes is recorded. -/
theorem visits_runs {statements : List Node}
    (fitting : ∀ statement ∈ statements, statement.fits .statement = true)
    (steady : ∀ statement ∈ statements, frame.Steady symbol statement) :
    Visits symbol (frame.runs statements) (fun track => track.follow frame statements) := by
  induction statements with
  | nil => exact Sound.done.visits
  | cons statement rest induction =>
      have isStatement : statement.isStatement = true :=
        Node.admits_of_fits (fitting statement List.mem_cons_self)
      have own := sound_execute (fitting statement List.mem_cons_self)
        (steady statement List.mem_cons_self)
      have later := induction (fun other member => fitting other (List.mem_cons_of_mem _ member))
        (fun other member => steady other (List.mem_cons_of_mem _ member))
      have step (track : Track) : track.follow frame (statement :: rest) =
          (track.execute frame statement).track.follow frame rest := by
        simp [Track.follow, isStatement]
      simp only [step]
      exact own.visitsThen later

end Frame

end SafeRefactor
