import SafeRefactor.Proofs.Occurrence
import SafeRefactor.Proofs.Subtree

/-!
# Evaluation is covered

What happens on the paths of an expression in which a symbol is not bound is a matter
of reading only.  The track that follows such an expression leaves the symbol assigned
or not as it was and records it as exposed if any path reads it, in whatever order and
however often the parts of the expression are evaluated.
-/

namespace SafeRefactor

namespace Track

/-- What was recorded stays recorded. -/
structure Extends (earlier later : Track) : Prop where
  exposed : ∀ symbol ∈ earlier.exposed, symbol ∈ later.exposed
  writes : ∀ symbol ∈ earlier.writes, symbol ∈ later.writes

theorem Extends.refl (track : Track) : track.Extends track :=
  ⟨fun _ member => member, fun _ member => member⟩

theorem Extends.trans {first second third : Track} (left : first.Extends second)
    (right : second.Extends third) : first.Extends third :=
  ⟨fun symbol member => right.exposed symbol (left.exposed symbol member),
    fun symbol member => right.writes symbol (left.writes symbol member)⟩

theorem Extends.within {earlier later : Track} (kept : earlier.Extends later)
    (assigned : SymbolSet) : earlier.Extends (later.within assigned) :=
  ⟨kept.exposed, kept.writes⟩

theorem Extends.ofWithin {earlier later : Track} {assigned : SymbolSet}
    (kept : (earlier.within assigned).Extends later) : earlier.Extends later :=
  ⟨kept.exposed, kept.writes⟩

theorem read_extends (symbol : Symbol) (track : Track) : track.Extends (track.read symbol) := by
  refine ⟨?_, fun _ member => member⟩
  intro other member
  unfold read
  simp only
  split
  · exact member
  · exact SymbolSet.mem_insert.mpr (Or.inr member)

theorem write_extends (symbol : Symbol) (track : Track) : track.Extends (track.write symbol) :=
  ⟨fun _ member => member, fun _ member => SymbolSet.mem_insert.mpr (Or.inr member)⟩

theorem exposed_read {symbol : Symbol} {track : Track} (unassigned : symbol ∉ track.assigned) :
    symbol ∈ (track.read symbol).exposed := by
  simp [read, unassigned]

@[simp]
theorem assigned_within (track : Track) (assigned : SymbolSet) :
    (track.within assigned).assigned = assigned :=
  rfl

@[simp]
theorem assigned_read (symbol : Symbol) (track : Track) :
    (track.read symbol).assigned = track.assigned :=
  rfl

theorem mem_assigned_write {symbol other : Symbol} {track : Track} :
    symbol ∈ (track.write other).assigned ↔ symbol = other ∨ symbol ∈ track.assigned :=
  SymbolSet.mem_insert

theorem mem_assigned_unassign {symbol other : Symbol} {track : Track} :
    symbol ∈ (track.unassign other).assigned ↔ symbol ∈ track.assigned ∧ symbol ≠ other :=
  SymbolSet.mem_remove

end Track

/-- What a piece of code does to one symbol is covered by following it: the symbol is never
written, and it is exposed if it is read while possibly unassigned.  It is read only if it is
`mentioned`. -/
structure Covers (symbol : Symbol) (mentioned : Prop) (does : Action → Prop)
    (walk : Track → Track) : Prop where
  grows : ∀ track, Track.Extends track (walk track)
  assigned : ∀ track, symbol ∈ (walk track).assigned ↔ symbol ∈ track.assigned
  silent : ¬ does (.writes symbol)
  mentioned : does (.reads symbol) → mentioned
  reads : does (.reads symbol) → ∀ track, symbol ∉ track.assigned → symbol ∈ (walk track).exposed

namespace Covers

variable {symbol : Symbol} {mentioned : Prop} {does first second : Action → Prop}
  {walk next : Track → Track}

theorem nothing (none : ∀ action, ¬ does action) :
    Covers symbol mentioned does (fun track => track) :=
  ⟨.refl, fun _ => Iff.rfl, none _, fun does => absurd does (none _),
    fun does => absurd does (none _)⟩

theorem mono (covers : Covers symbol mentioned first walk)
    (fewer : ∀ action, does action → first action) :
    Covers symbol mentioned does walk :=
  ⟨covers.grows, covers.assigned, fun writes => covers.silent (fewer _ writes),
    fun reads => covers.mentioned (fewer _ reads), fun reads => covers.reads (fewer _ reads)⟩

theorem comp (left : Covers symbol mentioned first walk)
    (right : Covers symbol mentioned second next)
    (parts : ∀ action, does action → first action ∨ second action) :
    Covers symbol mentioned does (fun track => next (walk track)) where
  grows track := (left.grows track).trans (right.grows (walk track))
  assigned track := (right.assigned (walk track)).trans (left.assigned track)
  silent writes := by
    rcases parts _ writes with writes | writes
    · exact left.silent writes
    · exact right.silent writes
  mentioned reads := (parts _ reads).elim left.mentioned right.mentioned
  reads reads track unassigned := by
    rcases parts _ reads with reads | reads
    · exact (right.grows (walk track)).exposed _ (left.reads reads track unassigned)
    · apply right.reads reads
      rw [left.assigned]
      exact unassigned

theorem onCopy (covers : Covers symbol mentioned does walk) :
    Covers symbol mentioned does (fun track => (walk track).within track.assigned) where
  grows track := (covers.grows track).within track.assigned
  assigned _ := Iff.rfl
  silent := covers.silent
  mentioned := covers.mentioned
  reads := covers.reads

end Covers

namespace Frame

open Paths

/-- The symbol is neither bound nor deleted by a name occurrence inside the node, and it is read
only if it is `mentioned`. -/
def Still (frame : Frame) (symbol : Symbol) (mentioned : Prop) (node : Node) : Prop :=
  ∀ inner ∈ node.nodes, ∀ id context, inner.form = .name id context →
    frame.occurrence inner = some symbol → context = .load ∧ mentioned

theorem Still.child {frame : Frame} {symbol : Symbol} {mentioned : Prop} {node child : Node}
    (still : frame.Still symbol mentioned node) (isChild : child ∈ node.children) :
    frame.Still symbol mentioned child :=
  fun inner inside => still inner (Node.nodes_of_child isChild inside)

variable {frame : Frame} {symbol : Symbol} {mentioned : Prop}

theorem covers_touch {node : Node} {context : Context}
    (still : frame.occurrence node = some symbol → context = .load ∧ mentioned) :
    Covers symbol mentioned (frame.touches node context).Does
      (fun track => track.touch frame node context) := by
  unfold touches
  cases found : frame.occurrence node with
  | none =>
      simp only [Track.touch, found]
      exact .nothing fun _ => not_does_done
  | some other =>
      rw [found] at still
      cases context with
      | load =>
          simp only [Track.touch, found]
          refine ⟨Track.read_extends other, fun _ => Iff.rfl, fun does => ?_, fun does => ?_,
            fun does => ?_⟩
          · cases does_act does
          · exact (still (congrArg some (Action.reads.inj (does_act does)).symm)).2
          · obtain rfl : symbol = other := Action.reads.inj (does_act does)
            exact fun track => Track.exposed_read
      | store =>
          have different : symbol ≠ other := by
            intro same
            cases (still (congrArg some same.symm)).1
          simp only [Track.touch, found]
          refine ⟨Track.write_extends other, fun track => ?_, fun does => ?_, fun does => ?_,
            fun does => ?_⟩
          · simp [Track.mem_assigned_write, different]
          · exact different (Action.writes.inj (does_act does))
          · cases does_act does
          · cases does_act does
      | del =>
          have different : symbol ≠ other := by
            intro same
            cases (still (congrArg some same.symm)).1
          simp only [Track.touch, found]
          refine ⟨fun track => ?_, fun track => ?_, fun does => ?_, fun does => ?_, fun does => ?_⟩
          · exact ⟨(Track.read_extends other track).exposed,
              (Track.read_extends other track).writes⟩
          · simp [Track.mem_assigned_unassign, different]
          · cases does_act does
          · exact absurd (Action.reads.inj (does_act does)) different
          · exact absurd (Action.reads.inj (does_act does)) different

/-- Following a node as an expression covers its paths. -/
def CoversNode (frame : Frame) (symbol : Symbol) (mentioned : Prop) (node : Node) : Prop :=
  Covers symbol mentioned (frame.evaluates node).Does (fun track => track.evaluate frame node)

theorem covers_evaluateAll {items : List Node}
    (each : ∀ item ∈ items, frame.CoversNode symbol mentioned item) :
    Covers symbol mentioned (DoesAny (frame.evaluatesEach items))
      (fun track => track.evaluateAll frame items) := by
  induction items with
  | nil =>
      simp only [evaluatesEach, Track.evaluateAll]
      exact .nothing fun _ => doesAny_nil
  | cons item items induction =>
      simp only [evaluatesEach, Track.evaluateAll]
      have rest := induction fun other member => each other (List.mem_cons_of_mem _ member)
      exact (each item List.mem_cons_self).comp rest fun _ => doesAny_cons

theorem covers_evaluateRole {role : Role} {items : List Node}
    (each : ∀ item ∈ items, item.role = role → frame.CoversNode symbol mentioned item) :
    Covers symbol mentioned (DoesAny (frame.evaluatesRole role items))
      (fun track => track.evaluateRole frame role items) := by
  induction items with
  | nil =>
      simp only [evaluatesRole, Track.evaluateRole]
      exact .nothing fun _ => doesAny_nil
  | cons item items induction =>
      have rest := induction fun other member => each other (List.mem_cons_of_mem _ member)
      by_cases plays : item.role = role
      · simp only [evaluatesRole, Track.evaluateRole, plays, if_true]
        exact (each item List.mem_cons_self plays).comp rest fun _ => doesAny_cons
      · simp only [evaluatesRole, Track.evaluateRole, plays, if_false]
        exact rest

theorem doesAny_of_role {role : Role} {items : List Node} {action : Action}
    (does : DoesAny (frame.evaluatesRole role items) action) :
    DoesAny (frame.evaluatesEach items) action := by
  induction items with
  | nil => exact does
  | cons item items induction =>
      have later : DoesAny (frame.evaluatesEach items) action →
          DoesAny (frame.evaluatesEach (item :: items)) action := by
        rintro ⟨part, member, does⟩
        exact ⟨part, List.mem_cons_of_mem _ member, does⟩
      by_cases plays : item.role = role
      · simp only [evaluatesRole, plays, if_true] at does
        rcases doesAny_cons does with does | does
        · exact ⟨frame.evaluates item, List.mem_cons_self, does⟩
        · exact later (induction does)
      · simp only [evaluatesRole, plays, if_false] at does
        exact later (induction does)

theorem covers_evaluateDefaults {items : List Node}
    (each : ∀ item ∈ items, item.role = .parameters → ∀ part ∈ item.children,
      part.role = .default ∨ part.role = .keywordDefault →
        frame.CoversNode symbol mentioned part) :
    Covers symbol mentioned (DoesAny (frame.evaluatesDefaults items))
      (fun track => track.evaluateDefaults frame items) := by
  induction items with
  | nil =>
      simp only [evaluatesDefaults, Track.evaluateDefaults]
      exact .nothing fun _ => doesAny_nil
  | cons item items induction =>
      obtain ⟨form, info, parts⟩ := item
      have rest := induction fun other member => each other (List.mem_cons_of_mem _ member)
      by_cases plays : info.role = .parameters
      · have ofRole (role : Role) (isDefault : role = .default ∨ role = .keywordDefault) :
            Covers symbol mentioned (DoesAny (frame.evaluatesRole role parts))
              (fun track => track.evaluateRole frame role parts) := by
          apply covers_evaluateRole
          rintro part member rfl
          exact each _ List.mem_cons_self plays part member isDefault
        simp only [evaluatesDefaults, Track.evaluateDefaults, plays, if_true]
        have own := (ofRole .default (Or.inl rfl)).comp (ofRole .keywordDefault (Or.inr rfl))
          fun _ => doesAny_append
        exact own.comp rest fun _ => doesAny_append
      · simp only [evaluatesDefaults, Track.evaluateDefaults, plays, if_false]
        exact rest

/-- The clauses of a comprehension are followed before its innermost part. -/
theorem covers_evaluateClauses {items : List Node} {inner : Paths} {walk : Track → Track}
    (each : ∀ item ∈ items, ∀ part ∈ item.children, frame.CoversNode symbol mentioned part)
    (innermost : Covers symbol mentioned inner.Does walk) :
    Covers symbol mentioned (frame.evaluatesClauses inner items).Does
      (fun track => walk (track.evaluateClauses frame items)) := by
  induction items with
  | nil =>
      simp only [evaluatesClauses, Track.evaluateClauses]
      exact innermost
  | cons item items induction =>
      obtain ⟨form, info, parts⟩ := item
      have rest := induction fun other member => each other (List.mem_cons_of_mem _ member)
      by_cases plays : info.role = .clause
      · have ofRole (role : Role) :
            Covers symbol mentioned (DoesAny (frame.evaluatesRole role parts))
            (fun track => track.evaluateRole frame role parts) :=
          covers_evaluateRole fun part member _ => each _ List.mem_cons_self part member
        simp only [evaluatesClauses, Track.evaluateClauses, plays, if_true]
        have conditions := (ofRole .condition).comp rest fun _ => does_behind
        have round := (ofRole .target).comp conditions fun action does =>
          (does_andThen does).imp_left does_inOrder
        exact (ofRole .iterable).comp round fun action does =>
          (does_andThen does).imp does_inOrder does_repeated
      · simp only [evaluatesClauses, Track.evaluateClauses, plays, if_false]
        exact rest

/-- Following an expression covers its paths for every symbol that is not bound in it. -/
theorem covers_evaluate {node : Node} (still : frame.Still symbol mentioned node) :
    frame.CoversNode symbol mentioned node := by
  induction node using Node.strongInduction with
  | step form info children induction =>
      have each : ∀ child ∈ children, frame.CoversNode symbol mentioned child := fun child member =>
        induction child member child (Node.self_mem_nodes child) (still.child member)
      have parts : ∀ child ∈ children, ∀ part ∈ child.children,
          frame.CoversNode symbol mentioned part := by
        intro child member part isPart
        have stillPart := (still.child member).child isPart
        exact induction child member part (Node.child_mem_nodes isPart) stillPart
      have ofRole (role : Role) :
          Covers symbol mentioned (DoesAny (frame.evaluatesRole role children))
            (fun track => track.evaluateRole frame role children) :=
        covers_evaluateRole fun child member _ => each child member
      have ofAll := covers_evaluateAll each
      -- The operation itself may raise, which is nothing to any symbol.
      have strip {paths : Paths} {action : Action} (does : (paths.andThen attempt).Does action) :
          paths.Does action := (does_andThen does).resolve_right not_does_attempt
      unfold CoversNode
      cases form with
      | name id context =>
          simp only [evaluates, Track.evaluate]
          refine (covers_touch fun found => ?_).mono fun _ => strip
          exact still _ (Node.self_mem_nodes _) id context rfl found
      | namedExpr =>
          simp only [evaluates, Track.evaluate]
          exact (ofRole .value).comp (ofRole .target) fun action does =>
            (does_andThen (strip does)).imp does_inOrder does_inOrder
      | lambda =>
          simp only [evaluates, Track.evaluate]
          have defaults := covers_evaluateDefaults fun child member _ part isPart _ =>
            parts child member part isPart
          exact defaults.comp (ofRole .result).onCopy fun action does =>
            (does_andThen (strip does)).imp does_inOrder fun does => does_inOrder (does_called does)
      | comprehension kind =>
          have element := (ofRole .value).comp (ofRole .element) fun action does =>
            (does_andThen does).imp does_inOrder does_inOrder
          have innermost := (ofRole .key).comp element fun action does =>
            (does_andThen does).imp_left does_inOrder
          simp only [evaluates, Track.evaluate]
          exact (covers_evaluateClauses parts innermost).mono fun _ => strip
      | boolOp =>
          simp only [evaluates, Track.evaluate]
          exact ofAll.mono fun action does => doesAny_of_role (does_shortCircuit (strip does))
      | compare =>
          simp only [evaluates, Track.evaluate]
          refine ofAll.mono fun action does => ?_
          rcases does_andThen (strip does) with does | does
          · exact doesAny_of_role (does_inOrder does)
          · exact doesAny_of_role (does_shortCircuit does)
      | ifExp =>
          simp only [evaluates, Track.evaluate]
          refine ofAll.mono fun action does => ?_
          rcases does_andThen (strip does) with does | does
          · exact doesAny_of_role (does_inOrder does)
          · rcases does_either does with does | does
            · exact doesAny_of_role (does_inOrder does)
            · exact doesAny_of_role (does_inOrder does)
      | dict =>
          simp only [evaluates, Track.evaluate]
          exact ofAll.mono fun action does => does_inSomeOrder (strip does)
      | call =>
          simp only [evaluates, Track.evaluate]
          refine ofAll.mono fun action does => ?_
          rcases does_andThen (strip does) with does | does
          · exact doesAny_of_role (does_inOrder does)
          · rcases doesAny_append (does_inSomeOrder does) with does | does
            · exact doesAny_of_role does
            · exact doesAny_of_role does
      | _ =>
          simp only [evaluates, Track.evaluate]
          exact ofAll.mono fun action does => does_inOrder (strip does)

end Frame

end SafeRefactor
