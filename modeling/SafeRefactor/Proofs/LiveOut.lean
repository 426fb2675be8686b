import SafeRefactor.Proofs.LiveIn
import SafeRefactor.Proofs.WayOut

/-!
# What is live after a region

A symbol that a path writes in a region and reads later, before it is written again, is
live after the region, as long as the way outwards from the region does justice to the
symbol.  What is left of the path after the last statement of the region is followed
construct by construct.  Where the way outwards ends early, the function has been left.
-/

namespace SafeRefactor

theorem Exposes.of_mark {symbol : Symbol} {trace : List Action} {id : NodeId}
    (exposes : Exposes symbol (trace ++ [.ends id])) : Exposes symbol trace := by
  rcases exposes.of_append with exposes | ⟨_, exposes⟩
  · exact exposes
  · have wrong := List.mem_singleton.mp exposes.mem_reads
    cases wrong

/-- Code on all paths of which the function is left; what they read before writing it is known. -/
structure Departs (symbol : Symbol) (known : Prop) (paths : Paths) : Prop where
  leaves : ∀ {trace completion}, paths trace completion →
    completion = .returned ∨ completion = .raised
  exposes : ∀ {trace completion}, paths trace completion → Exposes symbol trace → known

namespace Departs

open Paths

variable {symbol : Symbol} {known : Prop} {paths second : Paths}

private theorem not_normal (departs : Departs symbol known paths) {trace : List Action} :
    ¬ paths trace .normal := by
  intro path
  rcases departs.leaves path with wrong | wrong
  · cases wrong
  · cases wrong

theorem mono (departs : Departs symbol known paths)
    (fewer : ∀ trace completion, second trace completion →
      ∃ rest, paths rest completion ∧ (Exposes symbol trace → Exposes symbol rest)) :
    Departs symbol known second where
  leaves path := by
    obtain ⟨rest, path, _⟩ := fewer _ _ path
    exact departs.leaves path
  exposes path exposes := by
    obtain ⟨rest, path, reads⟩ := fewer _ _ path
    exact departs.exposes path (reads exposes)

theorem andThen (departs : Departs symbol known paths) :
    Departs symbol known (paths.andThen second) := by
  apply departs.mono
  intro trace completion path
  cases path with
  | stops path _ => exact ⟨_, path, id⟩
  | goesOn path _ => exact absurd path departs.not_normal

theorem rejoins (departs : Departs symbol known paths) :
    Departs symbol known (rejoins paths second) := by
  apply departs.mono
  intro trace completion path
  cases path with
  | breaks path => exact absurd (departs.leaves path) (by decide)
  | leaves path _ => exact ⟨_, path, id⟩
  | again path goes _ =>
      have left := departs.leaves path
      rcases goes with rfl | rfl
      · exact absurd left (by decide)
      · exact absurd left (by decide)

theorem managed (departs : Departs symbol known paths) : Departs symbol known (managed paths) where
  leaves path := by
    obtain ⟨how, path, same⟩ := path
    rcases same with rfl | rfl
    · exact departs.leaves path
    · exact Or.inr rfl
  exposes path exposes := by
    obtain ⟨how, path, _⟩ := path
    exact departs.exposes path exposes

theorem rescued {rescue : Paths} (departs : Departs symbol known paths)
    (none : ∀ {trace completion}, rescue trace completion → trace = [] ∧ completion = .raised) :
    Departs symbol known (rescued paths second rescue) := by
  apply departs.mono
  intro trace completion path
  cases path with
  | completes path _ => exact absurd path departs.not_normal
  | rescues path later =>
      obtain ⟨rfl, rfl⟩ := none later
      exact ⟨_, path, by rw [List.append_nil]; exact id⟩
  | leaves path _ _ => exact ⟨_, path, id⟩

theorem finished (departs : Departs symbol known paths)
    (none : ∀ {trace completion}, second trace completion → trace = [] ∧ completion = .normal) :
    Departs symbol known (finished paths second) := by
  apply departs.mono
  intro trace completion path
  cases path with
  | resumes path later =>
      obtain ⟨rfl, _⟩ := none later
      exact ⟨_, path, by rw [List.append_nil]; exact id⟩
  | overrides _ later early => exact absurd (none later).2 early

theorem closes {inner : Paths} (departs : Departs symbol known paths) :
    Departs symbol known (closes inner paths) := by
  apply departs.mono
  intro trace completion path
  obtain ⟨own, path, ⟨rfl, _⟩ | rfl⟩ := path
  · exact absurd path departs.not_normal
  · exact ⟨_, path, id⟩

end Departs

namespace Frame

open Paths

variable {frame : Frame} {symbol : Symbol} {parent node : Node} {slot : Slot} {way : List Node}
  {paths : Paths} {known : Prop}

theorem departs_resumes (holds : parent.form.Holds node.role slot)
    (unguarded : Node.guarded (node :: parent :: way) = false)
    (rest : Departs symbol known
      (paths.andThen (frame.executesRole node.role (parent.followers node))))
    (part : node.role.isBlock = false → Departs symbol known paths) :
    Departs symbol known (frame.resumes node parent paths) := by
  have inert : parent.catches node = false := (Bool.or_eq_false_iff.mp unguarded).1
  unfold resumes
  unfold Node.catches at inert
  generalize parent.form = shape at holds inert
  generalize node.role = role at holds inert rest part
  cases holds with
  | branch => exact rest
  | alternative => exact rest
  | forRound isAsync => exact rest.rejoins
  | forEnd isAsync => exact rest
  | whileRound => exact rest.rejoins
  | whileEnd => exact rest
  | managed isAsync => exact rest.managed
  | tried isGroup =>
      have none : parent.field .handler = [] ∧ parent.field .finalbody = [] := by
        simpa [Form.isTry] using inert
      exact (rest.rescued fun path => handles_nil none.1 path).finished
        fun path => executesRole_nil none.2 path
  | rescue isGroup =>
      have none : isGroup = false ∧ parent.field .finalbody = [] := by
        simpa [Form.isTry, Form.isGroup] using inert
      exact (part rfl).finished fun path => executesRole_nil none.2 path
  | completed isGroup =>
      have none : parent.field .finalbody = [] := by
        simpa [Form.isTry] using inert
      exact rest.finished fun path => executesRole_nil none path
  | final isGroup => exact rest.closes
  | handled name caught => exact rest
  | arm => exact part rfl
  | matched => exact rest

private theorem guarded_outwards (unguarded : Node.guarded (node :: parent :: way) = false)
    (passable : parent.form.isBarrier = false) : Node.guarded (parent :: way) = false := by
  obtain ⟨_, further⟩ := Bool.or_eq_false_iff.mp unguarded
  simpa [passable] using further

private theorem single_of_unguarded (unguarded : Node.guarded (node :: parent :: way) = false)
    (form : parent.form = .tryStmt true) : node.role ≠ .handler := by
  intro plays
  simp [Node.guarded, Node.catches, form, plays, Form.isTry, Form.isGroup] at unguarded

/-- The rest of a list that is seen to return or raise leaves the function, unless it can be left
early. -/
theorem departs_rest {outer : Slot} {jumping : Bool} {track : Track}
    (fitting : parent.fits outer = true) (steady : frame.Steady symbol parent)
    (asked : (node.role, Slot.statement) ∈ parent.form.slots) (block : node.role.isBlock = true)
    (shows : Shows symbol (Node.guarded (node :: parent :: way)) jumping paths track)
    (straight : jumping = false) (regular : parent.restJumps node = false)
    (stops : (track.followRest frame parent node).falls = false) :
    Departs symbol (symbol ∈ (track.followRest frame parent node).track.exposed)
      (paths.andThen (frame.executesRole node.role (parent.followers node))) := by
  have next := sound_rest fitting steady asked
  have unbroken {trace : List Action} {how : Completion} (jump : how.isJump = true) :
      ¬ paths.andThen (frame.executesRole node.role (parent.followers node)) trace how := by
    intro path
    rcases ends_andThen ⟨trace, path⟩ with ⟨ends, _⟩ | ends
    · rw [shows.jumps jump ends] at straight
      cases straight
    · rw [restJumps_of_ends fitting asked block jump ends] at regular
      cases regular
  constructor
  · intro trace completion path
    cases completion with
    | normal =>
        obtain ⟨_, _, _, _, later⟩ := path.of_normal
        rw [next.falls later track] at stops
        cases stops
    | broken => exact absurd path (unbroken rfl)
    | continued => exact absurd path (unbroken rfl)
    | returned => exact Or.inl rfl
    | raised => exact Or.inr rfl
  · intro trace completion path exposes
    exact shows.exposes_next next path exposes

theorem jumps_of_performs {how : Completion} (fitting : node.fits slot = true)
    (code : slot.isBlock = true) (jump : how.isJump = true)
    (ends : (frame.performs node).Ends how) : node.jumps how = true := by
  have inner (asked : (.body, Slot.statement) ∈ node.form.slots)
      (ends : (frame.executesRole .body node.children).Ends how) :
      Node.jumpsAny how node.children = true := by
    obtain ⟨child, isChild, plays, ends⟩ := ends_executesRole jump ends
    have fits := Node.fits_of_slot fitting isChild (plays ▸ asked)
    exact Node.jumpsAny_iff.mpr ⟨child, isChild, jumps_of_ends fits jump ends⟩
  obtain ⟨form, info, children⟩ := node
  cases slot with
  | statement =>
      rw [performs_of_fits fitting] at ends
      exact jumps_of_ends fitting jump ends
  | handler =>
      obtain ⟨name, caught, rfl⟩ := Node.form_of_handler fitting
      exact inner (by simp [Form.slots]) ends
  | arm =>
      obtain rfl := Node.form_of_arm fitting
      exact inner (by simp [Form.slots]) ends
  | _ => cases code

end Frame

namespace Node.WellFormed

theorem fits_of_function {tree function : Node} (wellFormed : tree.WellFormed)
    (inside : function ∈ tree.nodes) (isFunction : function.form.isFunction = true) :
    ∃ outer, function.fits outer = true := by
  rcases wellFormed.fits_of_mem inside with rfl | fits
  · rw [Grammatical.form_eq wellFormed.grammatical] at isFunction
    cases isFunction
  · exact fits

variable {tree parent node : Node} (wellFormed : tree.WellFormed) (inside : parent ∈ tree.nodes)
  (isChild : node ∈ parent.children) (block : node.form.isBlock = true)

include wellFormed inside isChild block

theorem holds_of_child (passable : parent.form.isBarrier = false) :
    ∃ outer slot, parent.fits outer = true ∧ parent.form.Holds node.role slot ∧
      node.fits slot = true ∧ slot.isBlock = true := by
  obtain ⟨slot, listed, fitting⟩ := wellFormed.slot_of_child inside isChild
  have code := Slot.isBlock_of_admits (Node.admits_of_fits fitting) block
  rcases wellFormed.fits_of_mem inside with rfl | ⟨outer, fits⟩
  · rw [Grammatical.form_eq wellFormed.grammatical] at passable
    cases passable
  · exact ⟨outer, slot, fits, Form.holds_of_slot listed code passable, fitting, code⟩

theorem body_of_function (isFunction : parent.form.isFunction = true) :
    node.role = .body ∧ (node.role, Slot.statement) ∈ parent.form.slots ∧
      node.fits .statement = true := by
  obtain ⟨slot, listed, fitting⟩ := wellFormed.slot_of_child inside isChild
  have code := Slot.isBlock_of_admits (Node.admits_of_fits fitting) block
  have only : ∀ entry ∈ parent.form.slots, entry.2.isBlock = true →
      entry = (.body, Slot.statement) := by
    generalize parent.form = form at isFunction
    cases form with
    | functionDef isAsync name returns => simp [Form.slots, Slot.isBlock]
    | _ => cases isFunction
  obtain ⟨plays, rfl⟩ := Prod.mk.inj (only _ listed code)
  exact ⟨plays, listed, fitting⟩

end Node.WellFormed

namespace Frame

open Paths

variable {frame : Frame} {symbol : Symbol} {tree function node last : Node}

/-- One step outwards on what is left of a path, up to the mark at the end of the construct. -/
theorem resumes_outwards {parent : Node} {outer slot : Slot} {trace : List Action}
    {completion : Completion} (distinct : parent.Distinct) (fitting : parent.fits outer = true)
    (isChild : node ∈ parent.children) (inside : last ∈ node.nodes)
    (holds : parent.form.Holds node.role slot)
    (single : parent.form = .tryStmt true → node.role ≠ .handler)
    (path : after last.id (frame.performs parent) trace completion) :
    ∃ rest, frame.resumes node parent (after last.id (frame.performs node)) rest completion ∧
      (Exposes symbol trace → Exposes symbol rest) ∧
      (.writes symbol ∈ rest → .writes symbol ∈ trace) := by
  obtain ⟨rest, path, same⟩ :=
    resumes_of_after distinct isChild inside fitting holds single path
  refine ⟨rest, path, ?_, ?_⟩
  · intro exposes
    rcases same with rfl | rfl
    · exact exposes
    · exact exposes.of_mark
  · intro written
    rcases same with rfl | rfl
    · exact written
    · exact List.mem_append_left _ written

section

variable (wellFormed : tree.WellFormed) (inTree : function ∈ tree.nodes)
  (isFunction : function.form.isFunction = true)

include wellFormed inTree isFunction

private theorem after_function {trace : List Action} {completion : Completion}
    (isChild : node ∈ function.children) (block : node.form.isBlock = true)
    (inside : last ∈ node.nodes)
    (path : after last.id (frame.runs (function.field .body)) trace completion) :
    (after last.id (frame.performs node)).andThen
      (frame.executesRole node.role (function.followers node)) trace completion := by
  obtain ⟨plays, _, fits⟩ := wellFormed.body_of_function inTree isChild block isFunction
  rw [plays]
  apply after_block (wellFormed.distinct.of_mem inTree) isChild inside plays fits
  rw [executesRole_eq]
  exact path

/-- Code that leaves the function on all paths, with no `try` around, is the last to run. -/
theorem exposes_of_departs {known : Prop} {trace : List Action} {completion : Completion}
    (around : function.Around node) (block : node.form.isBlock = true) (inside : last ∈ node.nodes)
    (unguarded : Node.guarded (tree.lineage node.id) = false)
    (departs : Departs symbol known (after last.id (frame.performs node)))
    (path : after last.id (frame.runs (function.field .body)) trace completion)
    (exposes : Exposes symbol trace) : known := by
  induction around with
  | direct isChild =>
      exact departs.andThen.exposes
        (after_function wellFormed inTree isFunction isChild block inside path) exposes
  | @through middle child around passable isChild induction =>
      have within : middle ∈ tree.nodes := Node.nodes_trans around.mem inTree
      obtain ⟨outer, slot, fitting, holds, _⟩ :=
        wellFormed.holds_of_child within isChild block passable
      rw [Node.lineage_child wellFormed.distinct within isChild,
        Node.lineage_eq_cons wellFormed.distinct within] at unguarded
      apply induction (wellFormed.isBlock_of_child within isChild block)
        (Node.nodes_of_child isChild inside)
      · rw [Node.lineage_eq_cons wellFormed.distinct within]
        exact guarded_outwards unguarded passable
      · apply (departs_resumes holds unguarded departs.andThen fun _ => departs).mono
        intro trace completion path
        obtain ⟨rest, path, reads, _⟩ := resumes_outwards (wellFormed.distinct.of_mem within)
          fitting isChild inside holds (single_of_unguarded unguarded) path
        exact ⟨rest, path, reads⟩

/-- Where the rest of a list has returned or raised, and nothing around it can act on that, nothing
more is read than in that list. -/
theorem exposes_of_stops {parent : Node} {jumping : Bool} {track : Track} {trace : List Action}
    {completion : Completion} (steady : frame.Steady symbol function)
    (around : function.Around parent) (passable : parent.form.isBarrier = false)
    (isChild : node ∈ parent.children) (block : node.form.isBlock = true)
    (inside : last ∈ node.nodes)
    (shows : Shows symbol (Node.guarded (node :: parent :: tree.ancestors parent.id)) jumping
      (after last.id (frame.performs node)) track)
    (clear : track.Clear frame symbol jumping node parent (tree.ancestors parent.id))
    (leaves : (track.leaveInto frame node parent).falls = false)
    (path : after last.id (frame.runs (function.field .body)) trace completion)
    (exposes : Exposes symbol trace) :
    symbol ∈ (track.leaveInto frame node parent).track.exposed := by
  have within : parent ∈ tree.nodes := Node.nodes_trans around.mem inTree
  have distinct := wellFormed.distinct.of_mem within
  obtain ⟨outer, slot, fitting, holds, _⟩ := wellFormed.holds_of_child within isChild block passable
  obtain ⟨isBlock, stops, ends, same⟩ := Track.leaveInto_stops passable leaves
  have regular : (jumping || parent.restJumps node ||
      Node.guarded (node :: parent :: tree.ancestors parent.id)) = false := by
    rw [Bool.eq_false_iff]
    intro early
    rcases (clear.rest early).2 with goes | none
    · rw [stops] at goes
      cases goes
    · rw [ends] at none
      cases none
  rw [Bool.or_eq_false_iff, Bool.or_eq_false_iff] at regular
  obtain ⟨⟨straight, unbroken⟩, unguarded⟩ := regular
  have asked : (node.role, Slot.statement) ∈ parent.form.slots := by
    have listed := holds.listed
    rwa [Form.slot_of_block isBlock listed] at listed
  have departs := departs_rest fitting (steady.of_mem around.mem) asked isBlock shows straight
    unbroken stops
  rw [same]
  apply exposes_of_departs wellFormed inTree isFunction around
    (wellFormed.isBlock_of_child within isChild block) (Node.nodes_of_child isChild inside) _ _
    path exposes
  · rw [Node.lineage_eq_cons wellFormed.distinct within]
    exact guarded_outwards unguarded passable
  · apply (departs_resumes holds unguarded departs fun other => ?_).mono
    · intro trace completion path
      obtain ⟨rest, path, reads, _⟩ := resumes_outwards distinct fitting isChild inside
        holds (single_of_unguarded unguarded) path
      exact ⟨rest, path, reads⟩
    · rw [isBlock] at other
      cases other

/-- The way outwards shows whatever is read after a part of the function. -/
theorem exposes_continueFrom {jumping : Bool} {track : Track} {trace : List Action}
    {completion : Completion} (steady : frame.Steady symbol function)
    (around : function.Around node) (block : node.form.isBlock = true) (inside : last ∈ node.nodes)
    (shows : Shows symbol (Node.guarded (tree.lineage node.id)) jumping
      (after last.id (frame.performs node)) track)
    (passable : track.Passable frame symbol jumping (tree.lineage node.id))
    (path : after last.id (frame.runs (function.field .body)) trace completion)
    (exposes : Exposes symbol trace) :
    symbol ∈ (track.continueFrom frame (tree.lineage node.id)).exposed := by
  -- The induction goes inwards, so each construct is left with whatever track its part hands over.
  induction around generalizing jumping track with
  | @direct child isChild =>
      obtain ⟨plays, asked, _⟩ := wellFormed.body_of_function inTree isChild block isFunction
      obtain ⟨outer, fitting⟩ := wellFormed.fits_of_function inTree isFunction
      have isBlock : child.role.isBlock = true := by
        rw [plays]
        rfl
      rw [Node.lineage_child wellFormed.distinct inTree isChild,
        Node.lineage_eq_cons wellFormed.distinct inTree, Track.continueFrom,
        Track.leaveInto_function track isFunction isBlock]
      exact shows.exposes_next (sound_rest fitting steady asked)
        (after_function wellFormed inTree isFunction isChild block inside path) exposes
  | @through middle child around inner isChild induction =>
      have within : middle ∈ tree.nodes := Node.nodes_trans around.mem inTree
      have distinct := wellFormed.distinct.of_mem within
      have blockMiddle := wellFormed.isBlock_of_child within isChild block
      have insideMiddle := Node.nodes_of_child isChild inside
      have steadyMiddle := steady.of_mem around.mem
      obtain ⟨outer, slot, fitting, holds, fits, code⟩ :=
        wellFormed.holds_of_child within isChild block inner
      rw [Node.lineage_child wellFormed.distinct within isChild,
        Node.lineage_eq_cons wellFormed.distinct within] at shows passable ⊢
      rw [Node.lineage_eq_cons wellFormed.distinct within] at induction
      obtain ⟨clear, onward⟩ := passable
      rw [Track.continueFrom]
      cases falls : (track.leaveInto frame child middle).falls with
      | true =>
          obtain ⟨leaving, passable⟩ := onward falls
          have genuine {how : Completion} (jump : how.isJump = true)
              (ends : (after last.id (frame.performs child)).Ends how) :
              child.jumps how = true := by
            obtain ⟨trace, before, path⟩ := ends
            exact jumps_of_performs fits code jump ⟨_, path⟩
          have single (form : middle.form = .tryStmt true) : child.role ≠ .handler :=
            clear.single (by rw [form]; rfl)
          have stepped := shows_leaveInto fitting steadyMiddle isChild holds genuine shows clear
            falls leaving
          have shows := stepped.mono fun trace completion path =>
            resumes_outwards distinct fitting isChild inside holds single path
          rw [if_pos rfl]
          exact induction blockMiddle insideMiddle shows passable
      | false =>
          rw [if_neg Bool.false_ne_true]
          exact exposes_of_stops wellFormed inTree isFunction steady around inner isChild block
            inside shows clear falls path exposes

end

/-- What follows a statement directly after it has ended. -/
theorem shows_start {guarded : Bool} (fitting : last.fits .statement = true)
    (distinct : last.Distinct) :
    Shows symbol guarded false (after last.id (frame.performs last)) {} := by
  have nothing {trace : List Action} {completion : Completion}
      (path : after last.id (frame.performs last) trace completion) :
      trace = [] ∧ completion = .normal := by
    rw [performs_of_fits fitting] at path
    exact after_self distinct path
  constructor
  · intro trace completion path exposes
    obtain ⟨rfl, _⟩ := nothing path
    exact absurd exposes Exposes.not_nil
  · intro trace completion path _ _
    exact List.not_mem_nil
  · intro how jump ends
    obtain ⟨trace, path⟩ := ends
    obtain ⟨_, rfl⟩ := nothing path
    cases jump

end Frame

namespace Model

theorem wayOut_of_fits {path : String} {tree last : Node} {model : Model}
    (settles : model.Settles path tree) (distinct : tree.Distinct) (inside : last ∈ tree.nodes)
    (fitting : last.fits .statement = true) : model.wayOut last = tree.lineage last.id := by
  have isStatement : last.isStatement = true := Node.admits_of_fits fitting
  rw [wayOut, settles.source, Node.lineage_eq_cons distinct inside]
  simp [isStatement]

theorem mem_liveOut {model : Model} {tracked written : SymbolSet} {last : Node}
    {inside : List NodeId} {symbol : Symbol} (recorded : symbol ∈ written)
    (exposed : symbol ∈
      (Track.continueFrom (Frame.ofModel model tracked) (model.wayOut last) {}).exposed) :
    symbol ∈ model.liveOut tracked written last inside := by
  have some : written.isEmpty = false := by
    cases written with
    | nil => cases recorded
    | cons other others => rfl
  unfold liveOut
  rw [if_neg (by simp [some])]
  exact List.mem_filter.mpr ⟨recorded, by simp [exposed]⟩

/-- Live-out is sound: a followed symbol that some path of a function writes in a region and reads
after it, before writing it again, is live after the region if the way outwards does justice to
it. -/
theorem liveOut_of_path {path : String} {tree : Node} {model : Model} (wellFormed : tree.WellFormed)
    (built : build path tree = .ok model) {function parent first last : Node} {role : Role}
    {rest : List Node} (inTree : function ∈ tree.nodes)
    (isFunction : function.form.isFunction = true)
    (siblings : tree.Siblings parent role (first :: rest))
    (around : ∀ statement ∈ first :: rest, function.Around statement)
    (isLast : (first :: rest).getLast? = some last)
    {symbol : Symbol} (tracked : symbol ∈ model.trackedSymbols (model.scopeOf first))
    (followable : model.Followable (model.trackedSymbols (model.scopeOf first)) function)
    (passable : Track.Passable
      (Frame.ofModel model (model.trackedSymbols (model.scopeOf first))) symbol false
      (model.wayOut last) {})
    {before pass after : List Action} {completion : Completion}
    (passes : (Frame.ofModel model (model.trackedSymbols (model.scopeOf first))).runs
      (first :: rest) pass .normal)
    (runs : (Frame.ofModel model (model.trackedSymbols (model.scopeOf first))).runs
      (function.field .body) (before ++ pass ++ after) completion)
    (written : .writes symbol ∈ pass) (reads : Exposes symbol after) :
    ∃ flow, model.regionFlow? (first :: rest) = .ok flow ∧ symbol ∈ flow.liveOut := by
  have settles := settles_of_build built
  have fitting : ∀ statement ∈ first :: rest, statement.fits .statement = true :=
    fun statement member => siblings.fits wellFormed member
  have firstFits := fitting first List.mem_cons_self
  have firstBlock := Node.isBlock_of_fits firstFits
  have firstInside := siblings.mem List.mem_cons_self
  have lastMember := List.mem_of_getLast? isLast
  have lastFits := fitting last lastMember
  have lastInside := siblings.mem lastMember
  have steady := Followable.steady settles wellFormed firstInside firstBlock tracked
    inTree followable
  have recorded := (Frame.visits_runs fitting fun statement member =>
    steady.of_mem (around statement member).mem).records passes written {}
  obtain ⟨earlier, rfl⟩ := Frame.ends_of_runs passes
  obtain rfl : (first :: rest).getLast (List.cons_ne_nil _ _) = last := by
    rw [List.getLast?_eq_some_getLast (List.cons_ne_nil _ _)] at isLast
    exact Option.some.inj isLast
  rw [wayOut_of_fits settles wellFormed.distinct lastInside lastFits] at passable
  have left : Paths.after ((first :: rest).getLast (List.cons_ne_nil _ _)).id
      ((Frame.ofModel model (model.trackedSymbols (model.scopeOf first))).runs
        (function.field .body)) after completion :=
    ⟨before ++ earlier, by simpa using runs⟩
  have exposed := Frame.exposes_continueFrom wellFormed inTree isFunction steady
    (around _ lastMember) (Node.isBlock_of_fits lastFits) (Node.self_mem_nodes _)
    (Frame.shows_start lastFits (wellFormed.distinct.of_mem lastInside)) passable left reads
  rw [← wayOut_of_fits settles wellFormed.distinct lastInside lastFits] at exposed
  refine ⟨model.flowOf first rest, regionFlow?_of_fits firstFits, ?_⟩
  exact mem_liveOut recorded exposed

/-- The assignment `x = 1` in a `try`. -/
def attempting : Node :=
  .mk .assign ⟨4, .body, some ⟨⟨3, 8⟩, ⟨3, 13⟩⟩⟩ [
    .mk (.name "x" .store) ⟨5, .target, some ⟨⟨3, 8⟩, ⟨3, 9⟩⟩⟩ [],
    .mk (.constant .int "1") ⟨6, .value, some ⟨⟨3, 12⟩, ⟨3, 13⟩⟩⟩ []]

def leaving (step : Form) : Node :=
  .mk step ⟨7, .body, some ⟨⟨4, 8⟩, ⟨4, 14⟩⟩⟩ []

def reporting : Node :=
  .mk .exprStmt ⟨8, .finalbody, some ⟨⟨6, 8⟩, ⟨6, 9⟩⟩⟩ [
    .mk (.name "x" .load) ⟨9, .value, some ⟨⟨6, 8⟩, ⟨6, 9⟩⟩⟩ []]

/-- A `try` whose `finally` reads what its body assigns. -/
def guarding (step : Form) : Node :=
  .mk (.tryStmt false) ⟨3, .body, some ⟨⟨2, 4⟩, ⟨6, 9⟩⟩⟩ [attempting, leaving step, reporting]

def recovering (step : Form) : Node :=
  .mk (.functionDef false "f" none) ⟨1, .body, some ⟨⟨1, 0⟩, ⟨6, 9⟩⟩⟩ [
    .mk (.parameters []) ⟨2, .parameters, none⟩ [], guarding step]

def recoveryModule (step : Form) : Node :=
  .mk .module ⟨0, .root, none⟩ [recovering step]

section

variable {frame : Frame} {symbol : Symbol}
  (target : frame.occurrence
    (.mk (.name "x" .store) ⟨5, .target, some ⟨⟨3, 8⟩, ⟨3, 9⟩⟩⟩ []) = some symbol)

include target

private theorem executes_attempting :
    frame.executes attempting [.begins 4, .writes symbol, .ends 4] .normal := by
  have marks (action : Action) : Paths.act action [action] .normal := ⟨rfl, rfl⟩
  have value : Paths.inOrder
      [frame.evaluates (.mk (.constant .int "1") ⟨6, .value, some ⟨⟨3, 12⟩, ⟨3, 13⟩⟩⟩ [])]
      [] .normal := by
    apply Paths.inOrder_singleton
    exact Paths.andThen.goesOn (show Paths.done [] .normal from ⟨rfl, rfl⟩) (Or.inl ⟨rfl, rfl⟩)
  have assigned := Paths.andThen.goesOn value (Frame.evaluates_store target)
  exact .goesOn (marks (.begins 4)) (.goesOn assigned (marks (.ends 4)))

private theorem runs_recovering {step : Form} {trace : List Action} {how : Completion}
    (value : frame.occurrence
      (.mk (.name "x" .load) ⟨9, .value, some ⟨⟨6, 8⟩, ⟨6, 9⟩⟩⟩ []) = some symbol)
    (left : frame.executes (leaving step) trace how) (unraised : how ≠ .raised) :
    ∃ later : List Action, frame.runs ((recovering step).field .body)
      ([Action.begins 3] ++ [Action.begins 4, .writes symbol, .ends 4] ++
        (trace ++ Action.begins 8 :: .reads symbol :: later)) how := by
  have marks (action : Action) : Paths.act action [action] .normal := ⟨rfl, rfl⟩
  have body : frame.executesRole .body (guarding step).children
      ([.begins 4, .writes symbol, .ends 4] ++ trace) how :=
    .goesOn (executes_attempting target) (Paths.inOrder_singleton left)
  have reports : frame.executesRole .finalbody (guarding step).children
      [.begins 8, .reads symbol, .ends 8] .normal := by
    apply Paths.inOrder_singleton
    exact .goesOn (marks (.begins 8)) (.goesOn (Frame.evaluates_load value) (marks (.ends 8)))
  have tried : Paths.rescued (frame.executesRole .body (guarding step).children)
      (frame.executesRole .orelse (guarding step).children)
      (frame.handles false (guarding step).children)
      ([.begins 4, .writes symbol, .ends 4] ++ trace) how := by
    by_cases normal : how = .normal
    · subst normal
      rw [← List.append_nil trace, ← List.append_assoc]
      exact .completes body ⟨rfl, rfl⟩
    · exact .leaves body normal unraised
  have closed := Paths.finished.resumes tried reports
  by_cases normal : how = .normal
  · subst normal
    have whole : frame.executes (guarding step) _ .normal :=
      .goesOn (marks (.begins 3)) (.goesOn closed (marks (.ends 3)))
    refine ⟨[.ends 8, .ends 3], Paths.inOrder_singleton ?_⟩
    simpa using whole
  · have whole : frame.executes (guarding step) _ how :=
      .goesOn (marks (.begins 3)) (.stops closed normal)
    refine ⟨[.ends 8], Paths.inOrder_singleton ?_⟩
    simpa using whole

end

/-- What the `try` assigns is live after the assignment if the `try` goes on to its end. -/
theorem liveOut_of_path_finally :
    ∃ model, build "m.py" (recoveryModule .passStmt) = .ok model ∧
      ∃ flow, model.regionFlow? [attempting] = .ok flow ∧
        ∃ symbol ∈ flow.liveOut, symbol.name = "x" := by
  have checked : (build "m.py" (recoveryModule .passStmt)).toOption.any (fun model =>
      let tracked := model.trackedSymbols (model.scopeOf attempting)
      let frame := Frame.ofModel model tracked
      decide (model.Followable tracked (recovering .passStmt)) &&
      (frame.occurrence (.mk (.name "x" .store) ⟨5, .target, some ⟨⟨3, 8⟩, ⟨3, 9⟩⟩⟩ [])).any
        fun symbol => symbol.name = "x" &&
          decide (Track.Passable frame symbol false (model.wayOut attempting) {}) &&
          frame.occurrence (.mk (.name "x" .load) ⟨9, .value, some ⟨⟨6, 8⟩, ⟨6, 9⟩⟩⟩ []) =
            some symbol) = true := by cbv
  obtain ⟨model, built, known⟩ := exists_of_check checked
  simp only [Bool.and_eq_true, decide_eq_true_eq, Option.any_eq_true] at known
  obtain ⟨followable, symbol, target, ⟨name, passable⟩, value⟩ := known
  have inTree : recovering .passStmt ∈ (recoveryModule .passStmt).nodes :=
    Node.child_mem_nodes List.mem_cons_self
  have isChild : guarding .passStmt ∈ (recovering .passStmt).children := by simp [recovering]
  have siblings : (recoveryModule .passStmt).Siblings (guarding .passStmt) .body [attempting] :=
    ⟨Node.nodes_trans (Node.child_mem_nodes isChild) inTree, rfl, ⟨[], _, rfl⟩⟩
  have around : ∀ statement ∈ [attempting], (recovering .passStmt).Around statement := by
    intro statement member
    rw [List.mem_singleton.mp member]
    exact .through (.direct isChild) rfl List.mem_cons_self
  have marks (action : Action) : Paths.act action [action] .normal := ⟨rfl, rfl⟩
  have nothing : Paths.inOrder [] [] .normal := ⟨rfl, rfl⟩
  have passes : (Frame.ofModel model (model.trackedSymbols (model.scopeOf attempting))).executes
      (leaving .passStmt) [.begins 7, .ends 7] .normal :=
    .goesOn (marks (.begins 7)) (.goesOn nothing (marks (.ends 7)))
  obtain ⟨later, runs⟩ := runs_recovering target value passes (by decide)
  have reads : Exposes symbol ([.begins 7, .ends 7] ++ .begins 8 :: .reads symbol :: later) :=
    ⟨[.begins 7, .ends 7, .begins 8], later, rfl, by simp⟩
  have tracked := of_decide_eq_true (Option.filter_eq_some_iff.mp target).2
  obtain ⟨flow, ok, live⟩ := liveOut_of_path ⟨by decide, by decide⟩ built inTree rfl siblings around
    rfl tracked followable passable (Paths.inOrder_singleton (executes_attempting target)) runs
    (by simp) reads
  exact ⟨model, built, flow, ok, symbol, live, name⟩

/-- After a `return` the `finally` runs and reads what was assigned, but it is not followed. -/
theorem return_hides_finally :
    ∃ model, build "m.py" (recoveryModule .returnStmt) = .ok model ∧
      ∃ flow, model.regionFlow? [attempting] = .ok flow ∧
        ∃ symbol ∈ model.trackedSymbols (model.scopeOf attempting), ∃ before pass after completion,
          (Frame.ofModel model (model.trackedSymbols (model.scopeOf attempting))).runs
            [attempting] pass .normal ∧
          (Frame.ofModel model (model.trackedSymbols (model.scopeOf attempting))).runs
            ((recovering .returnStmt).field .body) (before ++ pass ++ after) completion ∧
          .writes symbol ∈ pass ∧ Exposes symbol after ∧ symbol ∉ flow.liveOut := by
  have checked : (build "m.py" (recoveryModule .returnStmt)).toOption.any (fun model =>
      let frame := Frame.ofModel model (model.trackedSymbols (model.scopeOf attempting))
      decide ((model.flowOf attempting []).liveOut = []) &&
      (frame.occurrence (.mk (.name "x" .store) ⟨5, .target, some ⟨⟨3, 8⟩, ⟨3, 9⟩⟩⟩ [])).any
        fun symbol =>
          frame.occurrence (.mk (.name "x" .load) ⟨9, .value, some ⟨⟨6, 8⟩, ⟨6, 9⟩⟩⟩ []) =
            some symbol) = true := by cbv
  obtain ⟨model, built, known⟩ := exists_of_check checked
  simp only [Bool.and_eq_true, decide_eq_true_eq, Option.any_eq_true] at known
  obtain ⟨dead, symbol, target, value⟩ := known
  have marked : Paths.act (.begins 7) [.begins 7] .normal := ⟨rfl, rfl⟩
  have nothing : Paths.inOrder [] [] .normal := ⟨rfl, rfl⟩
  have stops : Paths.stop .returned [] .returned := ⟨rfl, rfl⟩
  have returns : (Frame.ofModel model (model.trackedSymbols (model.scopeOf attempting))).executes
      (leaving .returnStmt) [.begins 7] .returned :=
    .goesOn marked (.stops (.goesOn nothing stops) (by decide))
  obtain ⟨later, runs⟩ := runs_recovering target value returns (by decide)
  have reads : Exposes symbol ([.begins 7] ++ .begins 8 :: .reads symbol :: later) :=
    ⟨[.begins 7, .begins 8], later, rfl, by simp⟩
  have tracked := of_decide_eq_true (Option.filter_eq_some_iff.mp target).2
  refine ⟨model, built, _, regionFlow?_of_fits (by decide), symbol, tracked, _, _, _, _,
    Paths.inOrder_singleton (executes_attempting target), runs, by simp, reads, ?_⟩
  rw [dead]
  exact List.not_mem_nil

end Model

end SafeRefactor
