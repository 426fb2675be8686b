import SafeRefactor.Flow.Continuation
import SafeRefactor.Proofs.Aftermath
import SafeRefactor.Proofs.Execution
import SafeRefactor.Proofs.Lineage

/-!
# Following the way outwards

The continuation of a statement is followed with one track, list by list, as if each
list were left at its end.  A path may leave it earlier: by a jump to a loop around, or
by an exception or a `return` where a `try` around still acts.  Following the way is
sound for a symbol as long as no code that can be left early counts as assigning the
symbol or as the end of the way.

`Track.Passable` says so of every step of a way.  The other conditions of a step are on
code that is not followed at all: the target of a loop, the types of handlers, and the
handlers after one for exception groups.
-/

namespace SafeRefactor

/-- Whether code of the function can still run when control is left so, given whether a `try`
around acts on exceptions. -/
def Completion.counts (guarded : Bool) : Completion → Bool
  | .returned | .raised => guarded
  | _ => true

/-- Whether a construct is a `try` with handlers for exception groups. -/
def Form.isGroup : Form → Bool
  | .tryStmt isGroup => isGroup
  | _ => false

private theorem Form.not_isLoop_of_isTry {form : Form} (isTry : form.isTry = true) :
    form.isLoop = false := by
  cases form with
  | tryStmt isGroup => rfl
  | _ => cases isTry

namespace Node

/-- Whether a node can be left by a `break` or a `continue` in it. -/
def canJump (node : Node) : Bool :=
  node.jumps .broken || node.jumps .continued

theorem canJump_of_jumps {node : Node} {how : Completion} (jump : how.isJump = true)
    (jumps : node.jumps how = true) : node.canJump = true := by
  unfold canJump
  cases how with
  | broken => rw [jumps, Bool.true_or]
  | continued => rw [jumps, Bool.or_true]
  | _ => cases jump

/-- Whether a `try` still acts when an exception leaves one of its children. -/
def catches (parent node : Node) : Bool :=
  parent.form.isTry &&
    ((node.role = .body && !(parent.field .handler).isEmpty) ||
      (node.role = .handler && parent.form.isGroup) ||
      (node.role != .finalbody && !(parent.field .finalbody).isEmpty))

/-- Whether a `try` on the way outwards, within the function, acts on exceptions. -/
def guarded : List Node → Bool
  | node :: parent :: way =>
      parent.catches node || (!parent.form.isBarrier && guarded (parent :: way))
  | _ => false

/-- Whether the rest of the list that a node belongs to can be left by a jump. -/
def restJumps (parent node : Node) : Bool :=
  node.role.isBlock && (parent.followers node).any canJump

/-- Whether another part of a construct can be left by a jump. -/
def otherJumps (parent node : Node) : Bool :=
  parent.children.any fun other => other.role != node.role && other.canJump

/-- Whether a construct can be left by a jump after a part of a child of it, given whether the
child can. -/
def jumpsAfter (jumping : Bool) (parent node : Node) : Bool :=
  if parent.form.isLoop && node.role = .body then (parent.field .orelse).any canJump
  else
    jumping || parent.restJumps node || (parent.form.isTry && parent.otherJumps node)

end Node

namespace Track

/-- Follows the rest of the list that a node belongs to. -/
def followRest (frame : Frame) (parent node : Node) (track : Track) : Outcome :=
  track.executeRole frame node.role (parent.followers node)

/-- Follows what a construct still does after a list in it that a node belongs to. -/
def followConstruct (frame : Frame) (parent node : Node) (track : Track) : Track :=
  if parent.form.isLoop && node.role = .body then track.nextRound frame parent
  else if parent.form.isTry then track.afterTried frame node.role parent
  else track

/-- A step outwards does justice to a symbol. -/
structure Clear (frame : Frame) (symbol : Symbol) (jumping : Bool) (node parent : Node)
    (way : List Node) (track : Track) : Prop where
  /-- The rest of a list that can be left early neither assigns the symbol nor ends the way. -/
  rest : (jumping || parent.restJumps node || Node.guarded (node :: parent :: way)) = true →
    symbol ∉ (track.followRest frame parent node).track.assigned ∧
      ((track.followRest frame parent node).falls = true ∨
        (parent.followers node).any endsFunction = false)
  /-- The target of a loop does not read the symbol. -/
  target : parent.form.isLoop = true →
    symbol ∉ (({} : Track).evaluateRole frame .target parent.children).exposed
  /-- The types of handlers do not read the symbol. -/
  caught : parent.form.isTry = true → ∀ handler ∈ parent.field .handler,
    symbol ∉ (({} : Track).evaluateRole frame .caught handler.children).exposed
  /-- The `else` of a `try` does not assign the symbol for those who come from its body. -/
  orelse : parent.form.isTry = true → node.role = .body →
    symbol ∉ (((track.followRest frame parent node).track.visitHandlerBodies frame
      (parent.field .handler)).executeRole frame .orelse parent.children).track.assigned
  /-- No handler for exception groups comes later. -/
  single : parent.form.isGroup = true → node.role ≠ .handler

/-- Every step outwards does justice to a symbol, and what can be left early does not assign
it. -/
def Passable (frame : Frame) (symbol : Symbol) : Bool → List Node → Track → Prop
  | jumping, node :: parent :: way, track =>
      track.Clear frame symbol jumping node parent way ∧
        ((track.leaveInto frame node parent).falls = true →
          ((parent.jumpsAfter jumping node || Node.guarded (parent :: way)) = true →
            symbol ∉ (track.leaveInto frame node parent).track.assigned) ∧
          Passable frame symbol (parent.jumpsAfter jumping node) (parent :: way)
            (track.leaveInto frame node parent).track)
  | _, _, _ => True

instance (frame : Frame) (symbol : Symbol) (jumping : Bool) (node parent : Node) (way : List Node)
    (track : Track) : Decidable (track.Clear frame symbol jumping node parent way) :=
  decidable_of_iff
    (((jumping || parent.restJumps node || Node.guarded (node :: parent :: way)) = true →
        symbol ∉ (track.followRest frame parent node).track.assigned ∧
          ((track.followRest frame parent node).falls = true ∨
            (parent.followers node).any endsFunction = false)) ∧
      (parent.form.isLoop = true →
        symbol ∉ (({} : Track).evaluateRole frame .target parent.children).exposed) ∧
      (parent.form.isTry = true → ∀ handler ∈ parent.field .handler,
        symbol ∉ (({} : Track).evaluateRole frame .caught handler.children).exposed) ∧
      (parent.form.isTry = true → node.role = .body →
        symbol ∉ (((track.followRest frame parent node).track.visitHandlerBodies frame
          (parent.field .handler)).executeRole frame .orelse parent.children).track.assigned) ∧
      (parent.form.isGroup = true → node.role ≠ .handler))
    ⟨fun ⟨rest, target, caught, orelse, single⟩ => ⟨rest, target, caught, orelse, single⟩,
      fun ⟨rest, target, caught, orelse, single⟩ => ⟨rest, target, caught, orelse, single⟩⟩

/-- Whether every step outwards does justice to a symbol can be computed. -/
def Passable.decide (frame : Frame) (symbol : Symbol) :
    (jumping : Bool) → (way : List Node) → (track : Track) →
      Decidable (track.Passable frame symbol jumping way)
  | jumping, node :: parent :: way, track =>
      have := Passable.decide frame symbol (parent.jumpsAfter jumping node) (parent :: way)
        (track.leaveInto frame node parent).track
      inferInstanceAs (Decidable (_ ∧ (_ → _ ∧ _)))
  | _, [], _ => .isTrue trivial
  | _, [_], _ => .isTrue trivial

instance (frame : Frame) (symbol : Symbol) (jumping : Bool) (way : List Node) (track : Track) :
    Decidable (track.Passable frame symbol jumping way) :=
  Passable.decide frame symbol jumping way track

end Track

/-- A track shows what the paths so far read before writing it, and takes the symbol for assigned
only if every path has written it after which code of the function can still run. -/
structure Shows (symbol : Symbol) (guarded jumping : Bool) (paths : Paths) (track : Track) :
    Prop where
  exposes : ∀ {trace completion}, paths trace completion → Exposes symbol trace →
    symbol ∈ track.exposed
  keeps : ∀ {trace completion}, paths trace completion → completion.counts guarded = true →
    .writes symbol ∉ trace → symbol ∉ track.assigned
  jumps : ∀ {how}, how.isJump = true → paths.Ends how → jumping = true

namespace Shows

open Paths

variable {symbol : Symbol} {guarded jumping outside further : Bool} {paths second : Paths}
  {track : Track} {walk : Track → Outcome}

/-- Where code can be left early the symbol must not count as assigned, so only the regular ends
of the paths are left to look at. -/
theorem of_normal {final : Track}
    (exposes : ∀ {trace completion}, paths trace completion → Exposes symbol trace →
      symbol ∈ final.exposed)
    (keeps : ∀ {trace}, paths trace .normal → .writes symbol ∉ trace → symbol ∉ final.assigned)
    (jumps : ∀ {how}, how.isJump = true → paths.Ends how → further = true)
    (leaving : (further || outside) = true → symbol ∉ final.assigned) :
    Shows symbol outside further paths final where
  exposes := exposes
  keeps path counts unwritten := by
    rename_i trace completion
    cases completion with
    | normal => exact keeps path unwritten
    | broken => exact leaving (by rw [jumps rfl ⟨_, path⟩, Bool.true_or])
    | continued => exact leaving (by rw [jumps rfl ⟨_, path⟩, Bool.true_or])
    | returned => exact leaving (by rw [show outside = true from counts, Bool.or_true])
    | raised => exact leaving (by rw [show outside = true from counts, Bool.or_true])
  jumps := jumps

theorem mono (shows : Shows symbol guarded jumping paths track)
    (fewer : ∀ trace completion, second trace completion →
      ∃ rest, paths rest completion ∧ (Exposes symbol trace → Exposes symbol rest) ∧
        (.writes symbol ∈ rest → .writes symbol ∈ trace)) :
    Shows symbol guarded jumping second track where
  exposes path exposes := by
    obtain ⟨rest, path, reads, _⟩ := fewer _ _ path
    exact shows.exposes path (reads exposes)
  keeps path counts unwritten := by
    obtain ⟨rest, path, _, writes⟩ := fewer _ _ path
    exact shows.keeps path counts fun written => unwritten (writes written)
  jumps jump ends := by
    obtain ⟨trace, path⟩ := ends
    obtain ⟨rest, path, _⟩ := fewer _ _ path
    exact shows.jumps jump ⟨rest, path⟩

/-- What is read before it is written on paths through the code that comes next. -/
theorem exposes_next {trace : List Action} {completion : Completion}
    (shows : Shows symbol guarded jumping paths track) (next : Sound symbol second walk)
    (path : paths.andThen second trace completion) (exposes : Exposes symbol trace) :
    symbol ∈ (walk track).track.exposed := by
  cases path with
  | stops path _ => exact (next.grows track).exposed _ (shows.exposes path exposes)
  | goesOn path later =>
      rcases exposes.of_append with exposes | ⟨unwritten, exposes⟩
      · exact (next.grows track).exposed _ (shows.exposes path exposes)
      · exact next.exposes later exposes track (shows.keeps path rfl unwritten)

theorem andThen (shows : Shows symbol guarded jumping paths track) (next : Sound symbol second walk)
    (own : ∀ {how}, how.isJump = true → second.Ends how → further = true)
    (rest : (jumping || further || guarded) = true → symbol ∉ (walk track).track.assigned) :
    Shows symbol guarded (jumping || further) (paths.andThen second) (walk track).track := by
  apply of_normal
  · intro trace completion path exposes
    exact shows.exposes_next next path exposes
  · intro trace path unwritten
    obtain ⟨_, _, rfl, path, later⟩ := path.of_normal
    rw [List.mem_append, not_or] at unwritten
    exact next.keeps later unwritten.2 track (shows.keeps path rfl unwritten.1)
  · intro how jump ends
    rcases ends_andThen ends with ⟨ends, _⟩ | ends
    · rw [shows.jumps jump ends, Bool.true_or]
    · rw [own jump ends, Bool.or_true]
  · exact rest

theorem managed (shows : Shows symbol guarded jumping paths track) :
    Shows symbol guarded jumping (managed paths) track where
  exposes path exposes := by
    obtain ⟨how, path, _⟩ := path
    exact shows.exposes path exposes
  keeps path counts unwritten := by
    obtain ⟨how, path, same⟩ := path
    refine shows.keeps path ?_ unwritten
    rcases same with same | same
    · rw [← same]
      exact counts
    · rw [same] at counts
      cases how with
      | returned | raised => exact counts
      | _ => rfl
  jumps jump ends := shows.jumps jump (ends_managed jump ends)

theorem closes {inner : Paths} (shows : Shows symbol guarded jumping paths track)
    (pending : ∀ {how}, how.isJump = true → inner.Ends how → further = true)
    (same : guarded = outside) :
    Shows symbol outside (jumping || further) (closes inner paths) track where
  exposes path exposes := by
    obtain ⟨own, path, _⟩ := path
    exact shows.exposes path exposes
  keeps path counts unwritten := by
    obtain ⟨own, path, ⟨normal, _⟩ | ended⟩ := path
    · exact shows.keeps path (by rw [normal]; rfl) unwritten
    · exact shows.keeps path (by rw [same, ended]; exact counts) unwritten
  jumps jump ends := by
    obtain ⟨trace, own, path, ⟨_, ends⟩ | ended⟩ := ends
    · rw [pending jump ends, Bool.or_true]
    · rw [shows.jumps jump ⟨trace, ended ▸ path⟩, Bool.true_or]

theorem finished {last : Paths} (shows : Shows symbol guarded jumping paths track)
    (final : Sound symbol last walk)
    (acts : guarded = true ∨ ∀ trace completion, last trace completion → trace = [])
    (before : jumping = true → further = true)
    (own : ∀ {how}, how.isJump = true → last.Ends how → further = true)
    (leaving : (further || outside) = true → symbol ∉ (walk track).track.assigned) :
    Shows symbol outside further (finished paths last) (walk track).track := by
  have whole {trace rest : List Action} {how completion : Completion} (path : paths trace how)
      (later : last rest completion) (exposes : Exposes symbol (trace ++ rest)) :
      symbol ∈ (walk track).track.exposed := by
    rcases exposes.of_append with exposes | ⟨unwritten, exposes⟩
    · exact (final.grows track).exposed _ (shows.exposes path exposes)
    · rcases acts with acts | empty
      · have counts : how.counts guarded = true := by
          rw [acts]
          cases how <;> rfl
        exact final.exposes later exposes track (shows.keeps path counts unwritten)
      · rw [empty _ _ later] at exposes
        exact absurd exposes Exposes.not_nil
  apply of_normal
  · intro trace completion path exposes
    cases path with
    | resumes path later => exact whole path later exposes
    | overrides path later _ => exact whole path later exposes
  · intro trace path unwritten
    cases path with
    | resumes path later =>
        rw [List.mem_append, not_or] at unwritten
        exact final.keeps later unwritten.2 track (shows.keeps path rfl unwritten.1)
    | overrides _ _ early => exact absurd rfl early
  · intro how jump ends
    rcases ends_finished ends with ends | ends
    · exact before (shows.jumps jump ends)
    · exact own jump ends
  · exact leaving

theorem rescued {orelse rescue : Paths} {visit : Track → Track}
    (shows : Shows symbol guarded jumping paths track) (handlers : Reveals symbol rescue visit)
    (kept : (visit track).assigned = track.assigned) (ending : Sound symbol orelse walk)
    (acts : guarded = true ∨ ∀ trace completion, rescue trace completion → trace = [])
    (own : ∀ {how}, how.isJump = true → orelse.Ends how ∨ rescue.Ends how → further = true)
    (leaving : symbol ∉ (walk (visit track)).track.assigned) :
    Shows symbol true (jumping || further) (rescued paths orelse rescue)
      (walk (visit track)).track := by
  have grows := (handlers.grows track).trans (ending.grows (visit track))
  apply of_normal
  · intro trace completion path exposes
    cases path with
    | completes path later =>
        rcases exposes.of_append with exposes | ⟨unwritten, exposes⟩
        · exact grows.exposed _ (shows.exposes path exposes)
        · apply ending.exposes later exposes
          rw [kept]
          exact shows.keeps path rfl unwritten
    | rescues path later =>
        rcases exposes.of_append with exposes | ⟨unwritten, exposes⟩
        · exact grows.exposed _ (shows.exposes path exposes)
        · rcases acts with acts | empty
          · have unassigned := shows.keeps path (by rw [acts]; rfl) unwritten
            exact (ending.grows (visit track)).exposed _
              (handlers.exposes later exposes track unassigned)
          · rw [empty _ _ later] at exposes
            exact absurd exposes Exposes.not_nil
    | leaves path _ _ => exact grows.exposed _ (shows.exposes path exposes)
  · intro trace _ _
    exact leaving
  · intro how jump ends
    rcases ends_rescued ends with ends | ends
    · rw [shows.jumps jump ends, Bool.true_or]
    · rw [own jump ends, Bool.or_true]
  · intro _
    exact leaving

theorem unassigned_of_goes (shows : Shows symbol guarded jumping paths track)
    {trace : List Action} {how : Completion} (path : paths trace how)
    (goes : how = .normal ∨ how = .continued) (unwritten : .writes symbol ∉ trace) :
    symbol ∉ track.assigned := by
  rcases goes with rfl | rfl
  · exact shows.keeps path rfl unwritten
  · exact shows.keeps path rfl unwritten

/-- What is read before it is written in the further rounds of a loop and at its regular end. -/
theorem exposes_rejoins {test body orelse : Paths} {step visit : Track → Track}
    {trace : List Action} {completion : Completion}
    (shows : Shows symbol guarded jumping paths track)
    (tests : Sound symbol test (fun track => .next (step track)))
    (rounds : Reveals symbol body visit) (ending : Sound symbol orelse walk)
    (path : Paths.rejoins paths (loop test body orelse) trace completion)
    (exposes : Exposes symbol trace) :
    symbol ∈ (walk ((visit (step track)).within track.assigned)).track.exposed := by
  have growsEnd : (visit (step track)).Extends
      (walk ((visit (step track)).within track.assigned)).track :=
    (ending.grows _).ofWithin
  have growsTest := (rounds.grows (step track)).trans growsEnd
  have grows := (tests.grows track).trans growsTest
  cases path with
  | breaks path => exact grows.exposed _ (shows.exposes path exposes)
  | leaves path _ => exact grows.exposed _ (shows.exposes path exposes)
  | again path goes later =>
      rcases exposes.of_append with exposes | ⟨unwritten, exposes⟩
      · exact grows.exposed _ (shows.exposes path exposes)
      · have unassigned := shows.unassigned_of_goes path goes unwritten
        rcases exposes_loop later exposes with
          ⟨early, how, path, exposes⟩ | ⟨early, path, unwritten, late, how, later, exposes⟩
        · exact growsTest.exposed _ (tests.exposes path exposes track unassigned)
        · rcases later with later | later
          · have still := tests.keeps path unwritten track unassigned
            exact growsEnd.exposed _ (rounds.exposes later exposes (step track) still)
          · exact ending.exposes later exposes _ unassigned

theorem rejoins {test body orelse : Paths} {step visit : Track → Track}
    (shows : Shows symbol guarded jumping paths track)
    (tests : Sound symbol test (fun track => .next (step track))) (calm : test.Calm)
    (rounds : Reveals symbol body visit) (ending : Sound symbol orelse walk)
    (regular : (¬ paths.Ends .broken ∧ ¬ body.Ends .broken) ∨ ∀ track, walk track = .next track)
    (own : ∀ {how}, how.isJump = true → orelse.Ends how → further = true)
    (leaving : (further || outside) = true →
      symbol ∉ (walk ((visit (step track)).within track.assigned)).track.assigned) :
    Shows symbol outside further (rejoins paths (loop test body orelse))
      (walk ((visit (step track)).within track.assigned)).track := by
  -- A loop that has an `else` is not left by `break`, so after it nothing more is assigned.
  have skipped (ends : paths.Ends .broken ∨ body.Ends .broken)
      (unassigned : symbol ∉ track.assigned) :
      symbol ∉ (walk ((visit (step track)).within track.assigned)).track.assigned := by
    rcases regular with ⟨first, second⟩ | skips
    · exact absurd ends (not_or.mpr ⟨first, second⟩)
    · rw [skips]
      exact unassigned
  apply of_normal
  · intro trace completion path exposes
    exact shows.exposes_rejoins tests rounds ending path exposes
  · intro trace path unwritten
    generalize normal : Completion.normal = completion at path
    cases path with
    | breaks path => exact skipped (Or.inl ⟨_, path⟩) (shows.keeps path rfl unwritten)
    | leaves _ left =>
        subst normal
        rcases left with left | left
        · cases left
        · cases left
    | again path goes later =>
        subst normal
        rw [List.mem_append, not_or] at unwritten
        have unassigned := shows.unassigned_of_goes path goes unwritten.1
        obtain ⟨early, late, _, inLate, path, later⟩ := normal_of_loop later
        rcases later with later | later
        · exact ending.keeps later (fun written => unwritten.2 (inLate written)) _ unassigned
        · exact skipped (Or.inr ⟨_, later⟩) unassigned
  · intro how jump ends
    obtain ⟨trace, path⟩ := ends
    cases path with
    | breaks _ => cases jump
    | leaves _ left =>
        rcases left with rfl | rfl
        · cases jump
        · cases jump
    | again _ _ later => exact own jump (ends_loop calm jump ⟨_, later⟩)
  · exact leaving

end Shows

namespace Reveals

variable {symbol : Symbol} {first second : Paths} {walk : Track → Track}

theorem optional (reveals : Reveals symbol second walk) :
    Reveals symbol (Paths.optional second) walk where
  grows := reveals.grows
  exposes path exposes := by
    rcases path with ⟨rfl, _⟩ | path
    · exact absurd exposes Exposes.not_nil
    · exact reveals.exposes path exposes

/-- Code that is not followed because it does not read the symbol. -/
theorem behind (unread : ∀ {trace completion}, first trace completion → ¬ Exposes symbol trace)
    (reveals : Reveals symbol second walk) : Reveals symbol (first.andThen second) walk where
  grows := reveals.grows
  exposes path exposes := by
    cases path with
    | stops early _ => exact absurd exposes (unread early)
    | goesOn early later =>
        rcases exposes.of_append with exposes | ⟨_, exposes⟩
        · exact absurd exposes (unread early)
        · exact reveals.exposes later exposes

end Reveals

/-- What following an expression from nothing does not expose is never read before written. -/
theorem Sound.unread {symbol : Symbol} {paths : Paths} {walk : Track → Outcome}
    (sound : Sound symbol paths walk) (hidden : symbol ∉ (walk {}).track.exposed)
    {trace : List Action} {completion : Completion} (path : paths trace completion) :
    ¬ Exposes symbol trace :=
  fun exposes => hidden (sound.exposes path exposes {} List.not_mem_nil)

namespace Track

variable {frame : Frame}

theorem leaveInto_eq {node parent : Node} (track : Track) (block : node.role.isBlock = true) :
    track.leaveInto frame node parent =
      if !(track.followRest frame parent node).falls &&
          (parent.followers node).any endsFunction then
        .leave (track.followRest frame parent node).track
      else
        ⟨(track.followRest frame parent node).track.followConstruct frame parent node,
          !parent.form.isBarrier⟩ := by
  have other : ¬ (parent.form.isTry && decide (node.role = .handler)) = true := by
    intro both
    rw [Bool.and_eq_true, decide_eq_true_eq] at both
    rw [both.2] at block
    cases block
  unfold leaveInto
  rw [if_neg other, if_pos block]
  rfl

theorem leaveInto_falls {node parent : Node} {track : Track} (block : node.role.isBlock = true)
    (falls : (track.leaveInto frame node parent).falls = true) :
    (track.leaveInto frame node parent).track =
      (track.followRest frame parent node).track.followConstruct frame parent node := by
  rw [leaveInto_eq track block] at falls ⊢
  split at falls
  · cases falls
  · next goes => rw [if_neg goes]

theorem leaveInto_function {node function : Node} (track : Track)
    (isFunction : function.form.isFunction = true) (block : node.role.isBlock = true) :
    track.leaveInto frame node function = .leave (track.followRest frame function node).track := by
  rw [leaveInto_eq track block]
  unfold followConstruct
  generalize function.form = form at isFunction
  cases form with
  | functionDef isAsync name returns =>
      split
      · rfl
      · rfl
  | _ => cases isFunction

/-- A step outwards stops where the rest of a list returns or raises. -/
theorem leaveInto_stops {node parent : Node} {track : Track}
    (passable : parent.form.isBarrier = false)
    (stops : (track.leaveInto frame node parent).falls = false) :
    node.role.isBlock = true ∧ (track.followRest frame parent node).falls = false ∧
      (parent.followers node).any endsFunction = true ∧
      (track.leaveInto frame node parent).track = (track.followRest frame parent node).track := by
  cases block : node.role.isBlock with
  | true =>
      rw [leaveInto_eq track block] at stops ⊢
      split at stops
      · next ends =>
          rw [if_pos ends]
          rw [Bool.and_eq_true, Bool.not_eq_true'] at ends
          exact ⟨rfl, ends.1, ends.2, rfl⟩
      · rw [passable] at stops
        cases stops
  | false =>
      unfold leaveInto at stops
      split at stops
      · cases stops
      · rw [block, if_neg Bool.false_ne_true, passable] at stops
        cases stops

theorem alternatives_within {before assigned : SymbolSet} {visit : Node → Track → Outcome}
    (items : List Node) (track : Track) :
    (alternatives before visit items (track.within assigned)).1.within before =
      (alternatives before visit items track).1.within before := by
  cases items with
  | nil => rfl
  | cons item items => rfl

theorem visitHandlerBodies_eq (items : List Node) (track : Track) :
    track.visitHandlerBodies frame items =
      (alternatives track.assigned
        (fun handler track => track.executeRole frame .body handler.children) items
        track).1.within track.assigned := by
  unfold visitHandlerBodies
  induction items generalizing track with
  | nil => rfl
  | cons item items induction =>
      rw [List.foldl_cons, induction]
      exact alternatives_within items _

end Track

namespace Frame

open Paths

variable {frame : Frame} {symbol : Symbol} {parent node : Node} {outer : Slot} {how : Completion}

section

variable (fitting : parent.fits outer = true)

include fitting

theorem sound_block (steady : frame.Steady symbol parent) {role : Role}
    (asked : (role, Slot.statement) ∈ parent.form.slots) :
    Sound symbol (frame.executesRole role parent.children)
      (fun track => track.executeRole frame role parent.children) := by
  apply sound_executeRole
  intro child isChild plays
  exact sound_execute (Node.fits_of_slot fitting isChild (plays ▸ asked))
    (steady.of_mem (Node.child_mem_nodes isChild))

theorem sound_rest (steady : frame.Steady symbol parent)
    (asked : (node.role, Slot.statement) ∈ parent.form.slots) :
    Sound symbol (frame.executesRole node.role (parent.followers node))
      (fun track => track.followRest frame parent node) := by
  apply sound_executeRole
  intro child member plays
  obtain ⟨isChild, _⟩ := Node.mem_followers member
  exact sound_execute (Node.fits_of_slot fitting isChild (plays ▸ asked))
    (steady.of_mem (Node.child_mem_nodes isChild))

theorem canJump_of_block {role : Role} (asked : (role, Slot.statement) ∈ parent.form.slots)
    (jump : how.isJump = true) (ends : (frame.executesRole role parent.children).Ends how) :
    ∃ child ∈ parent.children, child.role = role ∧ child.canJump = true := by
  obtain ⟨child, isChild, plays, ends⟩ := ends_executesRole jump ends
  have fits := Node.fits_of_slot fitting isChild (plays ▸ asked)
  exact ⟨child, isChild, plays, Node.canJump_of_jumps jump (jumps_of_ends fits jump ends)⟩

theorem restJumps_of_ends (asked : (node.role, Slot.statement) ∈ parent.form.slots)
    (block : node.role.isBlock = true) (jump : how.isJump = true)
    (ends : (frame.executesRole node.role (parent.followers node)).Ends how) :
    parent.restJumps node = true := by
  obtain ⟨child, member, plays, ends⟩ := ends_executesRole jump ends
  have fits := Node.fits_of_slot fitting (Node.mem_followers member).1 (plays ▸ asked)
  unfold Node.restJumps
  rw [block, Bool.true_and]
  exact List.any_eq_true.mpr
    ⟨child, member, Node.canJump_of_jumps jump (jumps_of_ends fits jump ends)⟩

theorem canJump_of_handles {isGroup : Bool} (form : parent.form = .tryStmt isGroup)
    (jump : how.isJump = true) (ends : (frame.handles isGroup parent.children).Ends how) :
    ∃ child ∈ parent.children, child.role = .handler ∧ child.canJump = true := by
  obtain ⟨handler, isChild, plays, ends⟩ := ends_handles jump ends
  have fits : handler.fits .handler = true :=
    Node.fits_of_slot fitting isChild (by simp [form, plays, Form.slots])
  have jumps := jumps_of_part (Or.inl rfl) fits jump ends fun _ _ fits => jumps_of_ends fits jump
  exact ⟨handler, isChild, plays, Node.canJump_of_jumps jump jumps⟩

/-- Handlers are followed from what they are entered with, their types not at all. -/
theorem reveals_handles {isGroup : Bool} (steady : frame.Steady symbol parent)
    (form : parent.form = .tryStmt isGroup)
    (hidden : ∀ handler ∈ parent.field .handler,
      symbol ∉ (({} : Track).evaluateRole frame .caught handler.children).exposed) :
    Reveals symbol (frame.handles isGroup parent.children)
      (fun track => track.visitHandlerBodies frame (parent.field .handler)) := by
  have each : ∀ handler ∈ parent.field .handler,
      Reveals symbol
        (guarded (inOrder (frame.evaluatesRole .caught handler.children))
          ((frame.bindsHandler handler).andThen (frame.executesRole .body handler.children)))
        (fun track => (track.executeRole frame .body handler.children).track) := by
    intro handler member
    obtain ⟨isChild, plays⟩ := Node.mem_field.mp member
    have fits : handler.fits .handler = true :=
      Node.fits_of_slot fitting isChild (by simp [form, plays, Form.slots])
    obtain ⟨name, caught, shape⟩ := Node.form_of_handler fits
    have inside := steady.of_mem (Node.child_mem_nodes isChild)
    have body := sound_block fits inside
      (show (.body, Slot.statement) ∈ handler.form.slots by simp [shape, Form.slots])
    have types := sound_role fits inside.quiet
      (show (.caught, .expression) ∈ handler.form.slots by simp [shape, Form.slots]) rfl
    apply Reveals.behind (types.unread (hidden handler member))
    apply Reveals.optional
    apply Reveals.behind _ body.visits.toReveals
    intro trace completion path exposes
    exact not_reads_bindsHandler ⟨trace, completion, path, exposes.mem_reads⟩
  have tried {trace : List Action} {completion : Completion}
      (path : frame.handles isGroup parent.children trace completion) :
      SomeOf ((parent.field .handler).map fun handler =>
        guarded (inOrder (frame.evaluatesRole .caught handler.children))
          ((frame.bindsHandler handler).andThen (frame.executesRole .body handler.children)))
        trace := by
    have some : SomeOf ((frame.handlerPaths parent.children).map
        fun entry => guarded entry.1 entry.2) trace := by
      cases isGroup with
      | true => exact someOf_dispatchGroup path
      | false => exact someOf_dispatch path
    rw [handlerPaths_eq, List.map_map] at some
    exact some
  simp only [Track.visitHandlerBodies_eq]
  constructor
  · intro track
    exact (Track.alternatives_extends each track).within _
  · intro trace completion path exposes track unassigned
    exact Track.alternatives_exposes each (tried path) exposes unassigned track

end

section

variable {slot : Slot} {jumping early : Bool} {way : List Node} {paths : Paths} {track : Track}

/-- The rest of the list that a statement belongs to. -/
theorem shows_rest (fitting : parent.fits outer = true) (steady : frame.Steady symbol parent)
    (asked : (node.role, Slot.statement) ∈ parent.form.slots) (block : node.role.isBlock = true)
    (shows : Shows symbol (Node.guarded (node :: parent :: way)) jumping paths track)
    (clear : track.Clear frame symbol jumping node parent way) :
    Shows symbol (Node.guarded (node :: parent :: way)) (jumping || parent.restJumps node)
      (paths.andThen (frame.executesRole node.role (parent.followers node)))
      (track.followRest frame parent node).track := by
  apply shows.andThen (sound_rest fitting steady asked)
  · intro how jump ends
    exact restJumps_of_ends fitting asked block jump ends
  · intro early
    exact (clear.rest early).1

/-- A loop with an `else` is not left by `break`. -/
theorem regular_rest (fitting : parent.fits outer = true) (steady : frame.Steady symbol parent)
    (isLoop : parent.form.isLoop = true) (asked : (.body, Slot.statement) ∈ parent.form.slots)
    (isChild : node ∈ parent.children) (plays : node.role = .body)
    (genuine : ∀ {how}, how.isJump = true → paths.Ends how → node.jumps how = true) :
    (¬ (paths.andThen (frame.executesRole .body (parent.followers node))).Ends .broken ∧
        ¬ (frame.executesRole .body parent.children).Ends .broken) ∨
      ∀ track, Track.executeRole frame .orelse parent.children track = .next track := by
  rcases steady.loops parent (Node.self_mem_nodes parent) isLoop with none | never
  · right
    intro track
    exact Track.executeRole_of_none (List.filter_eq_nil_iff.mp none) track
  · left
    have unbroken {items : List Node} (part : ∀ item ∈ items, item ∈ parent.children) :
        ¬ (frame.executesRole .body items).Ends .broken := by
      intro ends
      obtain ⟨child, member, role, ends⟩ := ends_executesRole rfl ends
      have fits := Node.fits_of_slot fitting (part child member) (role ▸ asked)
      have jumps := jumps_of_ends fits rfl ends
      rw [never child (Node.mem_field.mpr ⟨part child member, role⟩)] at jumps
      cases jumps
    refine ⟨?_, unbroken fun _ member => member⟩
    intro ends
    rcases ends_andThen ends with ⟨ends, _⟩ | ends
    · have jumps := genuine rfl ends
      rw [never node (Node.mem_field.mpr ⟨isChild, plays⟩)] at jumps
      cases jumps
    · exact unbroken (fun _ member => (Node.mem_followers member).1) ends

/-- The next rounds of a loop and its regular end. -/
theorem shows_loop {guarded outside : Bool} {test body : Paths} {step : Track → Track}
    (fitting : parent.fits outer = true) (steady : frame.Steady symbol parent)
    (isLoop : parent.form.isLoop = true) (isChild : node ∈ parent.children)
    (plays : node.role = .body)
    (genuine : ∀ {how}, how.isJump = true → paths.Ends how → node.jumps how = true)
    (tests : Sound symbol test (fun track => .next (step track))) (calm : test.Calm)
    (rounds : Reveals symbol body
      (fun track => (track.executeRole frame .body parent.children).track))
    (breaks : body.Ends .broken → (frame.executesRole .body parent.children).Ends .broken)
    (round : track.nextRound frame parent =
      (Track.executeRole frame .orelse parent.children
        (((step track).executeRole frame .body parent.children).track.within
          track.assigned)).track)
    (shows : Shows symbol guarded jumping
      (paths.andThen (frame.executesRole .body (parent.followers node))) track)
    (leaving : ((parent.field .orelse).any Node.canJump || outside) = true →
      symbol ∉ (track.nextRound frame parent).assigned) :
    Shows symbol outside ((parent.field .orelse).any Node.canJump)
      (rejoins (paths.andThen (frame.executesRole .body (parent.followers node)))
        (loop test body (frame.executesRole .orelse parent.children)))
      (track.nextRound frame parent) := by
  have asked : (.body, Slot.statement) ∈ parent.form.slots ∧
      (.orelse, Slot.statement) ∈ parent.form.slots := by
    generalize parent.form = form at isLoop
    cases form with
    | forLoop isAsync => simp [Form.slots]
    | whileLoop => simp [Form.slots]
    | _ => cases isLoop
  rw [round] at leaving ⊢
  apply shows.rejoins tests calm rounds (sound_block fitting steady asked.2)
  · refine (regular_rest fitting steady isLoop asked.1 isChild plays genuine).imp_left ?_
    intro unbroken
    exact ⟨unbroken.1, fun ends => unbroken.2 (breaks ends)⟩
  · intro how jump ends
    obtain ⟨child, member, role, jumps⟩ := canJump_of_block fitting asked.2 jump ends
    exact List.any_eq_true.mpr ⟨child, Node.mem_field.mpr ⟨member, role⟩, jumps⟩
  · exact leaving

private theorem shows_while {guarded outside : Bool} (fitting : parent.fits outer = true)
    (steady : frame.Steady symbol parent) (form : parent.form = .whileLoop)
    (isChild : node ∈ parent.children) (plays : node.role = .body)
    (genuine : ∀ {how}, how.isJump = true → paths.Ends how → node.jumps how = true)
    (shows : Shows symbol guarded jumping
      (paths.andThen (frame.executesRole .body (parent.followers node))) track)
    (leaving : ((parent.field .orelse).any Node.canJump || outside) = true →
      symbol ∉ (track.nextRound frame parent).assigned) :
    Shows symbol outside ((parent.field .orelse).any Node.canJump)
      (rejoins (paths.andThen (frame.executesRole .body (parent.followers node)))
        (loop (inOrder (frame.evaluatesRole .test parent.children))
          (frame.executesRole .body parent.children)
          (frame.executesRole .orelse parent.children)))
      (track.nextRound frame parent) := by
  have test := sound_role fitting steady.quiet
    (show (.test, .expression) ∈ parent.form.slots by simp [form, Form.slots]) rfl
  have body := sound_block fitting steady
    (show (.body, Slot.statement) ∈ parent.form.slots by simp [form, Form.slots])
  apply shows_loop fitting steady (by rw [form]; rfl) isChild plays genuine test
    (closed_calm.ordered frame _ _) body.visits.toReveals id _ shows leaving
  simp only [Track.nextRound, form]

private theorem shows_for {guarded outside isAsync : Bool} (fitting : parent.fits outer = true)
    (steady : frame.Steady symbol parent) (form : parent.form = .forLoop isAsync)
    (isChild : node ∈ parent.children) (plays : node.role = .body)
    (genuine : ∀ {how}, how.isJump = true → paths.Ends how → node.jumps how = true)
    (hidden : symbol ∉ (({} : Track).evaluateRole frame .target parent.children).exposed)
    (shows : Shows symbol guarded jumping
      (paths.andThen (frame.executesRole .body (parent.followers node))) track)
    (leaving : ((parent.field .orelse).any Node.canJump || outside) = true →
      symbol ∉ (track.nextRound frame parent).assigned) :
    Shows symbol outside ((parent.field .orelse).any Node.canJump)
      (rejoins (paths.andThen (frame.executesRole .body (parent.followers node)))
        (loop attempt
          ((inOrder (frame.evaluatesRole .target parent.children)).andThen
            (frame.executesRole .body parent.children))
          (frame.executesRole .orelse parent.children)))
      (track.nextRound frame parent) := by
  have attempted : Sound symbol attempt (fun track => .next track) :=
    .ignored not_does_attempt not_does_attempt
  have target := sound_role fitting steady.quiet
    (show (.target, .target) ∈ parent.form.slots by simp [form, Form.slots]) rfl
  have body := sound_block fitting steady
    (show (.body, Slot.statement) ∈ parent.form.slots by simp [form, Form.slots])
  have rounds : Reveals symbol
      ((inOrder (frame.evaluatesRole .target parent.children)).andThen
        (frame.executesRole .body parent.children))
      (fun track => (track.executeRole frame .body parent.children).track) :=
    .behind (target.unread hidden) body.visits.toReveals
  apply shows_loop fitting steady (by rw [form]; rfl) isChild plays genuine attempted
    closed_calm.attempt rounds _ _ shows leaving
  · intro ends
    exact (closed_calm.ordered frame _ _).ends_after rfl ends
  · simp only [Track.nextRound, form]

theorem handles_nil {isGroup : Bool} {trace : List Action} {completion : Completion}
    (none : parent.field .handler = [])
    (path : frame.handles isGroup parent.children trace completion) :
    trace = [] ∧ completion = .raised := by
  have paths : frame.handlerPaths parent.children = [] := by
    rw [handlerPaths_eq]
    exact List.map_eq_nil_iff.mpr none
  unfold handles at path
  rw [paths] at path
  cases isGroup with
  | true => exact path
  | false => exact path

theorem executesRole_nil {role : Role} {trace : List Action} {completion : Completion}
    (none : parent.field role = [])
    (path : frame.executesRole role parent.children trace completion) :
    trace = [] ∧ completion = .normal := by
  have empty : (parent.children.filter fun item => item.role = role) = [] := none
  rw [executesRole_eq, empty] at path
  exact path

private theorem otherJumps_of_block (fitting : parent.fits outer = true) {role : Role}
    (asked : (role, Slot.statement) ∈ parent.form.slots)
    (apart : role ≠ node.role) (jump : how.isJump = true)
    (ends : (frame.executesRole role parent.children).Ends how) :
    parent.otherJumps node = true := by
  obtain ⟨child, isChild, plays, jumps⟩ := canJump_of_block fitting asked jump ends
  refine List.any_eq_true.mpr ⟨child, isChild, ?_⟩
  rw [jumps, Bool.and_true, plays]
  exact bne_iff_ne.mpr apart

section

variable {isGroup outside : Bool} (fitting : parent.fits outer = true)
  (form : parent.form = .tryStmt isGroup)

include fitting form

private theorem otherJumps_of_handles (apart : node.role ≠ .handler) (jump : how.isJump = true)
    (ends : (frame.handles isGroup parent.children).Ends how) : parent.otherJumps node = true := by
  obtain ⟨child, isChild, plays, jumps⟩ := canJump_of_handles fitting form jump ends
  refine List.any_eq_true.mpr ⟨child, isChild, ?_⟩
  rw [jumps, Bool.and_true, plays]
  exact bne_iff_ne.mpr apart.symm

variable (steady : frame.Steady symbol parent)

include steady

/-- A `try` after its body. -/
theorem shows_tried (plays : node.role = .body)
    (clear : track.Clear frame symbol jumping node parent way)
    (shows : Shows symbol (Node.guarded (node :: parent :: way)) early paths
      (track.followRest frame parent node).track)
    (leaving : (early || parent.otherJumps node || outside) = true →
      symbol ∉ ((track.followRest frame parent node).track.afterTried frame .body
        parent).assigned) :
    Shows symbol outside (early || parent.otherJumps node)
      (finished
        (rescued paths (frame.executesRole .orelse parent.children)
          (frame.handles isGroup parent.children))
        (frame.executesRole .finalbody parent.children))
      ((track.followRest frame parent node).track.afterTried frame .body parent) := by
  have isTry : parent.form.isTry = true := by rw [form]; rfl
  have askedElse : (.orelse, Slot.statement) ∈ parent.form.slots := by simp [form, Form.slots]
  have askedLast : (.finalbody, Slot.statement) ∈ parent.form.slots := by simp [form, Form.slots]
  have inner : Shows symbol true (early || parent.otherJumps node)
      (rescued paths (frame.executesRole .orelse parent.children)
        (frame.handles isGroup parent.children))
      (((track.followRest frame parent node).track.visitHandlerBodies frame
        (parent.field .handler)).executeRole frame .orelse parent.children).track := by
    apply shows.rescued (reveals_handles fitting steady form (clear.caught isTry)) _
      (sound_block fitting steady askedElse)
    · cases empty : (parent.field .handler).isEmpty with
      | true =>
          right
          intro trace completion path
          exact (handles_nil (List.isEmpty_iff.mp empty) path).1
      | false =>
          left
          simp [Node.guarded, Node.catches, isTry, plays, empty]
    · intro how jump ends
      rcases ends with ends | ends
      · exact otherJumps_of_block fitting askedElse (by simp [plays]) jump ends
      · exact otherJumps_of_handles fitting form (by simp [plays]) jump ends
    · exact clear.orelse isTry plays
    · rw [Track.visitHandlerBodies_eq]
      rfl
  apply inner.finished (sound_block fitting steady askedLast) (Or.inl rfl) id
  · intro how jump ends
    rw [otherJumps_of_block fitting askedLast (by simp [plays]) jump ends, Bool.or_true]
  · exact leaving

/-- A `try` after its `else` or after a handler. -/
theorem shows_finally (apart : node.role ≠ .finalbody)
    (shows : Shows symbol (Node.guarded (node :: parent :: way)) early paths track)
    (leaving : (early || parent.otherJumps node || outside) = true →
      symbol ∉ (track.executeRole frame .finalbody parent.children).track.assigned) :
    Shows symbol outside (early || parent.otherJumps node)
      (finished paths (frame.executesRole .finalbody parent.children))
      (track.executeRole frame .finalbody parent.children).track := by
  have askedLast : (.finalbody, Slot.statement) ∈ parent.form.slots := by simp [form, Form.slots]
  have isTry : parent.form.isTry = true := by rw [form]; rfl
  apply shows.finished (sound_block fitting steady askedLast)
  · cases empty : (parent.field .finalbody).isEmpty with
    | true =>
        right
        intro trace completion path
        exact (executesRole_nil (List.isEmpty_iff.mp empty) path).1
    | false =>
        left
        simp [Node.guarded, Node.catches, isTry, apart, empty]
  · intro early
    rw [early, Bool.true_or]
  · intro how jump ends
    rw [otherJumps_of_block fitting askedLast apart.symm jump ends, Bool.or_true]
  · exact leaving

end

/-- A `try` after its `finally`: the way out that was pending counts. -/
theorem shows_final {isGroup : Bool} (fitting : parent.fits outer = true)
    (form : parent.form = .tryStmt isGroup) (plays : node.role = .finalbody)
    (shows : Shows symbol (Node.guarded (node :: parent :: way)) early paths track) :
    Shows symbol (Node.guarded (parent :: way)) (early || parent.otherJumps node)
      (closes
        (rescued (frame.executesRole .body parent.children)
          (frame.executesRole .orelse parent.children) (frame.handles isGroup parent.children))
        paths)
      track := by
  apply shows.closes
  · intro how jump ends
    have askedBody : (.body, Slot.statement) ∈ parent.form.slots := by simp [form, Form.slots]
    have askedElse : (.orelse, Slot.statement) ∈ parent.form.slots := by simp [form, Form.slots]
    rcases ends_rescued ends with ends | ends | ends
    · exact otherJumps_of_block fitting askedBody (by simp [plays]) jump ends
    · exact otherJumps_of_block fitting askedElse (by simp [plays]) jump ends
    · exact otherJumps_of_handles fitting form (by simp [plays]) jump ends
  · simp [Node.guarded, Node.catches, form, plays, Form.isBarrier]

/-- A construct that does nothing more after one of its lists. -/
theorem shows_plain (fitting : parent.fits outer = true) (steady : frame.Steady symbol parent)
    (shows : Shows symbol (Node.guarded (node :: parent :: way)) jumping paths track)
    (clear : track.Clear frame symbol jumping node parent way)
    (falls : (track.leaveInto frame node parent).falls = true)
    (asked : (node.role, Slot.statement) ∈ parent.form.slots) (block : node.role.isBlock = true)
    (passable : parent.form.isBarrier = false) (unguarded : parent.form.isTry = false)
    (once : (parent.form.isLoop && decide (node.role = .body)) = false) :
    Shows symbol (Node.guarded (parent :: way)) (parent.jumpsAfter jumping node)
      (paths.andThen (frame.executesRole node.role (parent.followers node)))
      (track.leaveInto frame node parent).track := by
  have rest := shows_rest fitting steady asked block shows clear
  have same : Node.guarded (node :: parent :: way) = Node.guarded (parent :: way) := by
    simp [Node.guarded, Node.catches, unguarded, passable]
  have jumps : parent.jumpsAfter jumping node = (jumping || parent.restJumps node) := by
    simp [Node.jumpsAfter, once, unguarded]
  have construct : (track.leaveInto frame node parent).track =
      (track.followRest frame parent node).track := by
    rw [Track.leaveInto_falls block falls]
    simp [Track.followConstruct, once, unguarded]
  rw [construct, jumps, ← same]
  exact rest

/-- A step outwards keeps up with the paths. -/
theorem shows_leaveInto (fitting : parent.fits outer = true) (steady : frame.Steady symbol parent)
    (isChild : node ∈ parent.children) (holds : parent.form.Holds node.role slot)
    (genuine : ∀ {how}, how.isJump = true → paths.Ends how → node.jumps how = true)
    (shows : Shows symbol (Node.guarded (node :: parent :: way)) jumping paths track)
    (clear : track.Clear frame symbol jumping node parent way)
    (falls : (track.leaveInto frame node parent).falls = true)
    (leaving : (parent.jumpsAfter jumping node || Node.guarded (parent :: way)) = true →
      symbol ∉ (track.leaveInto frame node parent).track.assigned) :
    Shows symbol (Node.guarded (parent :: way)) (parent.jumpsAfter jumping node)
      (frame.resumes node parent paths) (track.leaveInto frame node parent).track := by
  have listed := holds.listed
  have plain (statement : slot = .statement) (block : node.role.isBlock = true) :=
    shows_plain fitting steady shows clear falls (statement ▸ listed) block
  have rest (statement : slot = .statement) (block : node.role.isBlock = true) :=
    shows_rest fitting steady (statement ▸ listed) block shows clear
  have construct (block : node.role.isBlock = true) := Track.leaveInto_falls block falls
  unfold resumes
  generalize form : parent.form = shape at holds
  generalize plays : node.role = role at holds
  simp only [form, plays] at plain rest construct
  -- Only a loop after its body and a `try` do more than the rest of a list.
  have round (isLoop : shape.isLoop = true) (isBody : role = .body) :
      (track.leaveInto frame node parent).track =
          (track.followRest frame parent node).track.nextRound frame parent ∧
        parent.jumpsAfter jumping node = (parent.field .orelse).any Node.canJump := by
    subst isBody
    simp [construct rfl, Track.followConstruct, Node.jumpsAfter, form, plays, isLoop]
  have closing (isTry : shape.isTry = true) (isBlock : role.isBlock = true) :
      (track.leaveInto frame node parent).track =
          (track.followRest frame parent node).track.afterTried frame role parent ∧
        parent.jumpsAfter jumping node =
          (jumping || parent.restJumps node || parent.otherJumps node) := by
    have once : shape.isLoop = false := Form.not_isLoop_of_isTry isTry
    simp [construct isBlock, Track.followConstruct, Node.jumpsAfter, form, plays, isTry, once]
  cases holds with
  | branch => exact plain rfl rfl rfl rfl rfl
  | alternative => exact plain rfl rfl rfl rfl rfl
  | forRound isAsync =>
      obtain ⟨follows, jumps⟩ := round rfl rfl
      rw [follows, jumps] at leaving ⊢
      exact shows_for fitting steady form isChild plays genuine (clear.target (by rw [form]; rfl))
        (rest rfl rfl) leaving
  | forEnd isAsync => exact plain rfl rfl rfl rfl rfl
  | whileRound =>
      obtain ⟨follows, jumps⟩ := round rfl rfl
      rw [follows, jumps] at leaving ⊢
      exact shows_while fitting steady form isChild plays genuine (rest rfl rfl) leaving
  | whileEnd => exact plain rfl rfl rfl rfl rfl
  | managed isAsync => exact (plain rfl rfl rfl rfl rfl).managed
  | tried isGroup =>
      obtain ⟨follows, jumps⟩ := closing rfl rfl
      rw [follows, jumps] at leaving ⊢
      exact shows_tried fitting form steady plays clear (rest rfl rfl) leaving
  | rescue isGroup =>
      have follows : (track.leaveInto frame node parent).track =
          (track.executeRole frame .finalbody parent.children).track := by
        simp [Track.leaveInto, form, plays, Form.isTry]
      have jumps : parent.jumpsAfter jumping node = (jumping || parent.otherJumps node) := by
        simp [Node.jumpsAfter, Node.restJumps, form, plays, Form.isTry, Form.isLoop, Role.isBlock]
      rw [follows, jumps] at leaving ⊢
      exact shows_finally fitting form steady (by simp [plays]) shows leaving
  | completed isGroup =>
      obtain ⟨follows, jumps⟩ := closing rfl rfl
      rw [follows, jumps] at leaving ⊢
      exact shows_finally fitting form steady (by simp [plays]) (rest rfl rfl) leaving
  | final isGroup =>
      obtain ⟨follows, jumps⟩ := closing rfl rfl
      rw [follows, jumps]
      exact shows_final fitting form plays (rest rfl rfl)
  | handled name caught => exact plain rfl rfl rfl rfl rfl
  | arm =>
      have follows : (track.leaveInto frame node parent).track = track := by
        simp [Track.leaveInto, form, plays, Form.isTry, Role.isBlock]
      have jumps : parent.jumpsAfter jumping node = jumping := by
        simp [Node.jumpsAfter, Node.restJumps, form, plays, Form.isTry, Form.isLoop, Role.isBlock]
      have same : Node.guarded (node :: parent :: way) = Node.guarded (parent :: way) := by
        simp [Node.guarded, Node.catches, form, Form.isTry, Form.isBarrier]
      rw [follows, jumps, ← same]
      exact shows
  | matched => exact plain rfl rfl rfl rfl rfl

end

end Frame

end SafeRefactor
