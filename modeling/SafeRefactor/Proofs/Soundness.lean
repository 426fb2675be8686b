import SafeRefactor.Proofs.Definite
import SafeRefactor.Proofs.Jumps

/-!
# Following code is sound

A symbol that is still unassigned when a track is about to follow a piece of code, and
that some path of the code reads before writing it, is exposed afterwards.  For this the
track must not take the symbol for assigned as long as some path has not written it.

The statement is proved for each way of putting code together and then for every
statement, by induction on the syntax tree.
-/

namespace SafeRefactor

/-- A symbol is read before it is written. -/
def Exposes (symbol : Symbol) (trace : List Action) : Prop :=
  ∃ before after, trace = before ++ .reads symbol :: after ∧ .writes symbol ∉ before

namespace Exposes

variable {symbol : Symbol} {left right : List Action}

theorem not_nil : ¬ Exposes symbol [] := by
  rintro ⟨before, after, split, _⟩
  simp at split

theorem mem_reads (exposes : Exposes symbol left) : .reads symbol ∈ left := by
  obtain ⟨before, after, rfl, _⟩ := exposes
  simp

theorem of_append (exposes : Exposes symbol (left ++ right)) :
    Exposes symbol left ∨ (.writes symbol ∉ left ∧ Exposes symbol right) := by
  obtain ⟨before, after, split, unwritten⟩ := exposes
  rcases List.append_eq_append_iff.mp split with ⟨middle, rfl, rest⟩ | ⟨middle, rfl, rest⟩
  · refine Or.inr ⟨fun written => unwritten (List.mem_append_left _ written), ?_⟩
    exact ⟨middle, after, rest, fun written => unwritten (List.mem_append_right _ written)⟩
  · cases middle with
    | nil =>
        refine Or.inr ⟨by simpa using unwritten, [], after, ?_, List.not_mem_nil⟩
        simpa using rest.symm
    | cons action middle =>
        obtain ⟨rfl, rfl⟩ : Action.reads symbol = action ∧ after = middle ++ right := by
          simpa using rest
        exact Or.inl ⟨before, middle, rfl, unwritten⟩

theorem append_right (exposes : Exposes symbol left) : Exposes symbol (left ++ right) := by
  obtain ⟨before, after, rfl, unwritten⟩ := exposes
  exact ⟨before, after ++ right, by simp, unwritten⟩

end Exposes

namespace Paths

variable {symbol : Symbol} {test body orelse : Paths} {trace : List Action}

/-- What a loop reads before writing it is read so by a test or, after a test, by a round or by
the end of the loop. -/
theorem exposes_loop {completion : Completion} (path : loop test body orelse trace completion)
    (exposes : Exposes symbol trace) :
    (∃ early how, test early how ∧ Exposes symbol early) ∨
      ∃ early, test early .normal ∧ .writes symbol ∉ early ∧
        ∃ late how, (body late how ∨ orelse late how) ∧ Exposes symbol late := by
  have split {early late : List Action} {how : Completion} (path : test early .normal)
      (later : body late how ∨ orelse late how) (exposes : Exposes symbol (early ++ late)) :
      (∃ early how, test early how ∧ Exposes symbol early) ∨
        ∃ early, test early .normal ∧ .writes symbol ∉ early ∧
          ∃ late how, (body late how ∨ orelse late how) ∧ Exposes symbol late := by
    rcases exposes.of_append with exposes | ⟨unwritten, exposes⟩
    · exact Or.inl ⟨early, _, path, exposes⟩
    · exact Or.inr ⟨early, path, unwritten, late, how, later, exposes⟩
  induction path with
  | fails path _ => exact Or.inl ⟨_, _, path, exposes⟩
  | exhausted path later => exact split path (Or.inr later) exposes
  | breaks path later => exact split path (Or.inl later) exposes
  | leaves path later _ => exact split path (Or.inl later) exposes
  | again path later _ _ induction =>
      rcases exposes.of_append with exposes | ⟨_, exposes⟩
      · exact split path (Or.inl later) exposes
      · exact induction exposes

end Paths

/-- Following a piece of code is sound for a symbol: what some path reads before writing it is
exposed, and the symbol counts as assigned only if every path has written it. -/
structure Sound (symbol : Symbol) (paths : Paths) (walk : Track → Outcome) : Prop
    extends Definite symbol paths walk where
  grows : ∀ track, Track.Extends track (walk track).track
  exposes : ∀ {trace completion}, paths trace completion → Exposes symbol trace →
    ∀ track, symbol ∉ track.assigned → symbol ∈ (walk track).track.exposed
  records : ∀ {trace completion}, paths trace completion → .writes symbol ∈ trace →
    ∀ track, symbol ∈ (walk track).track.writes

theorem Covers.sound {symbol : Symbol} {mentioned : Prop} {paths : Paths} {step : Track → Track}
    (covers : Covers symbol mentioned paths.Does step) :
    Sound symbol paths (fun track => .next (step track)) where
  toDefinite := .unmoved fun track unassigned assigned =>
    unassigned ((covers.assigned track).mp assigned)
  grows := covers.grows
  exposes path exposes := covers.reads ⟨_, _, path, exposes.mem_reads⟩
  records path written := absurd ⟨_, _, path, written⟩ covers.silent

namespace Sound

open Paths

variable {symbol : Symbol} {first second paths : Paths}
  {walk next : Track → Outcome} {step : Track → Track}

theorem fewer (sound : Sound symbol paths walk)
    (weaker : ∀ trace completion, first trace completion →
      ∃ other, paths trace other ∧ (completion = .normal → other = .normal)) :
    Sound symbol first walk where
  toDefinite := by
    apply sound.toDefinite.fewer
    intro trace path
    obtain ⟨other, path, same⟩ := weaker _ _ path
    exact same rfl ▸ path
  grows := sound.grows
  exposes path := by
    obtain ⟨other, path, _⟩ := weaker _ _ path
    exact sound.exposes path
  records path := by
    obtain ⟨other, path, _⟩ := weaker _ _ path
    exact sound.records path

theorem andThen (left : Sound symbol first walk) (right : Sound symbol second next) :
    Sound symbol (first.andThen second) (fun track => (walk track).andThen next) := by
  have grows (track : Track) : (walk track).track.Extends ((walk track).andThen next).track := by
    unfold Outcome.andThen
    split
    · exact right.grows _
    · exact .refl _
  have goes {trace : List Action} (path : first trace .normal) (track : Track) :
      (walk track).andThen next = next (walk track).track := by
    simp [Outcome.andThen, left.falls path track]
  refine ⟨left.toDefinite.andThen right.toDefinite,
    fun track => (left.grows track).trans (grows track), ?_, ?_⟩
  · intro trace completion path exposes track unassigned
    cases path with
    | stops path _ => exact (grows track).exposed _ (left.exposes path exposes track unassigned)
    | goesOn path later =>
        rcases exposes.of_append with early | ⟨unwritten, late⟩
        · exact (grows track).exposed _ (left.exposes path early track unassigned)
        · rw [goes path]
          exact right.exposes later late _ (left.keeps path unwritten track unassigned)
  · intro trace completion path written track
    cases path with
    | stops path _ => exact (grows track).writes _ (left.records path written track)
    | goesOn path later =>
        rcases List.mem_append.mp written with early | late
        · exact (grows track).writes _ (left.records path early track)
        · rw [goes path]
          exact right.records later late _

theorem after (left : Sound symbol first (fun track => .next (step track)))
    (right : Sound symbol second next) :
    Sound symbol (first.andThen second) (fun track => next (step track)) :=
  left.andThen right

theorem ignored (silent : ¬ paths.Does (.writes symbol)) (unread : ¬ paths.Does (.reads symbol)) :
    Sound symbol paths .next where
  toDefinite := .unmoved fun _ unassigned => unassigned
  grows := .refl
  exposes path exposes := absurd ⟨_, _, path, exposes.mem_reads⟩ unread
  records path written := absurd ⟨_, _, path, written⟩ silent

theorem done : Sound symbol done .next :=
  ignored not_does_done not_does_done

theorem attempted (sound : Sound symbol paths walk) : Sound symbol
    (paths.andThen attempt) walk := by
  apply sound.fewer
  intro trace completion path
  cases path with
  | stops path early => exact ⟨_, path, fun normal => absurd normal early⟩
  | goesOn path later =>
      obtain ⟨rfl, _⟩ | ⟨rfl, _⟩ := later
      · exact ⟨.normal, by simpa using path, fun _ => rfl⟩
      · exact ⟨.normal, by simpa using path, fun _ => rfl⟩

theorem reads (other : Symbol) :
    Sound symbol (act (.reads other)) (fun track => .next (track.read other)) where
  toDefinite := .unmoved fun _ unassigned => unassigned
  grows := Track.read_extends other
  exposes path exposes track unassigned := by
    obtain rfl : symbol = other := Action.reads.inj (does_act ⟨_, _, path, exposes.mem_reads⟩)
    exact Track.exposed_read unassigned
  records path written := nomatch does_act ⟨_, _, path, written⟩

theorem writes (other : Symbol) :
    Sound symbol (act (.writes other)) (fun track => .next (track.write other)) where
  toDefinite := .writes other
  grows := Track.write_extends other
  exposes path exposes := nomatch does_act ⟨_, _, path, exposes.mem_reads⟩
  records path written track := by
    obtain rfl : symbol = other := Action.writes.inj (does_act ⟨_, _, path, written⟩)
    exact SymbolSet.mem_insert.mpr (Or.inl rfl)

theorem either (left : Sound symbol first walk) (right : Sound symbol second next) :
    Sound symbol (first.either second) (fun track =>
      let one := walk track
      let other := next (one.track.within track.assigned)
      other.track.joinEnds track.assigned (one.ends ++ other.ends)) := by
  have grows (track : Track) :
      (walk track).track.Extends (next ((walk track).track.within track.assigned)).track :=
    (right.grows _).ofWithin
  refine ⟨left.toDefinite.either right.toDefinite, fun track => ?_, ?_, ?_⟩
  · exact ((left.grows track).trans (grows track)).trans Track.joinEnds_extends
  · rintro trace completion (path | path) exposes track unassigned
    · apply Track.joinEnds_extends.exposed
      exact (grows track).exposed _ (left.exposes path exposes track unassigned)
    · apply Track.joinEnds_extends.exposed
      exact right.exposes path exposes _ unassigned
  · rintro trace completion (path | path) written track
    · apply Track.joinEnds_extends.writes
      exact (grows track).writes _ (left.records path written track)
    · apply Track.joinEnds_extends.writes
      exact right.records path written _

/-- Code that may not run at all, followed on a copy of the assigned set. -/
theorem onCopy (sound : Sound symbol paths walk)
    (runs : ∀ trace completion, first trace completion →
      trace = [] ∨ ∃ inner, paths trace inner) :
    Sound symbol first (fun track => .next ((walk track).track.within track.assigned)) where
  toDefinite := .unmoved fun _ unassigned => unassigned
  grows track := (sound.grows track).within track.assigned
  exposes path exposes track unassigned := by
    obtain rfl | ⟨inner, path⟩ := runs _ _ path
    · exact absurd exposes Exposes.not_nil
    · exact sound.exposes path exposes track unassigned
  records path written track := by
    obtain rfl | ⟨inner, path⟩ := runs _ _ path
    · cases written
    · exact sound.records path written track

theorem called (sound : Sound symbol paths walk) :
    Sound symbol (called paths)
      (fun track => .next ((walk track).track.within track.assigned)) := by
  apply sound.onCopy
  rintro trace completion ⟨_, ⟨rfl, _⟩ | path⟩
  · exact Or.inl rfl
  · exact Or.inr path

theorem classBody (sound : Sound symbol paths walk) :
    Sound symbol (classBody paths)
      (fun track => .next ((walk track).track.within track.assigned)) := by
  apply sound.onCopy
  rintro trace completion (⟨path, _⟩ | ⟨inner, path, _⟩)
  · exact Or.inr ⟨_, path⟩
  · exact Or.inr ⟨inner, path⟩

theorem managed (sound : Sound symbol paths walk) : Sound symbol (managed paths) walk := by
  apply sound.fewer
  rintro trace completion ⟨inner, path, rfl | rfl⟩
  · exact ⟨_, path, id⟩
  · exact ⟨inner, path, fun wrong => nomatch wrong⟩

/-- A loop is followed through one round.  Where it has a piece of code for its regular end,
it must not be left by `break`. -/
theorem loop {test body orelse : Paths}
    (tests : Sound symbol test (fun track => .next (step track)))
    (rounds : Sound symbol body walk) (ending : Sound symbol orelse next)
    (regular : (∀ trace, ¬ body trace .broken) ∨ ∀ track, next track = .next track) :
    Sound symbol (loop test body orelse) (fun track =>
      let tested := step track
      .next (next ((walk tested).track.within tested.assigned)).track) := by
  have growsEnd (track : Track) : (walk (step track)).track.Extends
      (next ((walk (step track)).track.within (step track).assigned)).track :=
    (ending.grows _).ofWithin
  have growsTest (track : Track) := (rounds.grows (step track)).trans (growsEnd track)
  refine ⟨tests.toDefinite.loop walk ending.toDefinite regular,
    fun track => (tests.grows track).trans (growsTest track), ?_, ?_⟩
  · intro trace completion path exposes track unassigned
    rcases exposes_loop path exposes with
      ⟨early, how, path, exposes⟩ | ⟨early, path, unwritten, late, how, later, exposes⟩
    · exact (growsTest track).exposed _ (tests.exposes path exposes track unassigned)
    · have still := tests.keeps path unwritten track unassigned
      rcases later with later | later
      · exact (growsEnd track).exposed _ (rounds.exposes later exposes _ still)
      · exact ending.exposes later exposes _ still
  · intro trace completion path written track
    rcases does_loop ⟨trace, completion, path, written⟩ with does | does | does
    · obtain ⟨early, how, path, written⟩ := does
      exact (growsTest track).writes _ (tests.records path written track)
    · obtain ⟨late, how, later, written⟩ := does
      exact (growsEnd track).writes _ (rounds.records later written (step track))
    · obtain ⟨late, how, later, written⟩ := does
      exact ending.records later written _

theorem stopped (sound : Sound symbol paths (fun track => .next (step track))) {how : Completion}
    (abrupt : how ≠ .normal) :
    Sound symbol (paths.andThen (stop how)) (fun track => .leave (step track)) := by
  have before {trace : List Action} {completion : Completion}
      (path : paths.andThen (stop how) trace completion) :
      completion ≠ .normal ∧ ∃ inner, paths trace inner := by
    cases path with
    | stops path early => exact ⟨early, _, path⟩
    | goesOn path later =>
        obtain ⟨rfl, rfl⟩ := later
        exact ⟨abrupt, .normal, by simpa using path⟩
  refine ⟨.stopped abrupt, sound.grows, ?_, ?_⟩
  · intro trace completion path
    obtain ⟨_, inner, path⟩ := before path
    exact sound.exposes path
  · intro trace completion path
    obtain ⟨_, inner, path⟩ := before path
    exact sound.records path

theorem leaving {how : Completion} (abrupt : how ≠ .normal) : Sound symbol (stop how) .leave where
  toDefinite := .never fun _ path => abrupt path.2.symm
  grows := .refl
  exposes path exposes := absurd ⟨_, _, path, exposes.mem_reads⟩ not_does_stop
  records path written := absurd ⟨_, _, path, written⟩ not_does_stop

end Sound

/-- Following alternatives that are tried one after the other is sound: each starts from the set
`before`, and if they end normally then so does one of them. -/
structure Rescues (symbol : Symbol) (paths : Paths)
    (walk : SymbolSet → Track → Track × List SymbolSet) : Prop where
  grows : ∀ before track, Track.Extends track (walk before track).1
  exposes : ∀ {trace completion}, paths trace completion → Exposes symbol trace →
    ∀ before track, symbol ∉ before → symbol ∈ (walk before track).1.exposed
  ends : DefiniteEnds symbol paths walk
  records : ∀ {trace completion}, paths trace completion → .writes symbol ∈ trace →
    ∀ before track, symbol ∈ (walk before track).1.writes

namespace Sound

open Paths

variable {symbol : Symbol} {body orelse rescue inner last : Paths}
  {walk next close : Track → Outcome} {handle : SymbolSet → Track → Track × List SymbolSet}

/-- A `try` without its `finally`.  The handlers start from the set before the `try`. -/
theorem rescued (tried : Sound symbol body walk) (completed : Sound symbol orelse next)
    (handlers : Rescues symbol rescue handle) :
    Sound symbol (rescued body orelse rescue) (fun track =>
      let main := (walk track).andThen next
      let (handled, ends) := handle track.assigned main.track
      handled.joinEnds track.assigned (main.ends ++ ends)) := by
  have main := tried.andThen completed
  have growsMain (track : Track) :
      (walk track).track.Extends ((walk track).andThen next).track := by
    unfold Outcome.andThen
    split
    · exact completed.grows _
    · exact .refl _
  have growsHandled (track : Track) : ((walk track).andThen next).track.Extends _ :=
    handlers.grows track.assigned ((walk track).andThen next).track
  have growsTried (track : Track) := (growsMain track).trans (growsHandled track)
  -- Whatever way the body takes, its own paths are followed first.
  have early {trace rest : List Action} {how completion : Completion} (path : body trace how)
      (later : rescue rest completion) (track : Track) (unassigned : symbol ∉ track.assigned)
      (exposes : Exposes symbol (trace ++ rest)) :
      symbol ∈ (handle track.assigned ((walk track).andThen next).track).1.exposed := by
    rcases exposes.of_append with exposes | ⟨_, exposes⟩
    · exact (growsTried track).exposed _ (tried.exposes path exposes track unassigned)
    · exact handlers.exposes later exposes _ _ unassigned
  refine ⟨tried.toDefinite.rescued completed.toDefinite handlers.ends, fun track => ?_, ?_, ?_⟩
  · exact ((tried.grows track).trans (growsTried track)).trans Track.joinEnds_extends
  · intro trace completion path exposes track unassigned
    apply Track.joinEnds_extends.exposed
    cases path with
    | completes path later =>
        exact (growsHandled track).exposed _
          (main.exposes (.goesOn path later) exposes track unassigned)
    | rescues path later => exact early path later track unassigned exposes
    | leaves path early _ =>
        exact (growsHandled track).exposed _
          (main.exposes (.stops path early) exposes track unassigned)
  · intro trace completion path written track
    apply Track.joinEnds_extends.writes
    cases path with
    | completes path later =>
        exact (growsHandled track).writes _ (main.records (.goesOn path later) written track)
    | rescues path later =>
        rcases List.mem_append.mp written with written | written
        · exact (growsTried track).writes _ (tried.records path written track)
        · exact handlers.records later written _ _
    | leaves path early _ =>
        exact (growsHandled track).writes _ (main.records (.stops path early) written track)

/-- A `finally` is followed from the set before the `try`; what it assigns is added. -/
theorem finished (before : Sound symbol inner walk) (final : Sound symbol last close) :
    Sound symbol (finished inner last) (fun track =>
      let joined := walk track
      let closed := close (joined.track.within track.assigned)
      ⟨closed.track.within
          (joined.track.assigned.union (closed.track.assigned.diff track.assigned)),
        closed.falls && joined.falls⟩) := by
  have grows (track : Track) : (walk track).track.Extends
      (close ((walk track).track.within track.assigned)).track :=
    (final.grows _).ofWithin
  refine ⟨before.toDefinite.finished final.toDefinite, fun track => ?_, ?_, ?_⟩
  · exact ((before.grows track).trans (grows track)).within _
  · intro trace completion path exposes track unassigned
    have whole {trace rest : List Action} {pending completion : Completion}
        (path : inner trace pending) (later : last rest completion)
        (exposes : Exposes symbol (trace ++ rest)) :
        symbol ∈ (close ((walk track).track.within track.assigned)).track.exposed := by
      rcases exposes.of_append with early | ⟨_, late⟩
      · exact (grows track).exposed _ (before.exposes path early track unassigned)
      · exact final.exposes later late _ unassigned
    cases path with
    | resumes path later => exact whole path later exposes
    | overrides path later _ => exact whole path later exposes
  · intro trace completion path written track
    have whole {trace rest : List Action} {pending completion : Completion}
        (path : inner trace pending) (later : last rest completion)
        (written : .writes symbol ∈ trace ++ rest) :
        symbol ∈ (close ((walk track).track.within track.assigned)).track.writes := by
      rcases List.mem_append.mp written with early | late
      · exact (grows track).writes _ (before.records path early track)
      · exact final.records later late _
    cases path with
    | resumes path later => exact whole path later written
    | overrides path later _ => exact whole path later written

end Sound

/-- Following a piece of code exposes what its paths read before writing it. -/
structure Reveals (symbol : Symbol) (paths : Paths) (walk : Track → Track) : Prop where
  grows : ∀ track, Track.Extends track (walk track)
  exposes : ∀ {trace completion}, paths trace completion → Exposes symbol trace →
    ∀ track, symbol ∉ track.assigned → symbol ∈ (walk track).exposed

/-- Following a piece of code records what its paths read and write. -/
structure Visits (symbol : Symbol) (paths : Paths) (walk : Track → Track) : Prop
    extends Reveals symbol paths walk where
  records : ∀ {trace completion}, paths trace completion → .writes symbol ∈ trace →
    ∀ track, symbol ∈ (walk track).writes

namespace Paths

/-- Some pieces of code of a list run one after the other, however each of them ends. -/
inductive SomeOf : List Paths → List Action → Prop where
  | none {parts : List Paths} : SomeOf parts []
  | skip {part : Paths} {rest : List Paths} {trace : List Action} :
      SomeOf rest trace → SomeOf (part :: rest) trace
  | run {part : Paths} {rest : List Paths} {trace later : List Action} {completion : Completion} :
      part trace completion → SomeOf rest later → SomeOf (part :: rest) (trace ++ later)

def guarded (test body : Paths) : Paths :=
  test.andThen (optional body)

private theorem guarded_of_test {test body : Paths} {trace : List Action} {completion : Completion}
    (path : test trace completion) : guarded test body trace completion := by
  by_cases normal : completion = .normal
  · subst normal
    have whole : guarded test body (trace ++ []) .normal := .goesOn path (Or.inl ⟨rfl, rfl⟩)
    rwa [List.append_nil] at whole
  · exact .stops path normal

private theorem guarded_of_body {test body : Paths} {trace rest : List Action}
    {completion : Completion}
    (path : test trace .normal) (later : body rest completion) :
    guarded test body (trace ++ rest) completion :=
  .goesOn path (Or.inr later)

theorem someOf_dispatch {handlers : List (Paths × Paths)} {trace : List Action}
    {completion : Completion} (path : dispatch handlers trace completion) :
    SomeOf (handlers.map fun handler => guarded handler.1 handler.2) trace := by
  induction handlers generalizing trace with
  | nil =>
      obtain ⟨rfl, _⟩ := path
      exact .none
  | cons handler rest induction =>
      cases path with
      | stops path _ => simpa using SomeOf.run (guarded_of_test path) .none
      | goesOn path later =>
          rcases later with later | later
          · simpa using SomeOf.run (guarded_of_body path later) .none
          · exact .run (guarded_of_test path) (induction later)

theorem someOf_dispatchGroup {handlers : List (Paths × Paths)} {handled failed : Bool}
    {trace : List Action} {completion : Completion}
    (path : dispatchGroup handled failed handlers trace completion) :
    SomeOf (handlers.map fun handler => guarded handler.1 handler.2) trace := by
  induction handlers generalizing trace completion handled failed with
  | nil =>
      have empty : trace = [] := by
        cases handled <;> cases failed <;> first | exact path.1 | exact path.elim And.left And.left
      rw [empty]
      exact .none
  | cons handler rest induction =>
      obtain ⟨test, body⟩ := handler
      simp only [dispatchGroup] at path
      cases path with
      | stops path _ => simpa using SomeOf.run (guarded_of_test path) .none
      | goesOn path later =>
          rcases later with later | later | later
          · exact .run (guarded_of_test path) (induction later)
          · cases later with
            | stops later early => exact absurd later.2 early
            | goesOn later last =>
                rw [← List.append_assoc]
                exact .run (guarded_of_body path later.1) (induction last)
          · cases later with
            | stops later early => exact absurd later.2 early
            | goesOn later last =>
                obtain ⟨⟨inner, later, _⟩, _⟩ := later
                rw [← List.append_assoc]
                exact .run (guarded_of_body path later) (induction last)

theorem someOf_select {arms : List (Paths × Paths × Paths)} {trace : List Action}
    {completion : Completion} (path : select arms trace completion) :
    SomeOf (arms.map fun arm =>
      either (failed arm.1) (arm.1.andThen (guarded arm.2.1 arm.2.2))) trace := by
  induction arms generalizing trace with
  | nil =>
      obtain ⟨rfl, _⟩ := path
      exact .none
  | cons arm rest induction =>
      rcases path with path | path
      · cases path with
        | stops path _ => simpa using SomeOf.run (Or.inl path) .none
        | goesOn path later => exact .run (Or.inl path) (induction later)
      · cases path with
        | stops path early => simpa using SomeOf.run (Or.inr (.stops path early)) .none
        | goesOn path later =>
            cases later with
            | stops later early =>
                have whole : guarded arm.2.1 arm.2.2 _ _ := guarded_of_test later
                simpa using SomeOf.run (Or.inr (.goesOn path whole)) .none
            | goesOn later last =>
                rcases last with last | last
                · have whole := guarded_of_body later last
                  simpa using SomeOf.run (Or.inr (.goesOn path whole)) .none
                · have whole : guarded arm.2.1 arm.2.2 _ _ := guarded_of_test later
                  rw [← List.append_assoc]
                  exact .run (Or.inr (.goesOn path whole)) (induction last)

end Paths

namespace Track

variable {symbol : Symbol} {before : SymbolSet} {visit : Node → Track → Outcome}
  {part : Node → Paths} {items : List Node}

theorem alternatives_extends
    (each : ∀ item ∈ items, Reveals symbol (part item) (fun track => (visit item track).track))
    (track : Track) : track.Extends (alternatives before visit items track).1 := by
  induction items generalizing track with
  | nil => exact .refl track
  | cons item items induction =>
      have rest := induction fun other member => each other (List.mem_cons_of_mem _ member)
      have own := ((each item List.mem_cons_self).grows (track.within before)).ofWithin
      exact own.trans (rest _)

theorem alternatives_exposes
    (each : ∀ item ∈ items, Reveals symbol (part item) (fun track => (visit item track).track))
    {trace : List Action} (path : Paths.SomeOf (items.map part) trace)
    (exposes : Exposes symbol trace) (unassigned : symbol ∉ before) (track : Track) :
    symbol ∈ (alternatives before visit items track).1.exposed := by
  induction items generalizing track trace with
  | nil =>
      cases path
      exact absurd exposes Exposes.not_nil
  | cons item items induction =>
      have others := fun other member => each other (List.mem_cons_of_mem _ member)
      have rest {trace : List Action} (path : Paths.SomeOf (items.map part) trace)
          (exposes : Exposes symbol trace) := induction others path exposes
      cases path with
      | none => exact absurd exposes Exposes.not_nil
      | skip path => exact rest path exposes _
      | run path later =>
          rcases exposes.of_append with early | ⟨_, late⟩
          · have own := (each item List.mem_cons_self).exposes path early
              (track.within before) unassigned
            exact (alternatives_extends others _).exposed _ own
          · exact rest later late _

theorem alternatives_records
    (each : ∀ item ∈ items, Visits symbol (part item) (fun track => (visit item track).track))
    {trace : List Action} (path : Paths.SomeOf (items.map part) trace)
    (written : .writes symbol ∈ trace) (track : Track) :
    symbol ∈ (alternatives before visit items track).1.writes := by
  induction items generalizing track trace with
  | nil =>
      cases path
      cases written
  | cons item items induction =>
      have others := fun other member => each other (List.mem_cons_of_mem _ member)
      have rest {trace : List Action} (path : Paths.SomeOf (items.map part) trace)
          (written : .writes symbol ∈ trace) := induction others path written
      cases path with
      | none => cases written
      | skip path => exact rest path written _
      | run path later =>
          rcases List.mem_append.mp written with early | late
          · have own := (each item List.mem_cons_self).records path early (track.within before)
            exact (alternatives_extends
              (fun other member => (others other member).toReveals) _).writes _ own
          · exact rest later late _

end Track

theorem Sound.visits {symbol : Symbol} {paths : Paths} {walk : Track → Outcome}
    (sound : Sound symbol paths walk) : Visits symbol paths (fun track => (walk track).track) :=
  ⟨⟨sound.grows, sound.exposes⟩, sound.records⟩

/-- Code that is followed whether or not control comes to it. -/
theorem Sound.visitsThen {symbol : Symbol} {first second : Paths} {walk : Track → Outcome}
    {next : Track → Track} (left : Sound symbol first walk) (right : Visits symbol second next) :
    Visits symbol (first.andThen second) (fun track => next (walk track).track) where
  grows track := (left.grows track).trans (right.grows (walk track).track)
  exposes path exposes track unassigned := by
    have inFirst {trace : List Action} {how : Completion} (path : first trace how)
        (exposes : Exposes symbol trace) :=
      (right.grows (walk track).track).exposed _ (left.exposes path exposes track unassigned)
    cases path with
    | stops path _ => exact inFirst path exposes
    | goesOn path later =>
        rcases exposes.of_append with early | ⟨unwritten, late⟩
        · exact inFirst path early
        · exact right.exposes later late _ (left.keeps path unwritten track unassigned)
  records path written track := by
    have inFirst {trace : List Action} {how : Completion} (path : first trace how)
        (written : .writes symbol ∈ trace) :=
      (right.grows (walk track).track).writes _ (left.records path written track)
    cases path with
    | stops path _ => exact inFirst path written
    | goesOn path later =>
        rcases List.mem_append.mp written with early | late
        · exact inFirst path early
        · exact right.records later late _

namespace Visits

variable {symbol : Symbol} {first second : Paths} {step next : Track → Track}
  {walk : Track → Outcome}

theorem optional (visits : Visits symbol first next) :
    Visits symbol (Paths.optional first) next where
  grows := visits.grows
  exposes path exposes := by
    rcases path with ⟨rfl, _⟩ | path
    · exact absurd exposes Exposes.not_nil
    · exact visits.exposes path exposes
  records path written := by
    rcases path with ⟨rfl, _⟩ | path
    · cases written
    · exact visits.records path written

theorem guarded (test : Sound symbol first (fun track => .next (step track)))
    (body : Sound symbol second walk) :
    Visits symbol (Paths.guarded first second) (fun track => (walk (step track)).track) :=
  test.visitsThen body.visits.optional

/-- An arm of a `match`: a match that fails may have bound names, but it has not read any. -/
theorem arm (matched : Sound symbol first (fun track => .next (step track)))
    (unread : ¬ first.Does (.reads symbol)) (body : Visits symbol second next) :
    Visits symbol ((Paths.failed first).either (first.andThen second))
      (fun track => next (step track)) where
  grows track := (matched.grows track).trans (body.grows (step track))
  exposes path exposes := by
    rcases path with ⟨_, whole, inner, path, part⟩ | path
    · exact absurd ⟨whole, inner, path, part.subset exposes.mem_reads⟩ unread
    · exact (matched.visitsThen body).exposes path exposes
  records path written track := by
    rcases path with ⟨_, whole, inner, path, part⟩ | path
    · have recorded := matched.records path (part.subset written) track
      exact (body.grows (step track)).writes _ recorded
    · exact (matched.visitsThen body).records path written track

end Visits

/-- Handlers are sound if their tests and their bodies are. -/
theorem Rescues.of_handlers {symbol : Symbol} {items : List Node} {test body : Node → Paths}
    {step : Node → Track → Track} {walk : Node → Track → Outcome} {rescue : Paths}
    (tests : ∀ item ∈ items, Sound symbol (test item) (fun track => .next (step item track)))
    (bodies : ∀ item ∈ items, Sound symbol (body item) (walk item))
    (tried : ∀ trace completion, rescue trace completion →
      Paths.SomeOf (items.map fun item => Paths.guarded (test item) (body item)) trace)
    (normal : ∀ trace, rescue trace .normal → ∃ item ∈ items, ∃ inner, inner ⊆ trace ∧
      (test item).andThen (body item) inner .normal) :
    Rescues symbol rescue (fun before track =>
      track.alternatives before (fun item track => walk item (step item track)) items) := by
  have each : ∀ item ∈ items, Visits symbol (Paths.guarded (test item) (body item))
      (fun track => (walk item (step item track)).track) :=
    fun item member => .guarded (tests item member) (bodies item member)
  have reveals : ∀ item ∈ items, Reveals symbol (Paths.guarded (test item) (body item))
      (fun track => (walk item (step item track)).track) :=
    fun item member => (each item member).toReveals
  refine ⟨fun before => Track.alternatives_extends reveals, ?_, ?_, ?_⟩
  · intro trace completion path exposes before track unassigned
    exact Track.alternatives_exposes reveals (tried _ _ path) exposes unassigned track
  · exact DefiniteEnds.of_handlers (fun item member => (tests item member).toDefinite)
      (fun item member => (bodies item member).toDefinite) normal
  · intro trace completion path written before track
    exact Track.alternatives_records each (tried _ _ path) written track

end SafeRefactor
