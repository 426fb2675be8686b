import SafeRefactor.Proofs.Coverage

/-!
# Definite assignment

While a track follows a piece of code, its assigned set stays below what every path that
ends normally has written: wherever alternatives meet the sets are intersected, and what
may be skipped is followed on a copy.  This is proved for each way of putting code
together.
-/

namespace SafeRefactor

namespace Paths

/-- A loop ends normally after its last test, at its regular end or by a `break`. -/
theorem normal_of_loop (path : loop test body orelse trace .normal) :
    ∃ early late, early ⊆ trace ∧ late ⊆ trace ∧ test early .normal ∧
      (orelse late .normal ∨ body late .broken) := by
  generalize normal : Completion.normal = completion at path
  induction path with
  | fails _ early => exact absurd normal.symm early
  | exhausted path later =>
      subst normal
      exact ⟨_, _, List.subset_append_left _ _, List.subset_append_right _ _, path, Or.inl later⟩
  | breaks path later =>
      exact ⟨_, _, List.subset_append_left _ _, List.subset_append_right _ _, path, Or.inr later⟩
  | leaves _ _ left =>
      subst normal
      rcases left with left | left
      · cases left
      · cases left
  | again _ _ _ _ induction =>
      obtain ⟨early, late, inEarly, inLate, path, later⟩ := induction normal
      exact ⟨early, late, List.subset_append_of_subset_right _ inEarly,
        List.subset_append_of_subset_right _ inLate, path, later⟩

/-- If handlers end normally, the test and the body of one of them have. -/
theorem normal_of_dispatch {handlers : List (Paths × Paths)} {trace : List Action}
    (path : dispatch handlers trace .normal) :
    ∃ handler ∈ handlers, ∃ inner, inner ⊆ trace ∧ handler.1.andThen handler.2 inner .normal := by
  induction handlers generalizing trace with
  | nil => cases path.2
  | cons handler rest induction =>
      obtain ⟨_, _, rfl, path, later⟩ := path.of_normal
      rcases later with later | later
      · exact ⟨handler, List.mem_cons_self, _, List.Subset.refl _, .goesOn path later⟩
      · obtain ⟨other, member, inner, within, ends⟩ := induction later
        exact ⟨other, List.mem_cons_of_mem _ member, inner,
          List.subset_append_of_subset_right _ within, ends⟩

private theorem not_normal_of_failed {handlers : List (Paths × Paths)} {handled : Bool}
    {trace : List Action} : ¬ dispatchGroup handled true handlers trace .normal := by
  induction handlers generalizing trace handled with
  | nil =>
      intro path
      cases handled with
      | true => cases path.2
      | false => cases path.2
  | cons handler rest induction =>
      obtain ⟨test, body⟩ := handler
      intro path
      simp only [dispatchGroup] at path
      obtain ⟨_, _, rfl, _, later⟩ := path.of_normal
      rcases later with later | later | later
      · exact induction later
      · obtain ⟨_, _, rfl, _, last⟩ := later.of_normal
        exact induction last
      · obtain ⟨_, _, rfl, _, last⟩ := later.of_normal
        exact induction last

theorem normal_of_dispatchGroup {handlers : List (Paths × Paths)} {trace : List Action}
    (path : dispatchGroup false false handlers trace .normal) :
    ∃ handler ∈ handlers, ∃ inner, inner ⊆ trace ∧ handler.1.andThen handler.2 inner .normal := by
  induction handlers generalizing trace with
  | nil => cases path.2
  | cons handler rest induction =>
      obtain ⟨test, body⟩ := handler
      simp only [dispatchGroup] at path
      obtain ⟨_, _, rfl, tested, later⟩ := path.of_normal
      rcases later with later | later | later
      · obtain ⟨other, member, inner, within, ends⟩ := induction later
        exact ⟨other, List.mem_cons_of_mem _ member, inner,
          List.subset_append_of_subset_right _ within, ends⟩
      · obtain ⟨_, _, rfl, handled, _⟩ := later.of_normal
        refine ⟨(test, body), List.mem_cons_self, _, ?_, .goesOn tested handled.1⟩
        rw [← List.append_assoc]
        exact List.subset_append_left _ _
      · obtain ⟨_, _, _, _, last⟩ := later.of_normal
        exact absurd last not_normal_of_failed

end Paths

/-- Follows further code if control falls through. -/
def Outcome.andThen (outcome : Outcome) (walk : Track → Outcome) : Outcome :=
  if outcome.falls then walk outcome.track else outcome

theorem Outcome.andThen_next (outcome : Outcome) : outcome.andThen .next = outcome := by
  obtain ⟨track, falls⟩ := outcome
  cases falls <;> rfl

@[simp]
theorem Outcome.track_next (track : Track) : (Outcome.next track).track = track :=
  rfl

@[simp]
theorem Outcome.falls_next (track : Track) : (Outcome.next track).falls = true :=
  rfl

@[simp]
theorem Outcome.track_leave (track : Track) : (Outcome.leave track).track = track :=
  rfl

theorem SymbolSet.mem_interAll {symbol : Symbol} {sets : List SymbolSet}
    (member : symbol ∈ SymbolSet.interAll sets) : ∀ set ∈ sets, symbol ∈ set := by
  cases sets with
  | nil => cases member
  | cons first rest =>
      have inFold : symbol ∈ first ∧ ∀ set ∈ rest, symbol ∈ set := by
        unfold SymbolSet.interAll at member
        induction rest generalizing first with
        | nil => exact ⟨member, by simp⟩
        | cons second rest induction =>
            obtain ⟨both, others⟩ := induction _ member
            obtain ⟨inFirst, inSecond⟩ := SymbolSet.mem_inter.mp both
            refine ⟨inFirst, fun set inside => ?_⟩
            rcases List.mem_cons.mp inside with rfl | inside
            · exact inSecond
            · exact others set inside
      intro set inside
      rcases List.mem_cons.mp inside with rfl | inside
      · exact inFold.1
      · exact inFold.2 set inside

theorem Outcome.ends_of_falls {outcome : Outcome} (falls : outcome.falls = true) :
    outcome.track.assigned ∈ outcome.ends := by
  simp [Outcome.ends, falls]

namespace Track

variable {symbol : Symbol} {before : SymbolSet} {ends : List SymbolSet} {track : Track}

theorem joinEnds_extends : track.Extends (track.joinEnds before ends).track := by
  unfold joinEnds
  split
  · exact (Extends.refl track).within before
  · exact (Extends.refl track).within _

theorem joinEnds_falls {set : SymbolSet} (member : set ∈ ends) :
    (track.joinEnds before ends).falls = true := by
  unfold joinEnds
  split
  · next empty =>
      rw [List.isEmpty_iff.mp empty] at member
      cases member
  · rfl

theorem joinEnds_unassigned {set : SymbolSet} (member : set ∈ ends) (unassigned : symbol ∉ set) :
    symbol ∉ (track.joinEnds before ends).track.assigned := by
  unfold joinEnds
  split
  · next empty =>
      rw [List.isEmpty_iff.mp empty] at member
      cases member
  · exact fun assigned => unassigned (SymbolSet.mem_interAll assigned set member)

end Track

/-- Follows alternatives one after the other, each from the set `before`; also the assigned sets
with which they end. -/
def Track.alternatives (before : SymbolSet) (visit : Node → Track → Outcome) :
    List Node → Track → Track × List SymbolSet
  | [], track => (track, [])
  | item :: rest, track =>
      let outcome := visit item (track.within before)
      let (last, ends) := alternatives before visit rest outcome.track
      (last, outcome.ends ++ ends)

namespace Track

variable {before : SymbolSet} {visit : Node → Track → Outcome} {items : List Node}

private theorem alternatives_ends {item : Node} (member : item ∈ items) (track : Track) :
    ∃ start : Track, ∀ set ∈ (visit item (start.within before)).ends,
      set ∈ (alternatives before visit items track).2 := by
  induction items generalizing track with
  | nil => cases member
  | cons first rest induction =>
      rcases List.mem_cons.mp member with rfl | later
      · exact ⟨track, fun set ending => List.mem_append_left _ ending⟩
      · obtain ⟨start, ends⟩ := induction later (visit first (track.within before)).track
        exact ⟨start, fun set ending => List.mem_append_right _ (ends set ending)⟩

end Track

/-- Following a piece of code is certain of a symbol: control is seen to fall through wherever some
path does, and the symbol counts as assigned only if every such path has written it. -/
structure Definite (symbol : Symbol) (paths : Paths) (walk : Track → Outcome) : Prop where
  falls : ∀ {trace}, paths trace .normal → ∀ track, (walk track).falls = true
  keeps : ∀ {trace}, paths trace .normal → .writes symbol ∉ trace →
    ∀ track, symbol ∉ track.assigned → symbol ∉ (walk track).track.assigned

/-- If alternatives end normally then so does one of them, and the set with which it ends has the
symbol only if the symbol was there before or is written. -/
def DefiniteEnds (symbol : Symbol) (paths : Paths)
    (walk : SymbolSet → Track → Track × List SymbolSet) : Prop :=
  ∀ {trace}, paths trace .normal → ∀ before track, ∃ set ∈ (walk before track).2,
    symbol ∉ before → .writes symbol ∉ trace → symbol ∉ set

namespace Definite

open Paths

variable {symbol : Symbol} {first second paths : Paths}
  {walk next : Track → Outcome} {step : Track → Track}

theorem fewer (definite : Definite symbol paths walk)
    (weaker : ∀ trace, first trace .normal → paths trace .normal) : Definite symbol first walk where
  falls path := definite.falls (weaker _ path)
  keeps path := definite.keeps (weaker _ path)

theorem never (none : ∀ trace, ¬ paths trace .normal) : Definite symbol paths walk where
  falls path := absurd path (none _)
  keeps path := absurd path (none _)

theorem unmoved (still : ∀ track, symbol ∉ track.assigned → symbol ∉ (step track).assigned) :
    Definite symbol paths (fun track => .next (step track)) where
  falls _ _ := rfl
  keeps _ _ := still

theorem andThen (left : Definite symbol first walk) (right : Definite symbol second next) :
    Definite symbol (first.andThen second) (fun track => (walk track).andThen next) := by
  have goes {trace : List Action} (path : first trace .normal) (track : Track) :
      (walk track).andThen next = next (walk track).track := by
    simp [Outcome.andThen, left.falls path track]
  constructor
  · intro trace path track
    obtain ⟨_, _, _, path, later⟩ := path.of_normal
    rw [goes path]
    exact right.falls later _
  · intro trace path unwritten track unassigned
    obtain ⟨_, _, rfl, path, later⟩ := path.of_normal
    rw [List.mem_append, not_or] at unwritten
    rw [goes path]
    exact right.keeps later unwritten.2 _ (left.keeps path unwritten.1 track unassigned)

theorem after (left : Definite symbol first (fun track => .next (step track)))
    (right : Definite symbol second next) :
    Definite symbol (first.andThen second) (fun track => next (step track)) :=
  left.andThen right

theorem attempted (definite : Definite symbol paths walk) :
    Definite symbol (paths.andThen attempt) walk := by
  apply definite.fewer
  intro trace path
  obtain ⟨_, _, rfl, path, later⟩ := path.of_normal
  rcases later with ⟨rfl, _⟩ | ⟨_, wrong⟩
  · rwa [List.append_nil]
  · cases wrong

theorem stopped {how : Completion} (abrupt : how ≠ .normal) :
    Definite symbol (paths.andThen (stop how)) walk := by
  apply never
  intro trace path
  obtain ⟨_, _, _, _, later⟩ := path.of_normal
  exact abrupt later.2.symm

theorem writes (other : Symbol) :
    Definite symbol (act (.writes other)) (fun track => .next (track.write other)) where
  falls _ _ := rfl
  keeps path unwritten track unassigned := by
    obtain ⟨rfl, _⟩ := path
    rw [Outcome.track_next, Track.mem_assigned_write, not_or]
    exact ⟨fun same => unwritten (same ▸ List.mem_singleton_self _), unassigned⟩

theorem either (left : Definite symbol first walk) (right : Definite symbol second next) :
    Definite symbol (first.either second) (fun track =>
      let one := walk track
      let other := next (one.track.within track.assigned)
      other.track.joinEnds track.assigned (one.ends ++ other.ends)) := by
  constructor
  · rintro trace (path | path) track
    · have ending := Outcome.ends_of_falls (left.falls path track)
      exact Track.joinEnds_falls (List.mem_append_left _ ending)
    · have ending := Outcome.ends_of_falls
        (right.falls path ((walk track).track.within track.assigned))
      exact Track.joinEnds_falls (List.mem_append_right _ ending)
  · rintro trace (path | path) unwritten track unassigned
    · have ending := Outcome.ends_of_falls (left.falls path track)
      exact Track.joinEnds_unassigned (List.mem_append_left _ ending)
        (left.keeps path unwritten track unassigned)
    · have ending := Outcome.ends_of_falls
        (right.falls path ((walk track).track.within track.assigned))
      exact Track.joinEnds_unassigned (List.mem_append_right _ ending)
        (right.keeps path unwritten _ unassigned)

theorem managed (definite : Definite symbol paths walk) : Definite symbol (managed paths) walk := by
  apply definite.fewer
  rintro trace ⟨inner, path, rfl | wrong⟩
  · exact path
  · cases wrong

/-- A loop is followed through one round.  Where it has a piece of code for its regular end,
it must not be left by `break`. -/
theorem loop {test body orelse : Paths} (round : Track → Outcome)
    (tests : Definite symbol test (fun track => .next (step track)))
    (ending : Definite symbol orelse next)
    (regular : (∀ trace, ¬ body trace .broken) ∨ ∀ track, next track = .next track) :
    Definite symbol (loop test body orelse) (fun track =>
      let tested := step track
      .next (next ((round tested).track.within tested.assigned)).track) where
  falls _ _ := rfl
  keeps path unwritten track unassigned := by
    obtain ⟨early, late, inEarly, inLate, path, later⟩ := normal_of_loop path
    have still := tests.keeps path (fun written => unwritten (inEarly written)) track unassigned
    -- Whatever the rounds assign is forgotten: there may have been none.
    rcases later with later | later
    · exact ending.keeps later (fun written => unwritten (inLate written)) _ still
    · rcases regular with never | skipped
      · exact absurd later (never _)
      · rw [Outcome.track_next, skipped]
        exact still

variable {body orelse rescue inner last : Paths} {close : Track → Outcome}
  {handle : SymbolSet → Track → Track × List SymbolSet}

/-- A `try` without its `finally`.  The handlers start from the set before the `try`. -/
theorem rescued (tried : Definite symbol body walk) (completed : Definite symbol orelse next)
    (handlers : DefiniteEnds symbol rescue handle) :
    Definite symbol (rescued body orelse rescue) (fun track =>
      let main := (walk track).andThen next
      let (handled, ends) := handle track.assigned main.track
      handled.joinEnds track.assigned (main.ends ++ ends)) := by
  have main := tried.andThen completed
  constructor
  · intro trace path track
    cases path with
    | completes path later =>
        have ending := Outcome.ends_of_falls (main.falls (.goesOn path later) track)
        exact Track.joinEnds_falls (List.mem_append_left _ ending)
    | rescues path later =>
        obtain ⟨set, ending, _⟩ := handlers later track.assigned ((walk track).andThen next).track
        exact Track.joinEnds_falls (List.mem_append_right _ ending)
    | leaves _ early _ => exact absurd rfl early
  · intro trace path unwritten track unassigned
    cases path with
    | completes path later =>
        have ending := Outcome.ends_of_falls (main.falls (.goesOn path later) track)
        exact Track.joinEnds_unassigned (List.mem_append_left _ ending)
          (main.keeps (.goesOn path later) unwritten track unassigned)
    | rescues path later =>
        rw [List.mem_append, not_or] at unwritten
        obtain ⟨set, ending, keeps⟩ :=
          handlers later track.assigned ((walk track).andThen next).track
        exact Track.joinEnds_unassigned (List.mem_append_right _ ending)
          (keeps unassigned unwritten.2)
    | leaves _ early _ => exact absurd rfl early

/-- A `finally` is followed from the set before the `try`; what it assigns is added. -/
theorem finished (before : Definite symbol inner walk) (final : Definite symbol last close) :
    Definite symbol (finished inner last) (fun track =>
      let joined := walk track
      let closed := close (joined.track.within track.assigned)
      ⟨closed.track.within
          (joined.track.assigned.union (closed.track.assigned.diff track.assigned)),
        closed.falls && joined.falls⟩) := by
  constructor
  · intro trace path track
    cases path with
    | resumes path later =>
        simp only [Bool.and_eq_true]
        exact ⟨final.falls later _, before.falls path track⟩
    | overrides _ _ early => exact absurd rfl early
  · intro trace path unwritten track unassigned
    cases path with
    | resumes path later =>
        rw [List.mem_append, not_or] at unwritten
        intro assigned
        rcases SymbolSet.mem_union.mp assigned with assigned | assigned
        · exact before.keeps path unwritten.1 track unassigned assigned
        · exact final.keeps later unwritten.2 ((walk track).track.within track.assigned) unassigned
            (SymbolSet.mem_diff.mp assigned).1
    | overrides _ _ early => exact absurd rfl early

end Definite

theorem DefiniteEnds.of_handlers {symbol : Symbol} {items : List Node} {test body : Node → Paths}
    {step : Node → Track → Track} {walk : Node → Track → Outcome} {rescue : Paths}
    (tests : ∀ item ∈ items, Definite symbol (test item) (fun track => .next (step item track)))
    (bodies : ∀ item ∈ items, Definite symbol (body item) (walk item))
    (normal : ∀ trace, rescue trace .normal → ∃ item ∈ items, ∃ inner, inner ⊆ trace ∧
      (test item).andThen (body item) inner .normal) :
    DefiniteEnds symbol rescue (fun before track =>
      track.alternatives before (fun item track => walk item (step item track)) items) := by
  intro trace path before track
  obtain ⟨item, member, inner, within, path⟩ := normal trace path
  have definite := (tests item member).after (bodies item member)
  obtain ⟨start, ends⟩ := Track.alternatives_ends member track
  refine ⟨_, ends _ (Outcome.ends_of_falls (definite.falls path _)), ?_⟩
  intro unassigned unwritten
  exact definite.keeps path (fun written => unwritten (within written)) _ unassigned

end SafeRefactor
