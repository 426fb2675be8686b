import SafeRefactor.Proofs.Execution

/-!
# Falling off the end

Whether a track finds that control can fall off the end of some statements is a matter
of their shape alone.  Where it finds that it cannot, no path of the statements ends
normally, so what is skipped behind them is never reached.
-/

namespace SafeRefactor

namespace Node

mutual

/-- Whether control can fall off the end of a statement, by the shape of the statement. -/
def completes : Node → Bool
  | .mk form _ children =>
      match form with
      | .returnStmt | .raiseStmt | .breakStmt | .continueStmt => false
      | .ifStmt => completesRole .body children || completesRole .orelse children
      | .withStmt _ => completesRole .body children
      | .tryStmt _ =>
          completesRole .finalbody children &&
            ((completesRole .body children && completesRole .orelse children) ||
              handlerCompletes children)
      | _ => true

/-- Whether control can fall off the end of the statements of a list that play a given role. -/
def completesRole (role : Role) : List Node → Bool
  | [] => true
  | node :: rest => (!decide (node.role = role) || completes node) && completesRole role rest

/-- Whether control can fall off the end of an exception handler among the nodes of a list. -/
def handlerCompletes : List Node → Bool
  | [] => false
  | .mk _ info parts :: rest =>
      (decide (info.role = .handler) && completesRole .body parts) || handlerCompletes rest

end

private theorem completesRole_iff {role : Role} {items : List Node} :
    completesRole role items = true ↔ ∀ item ∈ items, item.role = role → item.completes = true := by
  induction items with
  | nil => simp [completesRole]
  | cons item items induction =>
      simp [completesRole, induction, Decidable.imp_iff_not_or]

private theorem handlerCompletes_iff {items : List Node} :
    handlerCompletes items = true ↔
      ∃ handler ∈ items.filter (fun item => item.role = .handler),
        completesRole .body handler.children = true := by
  induction items with
  | nil => simp [handlerCompletes]
  | cons item items induction =>
      obtain ⟨form, info, parts⟩ := item
      by_cases plays : info.role = .handler
      · simp [handlerCompletes, plays, induction]
      · simp [handlerCompletes, plays, induction]

end Node

theorem Outcome.falls_andThen (outcome : Outcome) (walk : Track → Outcome) :
    (outcome.andThen walk).falls = (outcome.falls && (walk outcome.track).falls) := by
  obtain ⟨track, falls⟩ := outcome
  cases falls with
  | true => rfl
  | false => rfl

namespace Track

variable {frame : Frame}

theorem falls_joinEnds {before : SymbolSet} {ends : List SymbolSet} {track : Track} :
    (track.joinEnds before ends).falls = true ↔ ends ≠ [] := by
  cases ends with
  | nil => simp [joinEnds, Outcome.leave]
  | cons set rest => simp [joinEnds]

private theorem ends_ne_nil {outcome : Outcome} : outcome.ends ≠ [] ↔ outcome.falls = true := by
  unfold Outcome.ends
  cases outcome.falls with
  | true => simp
  | false => simp

private theorem alternatives_ne_nil {before : SymbolSet} {visit : Node → Track → Outcome}
    {completes : Node → Bool} {items : List Node}
    (each : ∀ item ∈ items, ∀ track, (visit item track).falls = completes item) (track : Track) :
    (alternatives before visit items track).2 ≠ [] ↔ ∃ item ∈ items, completes item = true := by
  induction items generalizing track with
  | nil => simp [alternatives]
  | cons item items induction =>
      rw [List.forall_mem_cons] at each
      have own := each.1 (track.within before)
      have rest := induction each.2 (visit item (track.within before)).track
      rw [List.exists_mem_cons_iff, ← rest, ← own, ← ends_ne_nil]
      simp only [alternatives, ne_eq, List.append_eq_nil_iff, not_and_or]

theorem falls_executeRole_of_each {role : Role} {items : List Node}
    (each : ∀ item ∈ items, ∀ track : Track, (track.execute frame item).falls = item.completes)
    (track : Track) :
    (track.executeRole frame role items).falls = Node.completesRole role items := by
  induction items generalizing track with
  | nil => rfl
  | cons item items induction =>
      rw [List.forall_mem_cons] at each
      have own := each.1 track
      have rest := induction each.2
      by_cases plays : item.role = role
      · simp only [executeRole, Node.completesRole, plays, if_true]
        cases falls : (track.execute frame item).falls with
        | true =>
            rw [falls] at own
            simp [← own, rest]
        | false =>
            rw [falls] at own
            simp [← own, falls]
      · simp [executeRole, Node.completesRole, plays, rest]

/-- Whether a statement is found to fall through depends on its shape alone. -/
theorem falls_execute (node : Node) (track : Track) :
    (track.execute frame node).falls = node.completes := by
  induction node using Node.strongInduction generalizing track with
  | step form info children induction =>
      have block (role : Role) (track : Track) :
          (track.executeRole frame role children).falls = Node.completesRole role children :=
        falls_executeRole_of_each
          (fun child isChild => induction child isChild child (Node.self_mem_nodes child)) track
      have handlers (before : SymbolSet) (track : Track) :
          (track.executeHandlers frame before children).2 ≠ [] ↔
            Node.handlerCompletes children = true := by
        rw [executeHandlers_eq, Node.handlerCompletes_iff]
        apply alternatives_ne_nil
        intro handler member track
        apply falls_executeRole_of_each
        intro item isItem
        exact induction handler (List.mem_of_mem_filter member) item (Node.child_mem_nodes isItem)
      unfold Node.completes
      cases form with
      | ifStmt =>
          rw [Bool.eq_iff_iff]
          simp only [execute, falls_joinEnds, ne_eq, List.append_eq_nil_iff, not_and_or,
            ends_ne_nil, block, Bool.or_eq_true]
      | withStmt isAsync => exact block .body _
      | tryStmt isGroup =>
          have main : ((track.executeRole frame .body children).andThen
              (executeRole frame .orelse children)).falls =
                (Node.completesRole .body children && Node.completesRole .orelse children) := by
            rw [Outcome.falls_andThen, block, block]
          simp only [Outcome.andThen, block] at main
          rw [Bool.eq_iff_iff]
          simp only [execute, falls_joinEnds, ne_eq, List.append_eq_nil_iff, not_and_or,
            ends_ne_nil, main, block, Bool.or_eq_true, Bool.and_eq_true]
          rw [← ne_eq, handlers]
      | _ => rfl

theorem falls_executeRole (role : Role) (items : List Node) (track : Track) :
    (track.executeRole frame role items).falls = Node.completesRole role items :=
  falls_executeRole_of_each (fun item _ => falls_execute item) track

/-- What follows statements off whose end control cannot fall is skipped. -/
theorem executeRole_append {role : Role} {items : List Node} {track : Track}
    (leaves : (track.executeRole frame role items).falls = false) (rest : List Node) :
    track.executeRole frame role (items ++ rest) = track.executeRole frame role items := by
  induction items generalizing track with
  | nil => cases leaves
  | cons item items induction =>
      by_cases plays : item.role = role
      · simp only [List.cons_append, executeRole, plays, if_true] at leaves ⊢
        cases falls : (track.execute frame item).falls with
        | true =>
            rw [falls] at leaves
            simp only [if_true]
            exact induction leaves
        | false => rfl
      · simp only [List.cons_append, executeRole, plays, if_false] at leaves ⊢
        exact induction leaves

end Track

namespace Paths

variable {first second : Paths}

theorem both_of_andThen (ends : (first.andThen second).Ends .normal) :
    first.Ends .normal ∧ second.Ends .normal := by
  obtain ⟨trace, path⟩ := ends
  obtain ⟨_, _, _, path, later⟩ := path.of_normal
  exact ⟨⟨_, path⟩, ⟨_, later⟩⟩

theorem each_of_inOrder {parts : List Paths} (ends : (inOrder parts).Ends .normal) :
    ∀ part ∈ parts, part.Ends .normal := by
  induction parts with
  | nil => simp
  | cons part rest induction =>
      obtain ⟨own, later⟩ := both_of_andThen ends
      exact List.forall_mem_cons.mpr ⟨own, induction later⟩

theorem not_ends_stop {how : Completion} (abrupt : how ≠ .normal) : ¬ (stop how).Ends .normal := by
  rintro ⟨trace, _, same⟩
  exact abrupt same.symm

theorem of_managed (ends : (managed first).Ends .normal) : first.Ends .normal := by
  obtain ⟨trace, inner, path, rfl | wrong⟩ := ends
  · exact ⟨trace, path⟩
  · cases wrong

theorem both_of_finished (ends : (finished first second).Ends .normal) :
    first.Ends .normal ∧ second.Ends .normal := by
  obtain ⟨trace, path⟩ := ends
  cases path with
  | resumes path later => exact ⟨⟨_, path⟩, ⟨_, later⟩⟩
  | overrides _ _ early => exact absurd rfl early

private theorem either_of_rescued {body orelse rescue : Paths}
    (ends : (rescued body orelse rescue).Ends .normal) :
    (body.Ends .normal ∧ orelse.Ends .normal) ∨ rescue.Ends .normal := by
  obtain ⟨trace, path⟩ := ends
  cases path with
  | completes path later => exact Or.inl ⟨⟨_, path⟩, ⟨_, later⟩⟩
  | rescues _ later => exact Or.inr ⟨_, later⟩
  | leaves _ early _ => exact absurd rfl early

end Paths

namespace Frame

open Paths

variable {frame : Frame}

theorem completesRole_of_each {role : Role} {items : List Node}
    (each : ∀ item ∈ items, (frame.executes item).Ends .normal → item.completes = true)
    (ends : (frame.executesRole role items).Ends .normal) :
    Node.completesRole role items = true := by
  rw [executesRole_eq] at ends
  apply Node.completesRole_iff.mpr
  intro item isItem plays
  apply each item isItem
  apply each_of_inOrder ends
  exact List.mem_map_of_mem (List.mem_filter.mpr ⟨isItem, decide_eq_true plays⟩)

/-- If some path of a statement ends normally then control can fall off its end by its shape. -/
theorem completes_of_normal {node : Node} (ends : (frame.executes node).Ends .normal) :
    node.completes = true := by
  induction node using Node.strongInduction with
  | step form info children induction =>
      have block (role : Role) (ends : (frame.executesRole role children).Ends .normal) :
          Node.completesRole role children = true :=
        completesRole_of_each
          (fun child isChild => induction child isChild child (Node.self_mem_nodes child)) ends
      -- Between the marks of a statement stands what its form does.
      unfold executes at ends
      replace ends := (both_of_andThen (both_of_andThen ends).2).1
      unfold Node.completes
      cases form with
      | returnStmt => exact absurd (both_of_andThen ends).2 (not_ends_stop (by decide))
      | raiseStmt => exact absurd (both_of_andThen ends).2 (not_ends_stop (by decide))
      | breakStmt => exact absurd ends (not_ends_stop (by decide))
      | continueStmt => exact absurd ends (not_ends_stop (by decide))
      | ifStmt =>
          exact Bool.or_eq_true_iff.mpr
            ((ends_either (both_of_andThen ends).2).imp (block .body) (block .orelse))
      | withStmt isAsync => exact block .body (of_managed (both_of_andThen ends).2)
      | tryStmt isGroup =>
          obtain ⟨tried, final⟩ := both_of_finished ends
          refine Bool.and_eq_true_iff.mpr ⟨block .finalbody final, Bool.or_eq_true_iff.mpr ?_⟩
          rcases either_of_rescued tried with ⟨body, orelse⟩ | ⟨trace, rescue⟩
          · exact Or.inl (Bool.and_eq_true_iff.mpr ⟨block .body body, block .orelse orelse⟩)
          · right
            obtain ⟨handler, member, inner, _, path⟩ := normal_of_handlers rescue
            obtain ⟨_, named⟩ := both_of_andThen ⟨inner, path⟩
            refine Node.handlerCompletes_iff.mpr ⟨handler, member, ?_⟩
            refine completesRole_of_each (fun item isItem => ?_) (both_of_andThen named).2
            exact induction handler (List.mem_of_mem_filter member) item
              (Node.child_mem_nodes isItem)
      | _ => rfl

/-- What follows statements of which no path ends normally is not reached. -/
theorem executesRole_append {role : Role} {items rest : List Node} {trace : List Action}
    {completion : Completion} (abrupt : ∀ trace, ¬ frame.executesRole role items trace .normal)
    (path : frame.executesRole role (items ++ rest) trace completion) :
    frame.executesRole role items trace completion := by
  induction items generalizing trace with
  | nil => exact absurd ⟨rfl, rfl⟩ (abrupt [])
  | cons item items induction =>
      by_cases plays : item.role = role
      · simp only [List.cons_append, executesRole, plays, if_true] at path abrupt ⊢
        cases path with
        | stops path early => exact .stops path early
        | goesOn path later =>
            exact .goesOn path (induction (fun trace ends => abrupt _ (.goesOn path ends)) later)
      · simp only [List.cons_append, executesRole, plays, if_false] at path abrupt ⊢
        exact induction abrupt path

/-- Where statements are found not to fall through, from whatever set of assigned symbols, no path
of them ends normally.  What stands behind them is skipped, and no path gets there. -/
theorem unreachable_of_not_falls (frame : Frame) (role : Role) (items : List Node) (track : Track) :
    (∀ other : Track, (other.executeRole frame role items).falls =
      (track.executeRole frame role items).falls) ∧
    ((track.executeRole frame role items).falls = false →
      (∀ trace, ¬ frame.executesRole role items trace .normal) ∧
      ∀ rest, track.executeRole frame role (items ++ rest) = track.executeRole frame role items ∧
        ∀ trace completion, frame.executesRole role (items ++ rest) trace completion →
          frame.executesRole role items trace completion) := by
  constructor
  · intro other
    rw [Track.falls_executeRole, Track.falls_executeRole]
  · intro leaves
    have abrupt (trace : List Action) : ¬ frame.executesRole role items trace .normal := by
      intro path
      have completes := completesRole_of_each (fun item _ => completes_of_normal) ⟨trace, path⟩
      rw [← Track.falls_executeRole role items track, leaves] at completes
      cases completes
    exact ⟨abrupt, fun rest => ⟨Track.executeRole_append leaves rest,
      fun trace completion path => executesRole_append abrupt path⟩⟩

/-- A frame in which no name is followed. -/
def blind : Frame where
  occurrence _ := none
  capture _ _ := none

/-- A `try` whose body leaves the loop around by `break` or by `continue`, whose handler raises
again, and whose `finally` passes. -/
def departing : Node :=
  .mk (.tryStmt false) ⟨3, .body, some ⟨⟨2, 4⟩, ⟨10, 12⟩⟩⟩ [
    .mk .ifStmt ⟨4, .body, some ⟨⟨3, 8⟩, ⟨6, 20⟩⟩⟩ [
      .mk (.name "c" .load) ⟨5, .test, some ⟨⟨3, 11⟩, ⟨3, 12⟩⟩⟩ [],
      .mk .breakStmt ⟨6, .body, some ⟨⟨4, 12⟩, ⟨4, 17⟩⟩⟩ [],
      .mk .continueStmt ⟨7, .orelse, some ⟨⟨6, 12⟩, ⟨6, 20⟩⟩⟩ []],
    .mk (.handler none none) ⟨8, .handler, some ⟨⟨7, 4⟩, ⟨8, 13⟩⟩⟩ [
      .mk .raiseStmt ⟨9, .body, some ⟨⟨8, 8⟩, ⟨8, 13⟩⟩⟩ []],
    .mk .passStmt ⟨10, .finalbody, some ⟨⟨10, 8⟩, ⟨10, 12⟩⟩⟩ []]

/-- No path falls off the end of that `try`. -/
theorem unreachable_of_not_falls_departing :
    (Track.executeRole blind .body [departing] {}).falls = false ∧
      ∀ trace, ¬ blind.executesRole .body [departing] trace .normal := by
  have leaves : (Track.executeRole blind .body [departing] {}).falls = false := by decide
  exact ⟨leaves, ((unreachable_of_not_falls blind .body [departing] {}).2 leaves).1⟩

end Frame

end SafeRefactor
