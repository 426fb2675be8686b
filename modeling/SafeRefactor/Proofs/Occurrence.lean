import SafeRefactor.Proofs.Paths

/-!
# What happens on paths

Whatever happens on some path of a composite piece of code happens on some path of one
of its parts.
-/

namespace SafeRefactor

namespace Paths

/-- Something happens on some path. -/
def Does (paths : Paths) (action : Action) : Prop :=
  ∃ trace completion, paths trace completion ∧ action ∈ trace

def DoesAny (parts : List Paths) (action : Action) : Prop :=
  ∃ part ∈ parts, part.Does action

variable {action : Action} {first second : Paths}

theorem doesAny_nil : ¬ DoesAny [] action := by
  rintro ⟨part, member, _⟩
  cases member

theorem doesAny_cons {part : Paths} {rest : List Paths}
    (does : DoesAny (part :: rest) action) : part.Does action ∨ DoesAny rest action := by
  obtain ⟨other, member, does⟩ := does
  rcases List.mem_cons.mp member with rfl | member
  · exact Or.inl does
  · exact Or.inr ⟨other, member, does⟩

theorem doesAny_append {left right : List Paths}
    (does : DoesAny (left ++ right) action) : DoesAny left action ∨ DoesAny right action := by
  obtain ⟨part, member, does⟩ := does
  rcases List.mem_append.mp member with member | member
  · exact Or.inl ⟨part, member, does⟩
  · exact Or.inr ⟨part, member, does⟩

theorem not_does_done : ¬ done.Does action := by
  rintro ⟨trace, completion, ⟨rfl, _⟩, member⟩
  cases member

theorem not_does_stop {how : Completion} : ¬ (stop how).Does action := by
  rintro ⟨trace, completion, ⟨rfl, _⟩, member⟩
  cases member

theorem does_act {other : Action} (does : (act other).Does action) : action = other := by
  obtain ⟨trace, completion, ⟨rfl, _⟩, member⟩ := does
  exact List.mem_singleton.mp member

theorem does_andThen (does : (first.andThen second).Does action) :
    first.Does action ∨ second.Does action := by
  obtain ⟨trace, completion, path, member⟩ := does
  cases path with
  | stops path _ => exact Or.inl ⟨_, _, path, member⟩
  | goesOn path later =>
      rcases List.mem_append.mp member with early | late
      · exact Or.inl ⟨_, _, path, early⟩
      · exact Or.inr ⟨_, _, later, late⟩

theorem does_either (does : (first.either second).Does action) :
    first.Does action ∨ second.Does action := by
  obtain ⟨trace, completion, path | path, member⟩ := does
  · exact Or.inl ⟨_, _, path, member⟩
  · exact Or.inr ⟨_, _, path, member⟩

theorem does_optional (does : (optional first).Does action) : first.Does action :=
  (does_either does).resolve_left not_does_done

theorem not_does_attempt : ¬ attempt.Does action := by
  intro does
  rcases does_either does with does | does
  · exact not_does_done does
  · exact not_does_stop does

theorem does_inOrder {parts : List Paths} (does : (inOrder parts).Does action) :
    DoesAny parts action := by
  induction parts with
  | nil => exact absurd does not_does_done
  | cons part rest induction =>
      rcases does_andThen does with does | does
      · exact ⟨part, List.mem_cons_self, does⟩
      · obtain ⟨other, member, does⟩ := induction does
        exact ⟨other, List.mem_cons_of_mem _ member, does⟩

theorem does_inSomeOrder {parts : List Paths} (does : (inSomeOrder parts).Does action) :
    DoesAny parts action := by
  obtain ⟨trace, completion, ⟨order, permuted, path⟩, member⟩ := does
  obtain ⟨part, isPart, does⟩ := does_inOrder ⟨trace, completion, path, member⟩
  exact ⟨part, permuted.subset isPart, does⟩

theorem does_shortCircuit {parts : List Paths} (does : (shortCircuit parts).Does action) :
    DoesAny parts action := by
  induction parts with
  | nil => exact absurd does not_does_done
  | cons part rest induction =>
      rcases does_andThen does with does | does
      · exact ⟨part, List.mem_cons_self, does⟩
      · obtain ⟨other, member, does⟩ := induction (does_optional does)
        exact ⟨other, List.mem_cons_of_mem _ member, does⟩

theorem does_behind {conditions : List Paths} {inner : Paths}
    (does : (behind conditions inner).Does action) :
    DoesAny conditions action ∨ inner.Does action := by
  induction conditions with
  | nil => exact Or.inr does
  | cons condition rest induction =>
      rcases does_andThen does with does | does
      · exact Or.inl ⟨condition, List.mem_cons_self, does⟩
      · rcases induction (does_optional does) with ⟨other, member, does⟩ | does
        · exact Or.inl ⟨other, List.mem_cons_of_mem _ member, does⟩
        · exact Or.inr does

theorem does_repeated {round : Paths} (does : (repeated round).Does action) :
    round.Does action := by
  obtain ⟨trace, completion, path, member⟩ := does
  induction path with
  | none => cases member
  | more path _ induction =>
      rcases List.mem_append.mp member with early | late
      · exact ⟨_, _, path, early⟩
      · exact induction late
  | stops path _ => exact ⟨_, _, path, member⟩

theorem does_called {body : Paths} (does : (called body).Does action) : body.Does action := by
  obtain ⟨trace, completion, ⟨_, ⟨rfl, _⟩ | ⟨inner, path⟩⟩, member⟩ := does
  · cases member
  · exact ⟨_, _, path, member⟩

theorem does_classBody {body : Paths} (does : (classBody body).Does action) :
    body.Does action := by
  obtain ⟨trace, completion, ⟨path, _⟩ | ⟨inner, path, _⟩, member⟩ := does
  · exact ⟨_, _, path, member⟩
  · exact ⟨_, _, path, member⟩

theorem does_managed {body : Paths} (does : (managed body).Does action) : body.Does action := by
  obtain ⟨trace, completion, ⟨inner, path, _⟩, member⟩ := does
  exact ⟨_, _, path, member⟩

theorem does_loop {test body orelse : Paths} (does : (loop test body orelse).Does action) :
    test.Does action ∨ body.Does action ∨ orelse.Does action := by
  obtain ⟨trace, completion, path, member⟩ := does
  have inTwo {one other : Paths} {early late : List Action} {how last : Completion}
      (path : one early how) (later : other late last) (member : action ∈ early ++ late) :
      one.Does action ∨ other.Does action := by
    rcases List.mem_append.mp member with early | late
    · exact Or.inl ⟨_, _, path, early⟩
    · exact Or.inr ⟨_, _, later, late⟩
  induction path with
  | fails path _ => exact Or.inl ⟨_, _, path, member⟩
  | exhausted path later => exact (inTwo path later member).imp_right Or.inr
  | breaks path later => exact (inTwo path later member).imp_right Or.inl
  | leaves path later _ => exact (inTwo path later member).imp_right Or.inl
  | again path later _ _ induction =>
      rcases List.mem_append.mp member with early | late
      · exact (inTwo path later early).imp_right Or.inl
      · exact induction late

theorem does_rescued {body orelse rescue : Paths}
    (does : (rescued body orelse rescue).Does action) :
    body.Does action ∨ orelse.Does action ∨ rescue.Does action := by
  obtain ⟨trace, completion, path, member⟩ := does
  cases path with
  | completes path later =>
      rcases List.mem_append.mp member with early | late
      · exact Or.inl ⟨_, _, path, early⟩
      · exact Or.inr (Or.inl ⟨_, _, later, late⟩)
  | rescues path later =>
      rcases List.mem_append.mp member with early | late
      · exact Or.inl ⟨_, _, path, early⟩
      · exact Or.inr (Or.inr ⟨_, _, later, late⟩)
  | leaves path _ _ => exact Or.inl ⟨_, _, path, member⟩

theorem does_finished (does : (finished first second).Does action) :
    first.Does action ∨ second.Does action := by
  obtain ⟨trace, completion, path, member⟩ := does
  cases path with
  | resumes path later =>
      rcases List.mem_append.mp member with early | late
      · exact Or.inl ⟨_, _, path, early⟩
      · exact Or.inr ⟨_, _, later, late⟩
  | overrides path later _ =>
      rcases List.mem_append.mp member with early | late
      · exact Or.inl ⟨_, _, path, early⟩
      · exact Or.inr ⟨_, _, later, late⟩

private theorem does_completed {body : Paths} (does : (completed body).Does action) :
    body.Does action := by
  obtain ⟨trace, completion, ⟨path, _⟩, member⟩ := does
  exact ⟨_, _, path, member⟩

private theorem does_absorbed {body : Paths} (does : (absorbed body).Does action) :
    body.Does action := by
  obtain ⟨trace, completion, ⟨⟨inner, path, _⟩, _⟩, member⟩ := does
  exact ⟨_, _, path, member⟩

theorem does_failed {pattern : Paths} (does : (failed pattern).Does action) :
    pattern.Does action := by
  obtain ⟨trace, completion, ⟨_, whole, inner, path, part⟩, member⟩ := does
  exact ⟨whole, inner, path, part.subset member⟩

theorem does_dispatch {handlers : List (Paths × Paths)} (does : (dispatch handlers).Does action) :
    ∃ handler ∈ handlers, handler.1.Does action ∨ handler.2.Does action := by
  induction handlers with
  | nil => exact absurd does not_does_stop
  | cons handler rest induction =>
      rcases does_andThen does with does | does
      · exact ⟨handler, List.mem_cons_self, Or.inl does⟩
      · rcases does_either does with does | does
        · exact ⟨handler, List.mem_cons_self, Or.inr does⟩
        · obtain ⟨other, member, does⟩ := induction does
          exact ⟨other, List.mem_cons_of_mem _ member, does⟩

theorem does_dispatchGroup {handlers : List (Paths × Paths)} {handled failed : Bool}
    (does : (dispatchGroup handled failed handlers).Does action) :
    ∃ handler ∈ handlers, handler.1.Does action ∨ handler.2.Does action := by
  induction handlers generalizing handled failed with
  | nil =>
      cases handled <;> cases failed <;>
        first | exact absurd does not_does_stop | exact absurd does not_does_attempt
  | cons handler rest induction =>
      obtain ⟨test, body⟩ := handler
      have later {handled failed : Bool} (does : (dispatchGroup handled failed rest).Does action) :
          ∃ other ∈ (test, body) :: rest, other.1.Does action ∨ other.2.Does action := by
        obtain ⟨other, member, does⟩ := induction does
        exact ⟨other, List.mem_cons_of_mem _ member, does⟩
      simp only [dispatchGroup] at does
      rcases does_andThen does with does | does
      · exact ⟨(test, body), List.mem_cons_self, Or.inl does⟩
      · rcases does_either does with does | does
        · exact later does
        · rcases does_either does with does | does
          · rcases does_andThen does with does | does
            · exact ⟨(test, body), List.mem_cons_self, Or.inr (does_completed does)⟩
            · exact later does
          · rcases does_andThen does with does | does
            · exact ⟨(test, body), List.mem_cons_self, Or.inr (does_absorbed does)⟩
            · exact later does

theorem does_select {arms : List (Paths × Paths × Paths)} (does : (select arms).Does action) :
    ∃ arm ∈ arms, arm.1.Does action ∨ arm.2.1.Does action ∨ arm.2.2.Does action := by
  induction arms with
  | nil => exact absurd does not_does_done
  | cons arm rest induction =>
      have later (does : (select rest).Does action) :
          ∃ other ∈ arm :: rest,
            other.1.Does action ∨ other.2.1.Does action ∨ other.2.2.Does action := by
        obtain ⟨other, member, does⟩ := induction does
        exact ⟨other, List.mem_cons_of_mem _ member, does⟩
      rcases does_either does with does | does
      · rcases does_andThen does with does | does
        · exact ⟨arm, List.mem_cons_self, Or.inl (does_failed does)⟩
        · exact later does
      · rcases does_andThen does with does | does
        · exact ⟨arm, List.mem_cons_self, Or.inl does⟩
        · rcases does_andThen does with does | does
          · exact ⟨arm, List.mem_cons_self, Or.inr (Or.inl does)⟩
          · rcases does_either does with does | does
            · exact ⟨arm, List.mem_cons_self, Or.inr (Or.inr does)⟩
            · exact later does

end Paths

end SafeRefactor
