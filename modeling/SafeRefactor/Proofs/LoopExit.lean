import SafeRefactor.Proofs.HazardPlaces

/-!
# Loop exits of a region

A region may contain a `break` or `continue` as long as it contains the loop that the statement
belongs to.  The `else` of a loop runs after it, so that a `break` there belongs to the loop
around.
-/

namespace SafeRefactor

namespace Hazards

/-- A region has a loop exit exactly if a `break` or `continue` stands in it outside of functions,
lambdas and classes, and a dangling one exactly if no loop of the region holds such a statement
outside of its `else`.  Dangling loop exits are what the rejection names. -/
theorem loop_exits_are_found (code : List Node) :
    ((ofRegion code).loopExit = true ↔
      ∃ (exit : Node) (around : List Node), exit.Occurs code around ∧
        exit.form.isLoopExit = true ∧ ∀ outer ∈ around, outer.form.opensFrame = false) ∧
    ((ofRegion code).danglingLoopExit = true ↔
      ∃ (exit : Node) (around : List Node), exit.Occurs code around ∧
        exit.form.isLoopExit = true ∧ (∀ outer ∈ around, outer.form.opensFrame = false) ∧
        Node.OutsideLoops around exit) ∧
    ∀ (model : Model) (settings : Settings) (containing : Option Node), code ≠ [] →
      (∀ statement ∈ code, statement.span.isSome) →
      (∀ function ∈ containing, function.form.isFunction = true) →
      ∃ assessment, Assessment.ofStatements model settings containing code = .ok assessment ∧
        ("Cannot extract code containing break/continue statements" ∈ assessment.errors ↔
          (ofRegion code).danglingLoopExit = true) ∧
        ((ofRegion code).danglingLoopExit = true → assessment.rejection = some .structural) := by
  refine ⟨?_, ?_, ?_⟩
  · simpa only [false_implies, and_true] using reports_loopExit.ofRegion_iff
  · simpa only [true_implies] using reports_danglingLoopExit.ofRegion_iff
  · intro model settings containing nonempty placed isFunction
    obtain ⟨assessment, assessed, errors, rejects⟩ :=
      Assessment.exists_assessment model settings isFunction nonempty placed
    have named :
        "Cannot extract code containing break/continue statements" ∈ assessment.errors ↔
          (ofRegion code).danglingLoopExit = true := by
      rw [errors, Assessment.loopExit_mem_structuralErrors]
    exact ⟨assessment, assessed, named,
      fun dangling => rejects (List.ne_nil_of_mem (named.mpr dangling))⟩

/-- The loop `for item in items: pass` with a `break` in its `else`. -/
def huntingLoop : Node :=
  .mk (.forLoop false) ⟨3, .body, some ⟨⟨2, 4⟩, ⟨5, 13⟩⟩⟩ [
    .mk (.name "item" .store) ⟨4, .target, some ⟨⟨2, 8⟩, ⟨2, 12⟩⟩⟩ [],
    .mk (.name "items" .load) ⟨5, .iterable, some ⟨⟨2, 16⟩, ⟨2, 21⟩⟩⟩ [],
    .mk .passStmt ⟨6, .body, some ⟨⟨3, 8⟩, ⟨3, 12⟩⟩⟩ [],
    .mk .breakStmt ⟨7, .orelse, some ⟨⟨5, 8⟩, ⟨5, 13⟩⟩⟩ []]

def huntingModule : Node :=
  .mk .module ⟨0, .root, none⟩ [
    .mk .whileLoop ⟨1, .body, some ⟨⟨1, 0⟩, ⟨5, 13⟩⟩⟩ [
      .mk (.constant .bool "True") ⟨2, .test, some ⟨⟨1, 6⟩, ⟨1, 10⟩⟩⟩ [], huntingLoop]]

/-- A `break` in the `else` of a loop leaves the loop around it, so the inner loop alone cannot be
extracted. -/
theorem loop_exits_are_found_else :
    (∃ (exit : Node) (around : List Node), exit.Occurs [huntingLoop] around ∧
      exit.form.isLoopExit = true ∧ (∀ outer ∈ around, outer.form.opensFrame = false) ∧
      Node.OutsideLoops around exit) ∧
    ∃ model, Model.build "m.py" huntingModule = .ok model ∧
      ∃ assessment, Assessment.ofStatements model {} none [huntingLoop] = .ok assessment ∧
        "Cannot extract code containing break/continue statements" ∈ assessment.errors ∧
        assessment.rejection = some .structural := by
  have dangling : (ofRegion [huntingLoop]).danglingLoopExit = true := by decide
  have checked : (Model.build "m.py" huntingModule).toOption.any (fun _ => true) = true := by cbv
  obtain ⟨model, built, _⟩ := Model.exists_of_check checked
  obtain ⟨_, found, assessed⟩ := loop_exits_are_found [huntingLoop]
  obtain ⟨assessment, computed, rejects, rejection⟩ :=
    assessed model {} none (by simp) (by decide) (by simp)
  exact ⟨found.mp dangling, model, built, assessment, computed, rejects.mpr dangling,
    rejection dangling⟩

end Hazards

end SafeRefactor
