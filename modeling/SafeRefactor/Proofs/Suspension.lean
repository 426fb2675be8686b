import SafeRefactor.Proofs.HazardPlaces

/-!
# Suspension in the frame of a region

A `yield` or `await` suspends the function that a region belongs to if it is evaluated in the
frame of the region: anywhere but in the code that a function, lambda or class of the region
runs in a frame of its own.  The header of such a definition is evaluated outside of it, yet
the traversal of hazards takes it for a part of the definition.
-/

namespace SafeRefactor

/-- Whether a definition has in the role the code that runs in its own frame. -/
def Role.isFrameCode : Role → Bool
  | .body | .result => true
  | _ => false

namespace Node

/-- The node is evaluated in the frame of the code it occurs in: no function, lambda or class around
it has it in the code of its own frame. -/
def InOwnFrame (around : List Node) (node : Node) : Prop :=
  Along (fun outer inner => outer.form.opensFrame = true → inner.role.isFrameCode = false)
    around node

/-- The node lies in the header of some function, lambda or class around it: in a decorator, the
parameter list, an annotation, a base or a keyword. -/
def InHeader (around : List Node) (node : Node) : Prop :=
  ¬ Along (fun outer inner => outer.form.opensFrame = true → inner.role.isFrameCode = true)
    around node

private theorem along_of_forall {holds : Node → Prop} {around : List Node} {node : Node}
    (all : ∀ outer ∈ around, holds outer) : Along (fun outer _ => holds outer) around node := by
  induction around with
  | nil => exact along_nil
  | cons outer rest induction =>
      obtain ⟨first, others⟩ := List.forall_mem_cons.mp all
      have along := induction others
      cases rest <;> exact List.isChain_cons_cons.mpr ⟨first, along⟩

private theorem forall_of_along {holds : Node → Prop} {around : List Node} {node : Node}
    (along : Along (fun outer _ => holds outer) around node) : ∀ outer ∈ around, holds outer := by
  induction around with
  | nil => exact nofun
  | cons outer rest induction =>
      have parts : holds outer ∧ Along (fun outer _ => holds outer) rest node := by
        cases rest <;> exact List.isChain_cons_cons.mp along
      exact List.forall_mem_cons.mpr ⟨parts.1, induction parts.2⟩

/-- No definition is around a node exactly if the node is evaluated in the frame of the code and
lies in no header. -/
theorem not_opensFrame_iff {around : List Node} {node : Node} :
    (∀ outer ∈ around, outer.form.opensFrame = false) ↔
      InOwnFrame around node ∧ ¬ InHeader around node := by
  rw [InHeader, not_not]
  constructor
  · intro closed
    have along : Along (fun outer _ => outer.form.opensFrame = false) around node :=
      along_of_forall closed
    exact ⟨along.imp fun outer inner none opens => absurd opens (by simp [none]),
      along.imp fun outer inner none opens => absurd opens (by simp [none])⟩
  · rintro ⟨own, code⟩
    apply forall_of_along
    apply List.isChain_iff_forall_rel_of_append_cons_cons.mpr
    intro outer inner before after way
    have notCode := List.isChain_iff_forall_rel_of_append_cons_cons.mp own way
    have isCode := List.isChain_iff_forall_rel_of_append_cons_cons.mp code way
    rw [Bool.eq_false_iff]
    intro opens
    exact Bool.false_ne_true ((notCode opens).symm.trans (isCode opens))

end Node

namespace Hazards

/-- A suspension is flagged exactly if it is evaluated in the frame of the region and lies in no
header of a definition.  What the generator flag tells is what the rejection names. -/
theorem suspension_is_flagged (code : List Node) :
    ((ofRegion code).generators = true ↔
      ∃ (node : Node) (around : List Node), node.Occurs code around ∧
        node.form.isYield = true ∧ Node.InOwnFrame around node ∧ ¬ Node.InHeader around node) ∧
    ((ofRegion code).asyncAwait = true ↔
      ∃ (node : Node) (around : List Node), node.Occurs code around ∧
        node.form.isAwait = true ∧ Node.InOwnFrame around node ∧ ¬ Node.InHeader around node) ∧
    ∀ (model : Model) (settings : Settings) (containing : Option Node), code ≠ [] →
      (∀ statement ∈ code, statement.span.isSome) →
      (∀ function ∈ containing, function.form.isFunction = true) →
      ∃ assessment, Assessment.ofStatements model settings containing code = .ok assessment ∧
        ("Cannot extract code containing yield statements" ∈ assessment.errors ↔
          (ofRegion code).generators = true) ∧
        ((ofRegion code).generators = true → assessment.rejection = some .structural) := by
  refine ⟨?_, ?_, ?_⟩
  · simpa only [← Node.not_opensFrame_iff, false_implies, and_true] using
      reports_generators.ofRegion_iff
  · simpa only [← Node.not_opensFrame_iff, false_implies, and_true] using
      reports_asyncAwait.ofRegion_iff
  · intro model settings containing nonempty placed isFunction
    obtain ⟨assessment, assessed, errors, rejects⟩ :=
      Assessment.exists_assessment model settings isFunction nonempty placed
    have named :
        "Cannot extract code containing yield statements" ∈ assessment.errors ↔
          (ofRegion code).generators = true := by
      rw [errors, Assessment.yield_mem_structuralErrors]
    exact ⟨assessment, assessed, named,
      fun suspends => rejects (List.ne_nil_of_mem (named.mpr suspends))⟩

/-- The definition `def g(x=(yield)): pass`. -/
def lendingDefinition : Node :=
  .mk (.functionDef false "g" none) ⟨3, .body, some ⟨⟨2, 4⟩, ⟨3, 12⟩⟩⟩ [
    .mk (.parameters []) ⟨4, .parameters, none⟩ [
      .mk (.parameter "x" none) ⟨5, .positional, some ⟨⟨2, 10⟩, ⟨2, 11⟩⟩⟩ [],
      .mk .yield ⟨6, .default, some ⟨⟨2, 13⟩, ⟨2, 18⟩⟩⟩ []],
    .mk .passStmt ⟨7, .body, some ⟨⟨3, 8⟩, ⟨3, 12⟩⟩⟩ []]

def handingStatement : Node :=
  .mk .exprStmt ⟨8, .body, some ⟨⟨4, 4⟩, ⟨4, 11⟩⟩⟩ [
    .mk .yield ⟨9, .value, some ⟨⟨4, 4⟩, ⟨4, 11⟩⟩⟩ [
      .mk (.name "g" .load) ⟨10, .value, some ⟨⟨4, 10⟩, ⟨4, 11⟩⟩⟩ []]]

def lendingModule : Node :=
  .mk .module ⟨0, .root, none⟩ [
    .mk (.functionDef false "f" none) ⟨1, .body, some ⟨⟨1, 0⟩, ⟨4, 11⟩⟩⟩ [
      .mk (.parameters []) ⟨2, .parameters, none⟩ [], lendingDefinition, handingStatement]]

/-- The second statement is found and rejects the extraction of both. -/
theorem suspension_is_flagged_statement :
    (∃ (node : Node) (around : List Node),
      node.Occurs [lendingDefinition, handingStatement] around ∧ node.form.isYield = true ∧
      Node.InOwnFrame around node ∧ ¬ Node.InHeader around node) ∧
    ∃ model, Model.build "m.py" lendingModule = .ok model ∧
      ∃ assessment, Assessment.ofStatements model {} none [lendingDefinition, handingStatement] =
          .ok assessment ∧
        "Cannot extract code containing yield statements" ∈ assessment.errors ∧
        assessment.rejection = some .structural := by
  have suspends : (ofRegion [lendingDefinition, handingStatement]).generators = true := by decide
  have checked : (Model.build "m.py" lendingModule).toOption.any (fun _ => true) = true := by cbv
  obtain ⟨model, built, _⟩ := Model.exists_of_check checked
  obtain ⟨found, _, assessed⟩ := suspension_is_flagged [lendingDefinition, handingStatement]
  obtain ⟨assessment, computed, rejects, rejection⟩ :=
    assessed model {} none (by simp) (by decide) (by simp)
  exact ⟨found.mp suspends, model, built, assessment, computed, rejects.mpr suspends,
    rejection suspends⟩

/-- The default of a parameter suspends the frame of the region, and the definition alone is not
flagged. -/
theorem header_suspension_unflagged :
    ¬ ((ofRegion [lendingDefinition]).generators = true ↔
      ∃ (node : Node) (around : List Node), node.Occurs [lendingDefinition] around ∧
        node.form.isYield = true ∧ Node.InOwnFrame around node) := by
  intro claimed
  have unflagged : (ofRegion [lendingDefinition]).generators = false := by decide
  have flagged : (ofRegion [lendingDefinition]).generators = true := by
    apply claimed.mpr
    refine ⟨_, [lendingDefinition, lendingDefinition.children.getD 0 default],
      .inside List.mem_cons_self (.inside List.mem_cons_self
        (.here (List.mem_cons_of_mem _ List.mem_cons_self))), rfl, ?_⟩
    simp [Node.InOwnFrame, Node.Along, lendingDefinition, Role.isFrameCode, Form.opensFrame]
  exact Bool.false_ne_true (unflagged.symm.trans flagged)

end Hazards

end SafeRefactor
