import SafeRefactor.Proofs.Completeness
import SafeRefactor.Proofs.Enclosure
import SafeRefactor.Region.Extraction

/-!
# Places of hazards

A hazard of control flow counts where no function, lambda or class lies around it.  The
traversal hands down whether it is in a loop; a place is in a loop exactly if the way to it
leads into some loop other than through its `else`.  What the structural hazards are decides
whether a region can be extracted.
-/

namespace SafeRefactor

namespace Form

/-- Whether code of the construct runs in a frame of its own: functions, lambdas and classes. -/
def opensFrame : Form → Bool
  | .functionDef .. | .lambda | .classDef _ => true
  | _ => false

def isLoopExit : Form → Bool
  | .breakStmt | .continueStmt => true
  | _ => false

/-- Whether the construct suspends a generator. -/
def isYield : Form → Bool
  | .yield | .yieldFrom => true
  | _ => false

/-- Whether the construct suspends a coroutine. -/
def isAwait : Form → Bool
  | .await | .forLoop true | .withStmt true | .clause true => true
  | _ => false

end Form

namespace Node

/-- Each loop around the node has it in its `else`. -/
def OutsideLoops (around : List Node) (node : Node) : Prop :=
  Along (fun outer inner => outer.form.isLoop = true → inner.role = .orelse) around node

end Node

namespace Hazards

/-- The flag tells whether a construct of a certain form occurs; if loops matter, only where no loop
is around. -/
structure Reports (flag : Hazards → Bool) (causes : Form → Bool) (loopsMatter : Prop) : Prop where
  none : flag {} = false
  join : ∀ left right, flag (left.join right) = (flag left || flag right)
  construct : ∀ form, flag (ofConstruct form) = false
  control : ∀ inLoop form, flag (ofControl inLoop form) = true ↔
    causes form = true ∧ (loopsMatter → inLoop = false)

private theorem ofConstruct_flags (form : Form) :
    (ofConstruct form).loopExit = false ∧ (ofConstruct form).danglingLoopExit = false ∧
      (ofConstruct form).generators = false ∧ (ofConstruct form).asyncAwait = false := by
  cases form <;> exact ⟨rfl, rfl, rfl, rfl⟩

private theorem ofControl_flags (inLoop : Bool) (form : Form) :
    (ofControl inLoop form).loopExit = form.isLoopExit ∧
      (ofControl inLoop form).danglingLoopExit = (form.isLoopExit && !inLoop) ∧
      (ofControl inLoop form).generators = form.isYield ∧
      (ofControl inLoop form).asyncAwait = form.isAwait := by
  cases form with
  | forLoop isAsync | withStmt isAsync | clause isAsync =>
      cases isAsync <;> exact ⟨rfl, rfl, rfl, rfl⟩
  | _ => exact ⟨rfl, rfl, rfl, rfl⟩

theorem reports_loopExit : Reports loopExit Form.isLoopExit False where
  none := rfl
  join _ _ := rfl
  construct form := (ofConstruct_flags form).1
  control inLoop form := by simp [ofControl_flags]

theorem reports_danglingLoopExit : Reports danglingLoopExit Form.isLoopExit True where
  none := rfl
  join _ _ := rfl
  construct form := (ofConstruct_flags form).2.1
  control inLoop form := by simp [ofControl_flags]

theorem reports_generators : Reports generators Form.isYield False where
  none := rfl
  join _ _ := rfl
  construct form := (ofConstruct_flags form).2.2.1
  control inLoop form := by simp [ofControl_flags]

theorem reports_asyncAwait : Reports asyncAwait Form.isAwait False where
  none := rfl
  join _ _ := rfl
  construct form := (ofConstruct_flags form).2.2.2
  control inLoop form := by simp [ofControl_flags]

/-- What a node adds by itself, and under which conditions its constituents are looked at. -/
theorem ofNode_eq (nested inLoop : Bool) (node : Node) :
    ofNode nested inLoop node =
      ((if nested then {} else ofControl inLoop node.form).join (ofConstruct node.form)).join
        (ofAll (nested || node.form.opensFrame)
          (fun role => !node.form.opensFrame && (node.form.isLoop && role != .orelse || inLoop))
          node.children) := by
  cases node with
  | mk form info children => cases form <;> simp [ofNode, Form.opensFrame, Form.isLoop]

section

variable {flag : Hazards → Bool} {causes : Form → Bool} {loopsMatter : Prop}

theorem Reports.ofAll_iff (reports : Reports flag causes loopsMatter) {nested : Bool}
    {inLoop : Role → Bool} {nodes : List Node} :
    flag (ofAll nested inLoop nodes) = true ↔
      ∃ node ∈ nodes, flag (ofNode nested (inLoop node.role) node) = true := by
  induction nodes with
  | nil => simp [ofAll, reports.none]
  | cons node rest induction => simp [ofAll, reports.join, induction]

/-- A flag is raised in a tree by the constructs that cause it and have no frame around them; if
loops matter, also no loop. -/
theorem Reports.ofNode_iff (reports : Reports flag causes loopsMatter) {nested inLoop : Bool}
    {root : Node} :
    flag (ofNode nested inLoop root) = true ↔ nested = false ∧
      ∃ node around, node.Occurs [root] around ∧ causes node.form = true ∧
        (∀ outer ∈ around, outer.form.opensFrame = false) ∧
        (loopsMatter → inLoop = false ∧ Node.OutsideLoops around node) := by
  induction root using Node.induction generalizing nested inLoop with
  | step form info children induction =>
      rw [ofNode_eq, reports.join, reports.join, reports.construct, Bool.or_false, Bool.or_eq_true,
        reports.ofAll_iff]
      constructor
      · rintro (own | ⟨child, isChild, below⟩)
        · cases nested with
          | true => cases reports.none.symm.trans own
          | false =>
              obtain ⟨cause, outside⟩ := (reports.control _ _).mp own
              exact ⟨rfl, _, [], .here List.mem_cons_self, cause, nofun,
                fun matter => ⟨outside matter, Node.along_nil⟩⟩
        · obtain ⟨free, node, around, occurs, cause, frames, outside⟩ :=
            (induction child isChild).mp below
          obtain ⟨notNested, noFrame⟩ := Bool.or_eq_false_iff.mp free
          refine ⟨notNested, node, _ :: around, .inside List.mem_cons_self
            (Node.Occurs.iff_exists_root.mpr ⟨child, isChild, occurs⟩), cause, ?_, ?_⟩
          · exact List.forall_mem_cons.mpr ⟨noFrame, frames⟩
          · intro matter
            obtain ⟨entered, along⟩ := outside matter
            rw [noFrame, Bool.not_false, Bool.true_and, Bool.or_eq_false_iff] at entered
            refine ⟨entered.2, occurs.along_cons.mpr ⟨?_, along⟩⟩
            intro isLoop
            have entered := entered.1
            rw [isLoop, Bool.true_and] at entered
            simpa using entered
      · rintro ⟨rfl, node, around, occurs, cause, frames, outside⟩
        rcases Node.Occurs.iff_root.mp occurs with ⟨rfl, rfl⟩ | ⟨inner, below, rfl⟩
        · left
          exact (reports.control _ _).mpr ⟨cause, fun matter => (outside matter).1⟩
        · right
          obtain ⟨noFrame, frames⟩ := List.forall_mem_cons.mp frames
          obtain ⟨child, isChild, deeper⟩ := Node.Occurs.iff_exists_root.mp below
          refine ⟨child, isChild, (induction child isChild).mpr
            ⟨by simpa using noFrame, node, inner, deeper, cause, frames, ?_⟩⟩
          intro matter
          obtain ⟨notInLoop, along⟩ := outside matter
          obtain ⟨entering, along⟩ := deeper.along_cons.mp along
          refine ⟨?_, along⟩
          rw [noFrame, notInLoop, Bool.not_false, Bool.true_and, Bool.or_false,
            Bool.and_eq_false_imp]
          intro isLoop
          simpa using entering isLoop

theorem Reports.ofRegion_iff (reports : Reports flag causes loopsMatter) {code : List Node} :
    flag (ofRegion code) = true ↔
      ∃ node around, node.Occurs code around ∧ causes node.form = true ∧
        (∀ outer ∈ around, outer.form.opensFrame = false) ∧
        (loopsMatter → Node.OutsideLoops around node) := by
  rw [ofRegion, reports.ofAll_iff]
  constructor
  · rintro ⟨root, member, raised⟩
    obtain ⟨_, node, around, occurs, cause, frames, outside⟩ := reports.ofNode_iff.mp raised
    exact ⟨node, around, Node.Occurs.iff_exists_root.mpr ⟨root, member, occurs⟩, cause, frames,
      fun matter => (outside matter).2⟩
  · rintro ⟨node, around, occurs, cause, frames, outside⟩
    obtain ⟨root, member, inside⟩ := Node.Occurs.iff_exists_root.mp occurs
    exact ⟨root, member, reports.ofNode_iff.mpr ⟨rfl, node, around, inside, cause, frames,
      fun matter => ⟨rfl, outside matter⟩⟩⟩

end

end Hazards

namespace Assessment

theorem loopExit_mem_structuralErrors {hazards : Hazards} :
    "Cannot extract code containing break/continue statements" ∈ structuralErrors hazards ↔
      hazards.danglingLoopExit = true := by
  simp [structuralErrors]

theorem yield_mem_structuralErrors {hazards : Hazards} :
    "Cannot extract code containing yield statements" ∈ structuralErrors hazards ↔
      hazards.generators = true := by
  simp [structuralErrors]

/-- The assessment of a run of statements does not fail.  Its errors are those of the hazards of the
run, and with any of them it is a rejection. -/
theorem exists_assessment (model : Model) (settings : Settings) {containing : Option Node}
    (around : ∀ function ∈ containing, function.form.isFunction = true) {run : List Node}
    (nonempty : run ≠ []) (placed : ∀ statement ∈ run, statement.span.isSome) :
    ∃ assessment, ofStatements model settings containing run = .ok assessment ∧
      assessment.errors = structuralErrors (Hazards.ofRegion run) ∧
      (assessment.errors ≠ [] → assessment.rejection = some .structural) := by
  cases run with
  | nil => exact absurd rfl nonempty
  | cons first rest =>
      have isFunction : ∀ function ∈ containing.or (functionAround? model.tree first),
          function.form.isFunction = true := by
        intro function found
        cases containing with
        | none =>
            have isFirst : (model.tree.ancestors first.id).find?
                (fun outer => outer.form.isFunction) = some function := found
            have isFunction := List.find?_some isFirst
            exact isFunction
        | some given => exact around function found
      obtain ⟨early, returns⟩ : ∃ early, returnsEarly (Hazards.ofRegion (first :: rest))
          (containing.or (functionAround? model.tree first)) (first :: rest) = .ok early := by
        unfold returnsEarly isWholeBody
        split
        · split
          · exact ⟨_, rfl⟩
          · next function found =>
              have hasBody : function.form.hasBody = true := by
                have isFunction := isFunction function found
                generalize function.form = form at isFunction
                cases form with
                | functionDef isAsync name returns => rfl
                | _ => cases isFunction
              rw [if_pos hasBody]
              exact ⟨_, rfl⟩
        · exact ⟨_, rfl⟩
      have assessed : ofStatements model settings containing (first :: rest) =
          .ok (ofFacts settings (model.dataFlow (first :: rest)) (Hazards.ofRegion (first :: rest))
            early) := by
        have isPlaced := placed first List.mem_cons_self
        rw [ofStatements, Model.regionFlow?_of_placed model placed, returns]
        simp [Option.isNone_eq_false_iff.mpr isPlaced, Model.dataFlow]
      refine ⟨_, assessed, rfl, ?_⟩
      intro present
      exact if_neg fun empty => present (List.isEmpty_iff.mp empty)

end Assessment

end SafeRefactor
