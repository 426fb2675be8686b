import SafeRefactor.Proofs.Boundary
import SafeRefactor.Proofs.Provenance
import SafeRefactor.Proofs.ScopeTree

/-!
# Facts about a region are complete

The names that the facts list are increasing, those with a type are the ones that cross
the boundary or stay inside, and every occurrence of a followed variable in the region is
accounted for, also where the walk over the region does not go.
-/

namespace SafeRefactor

namespace DataFlowFacts

/-- The lists are increasing, no local is an output, and exactly the inputs, outputs and locals have
a type. -/
structure Normal (facts : DataFlowFacts) : Prop where
  inputs : facts.inputs.Pairwise (· < ·)
  outputs : facts.outputs.Pairwise (· < ·)
  locals : facts.locals.Pairwise (· < ·)
  captured : facts.captured.Pairwise (· < ·)
  declaredInside : facts.declaredInside.Pairwise (· < ·)
  apart : ∀ name ∈ facts.locals, name ∉ facts.outputs
  types : (facts.types.map Prod.fst).Pairwise (· < ·)
  typed : ∀ name, name ∈ facts.types.map Prod.fst ↔
    name ∈ facts.inputs ∨ name ∈ facts.outputs ∨ name ∈ facts.locals

/-- The name has its part in the facts. -/
def Accounts (facts : DataFlowFacts) (name : String) : Prop :=
  name ∈ facts.inputs ∨ name ∈ facts.outputs ∨ name ∈ facts.locals ∨ name ∈ facts.declaredInside

end DataFlowFacts

/-- What crosses the boundary of a region was read or written in it, and everything listed is
followed. -/
structure RegionFlow.Contained (tracked : SymbolSet) (flow : RegionFlow) : Prop where
  liveIn : flow.liveIn ⊆ flow.read
  liveOut : flow.liveOut ⊆ flow.written
  alwaysAssigned : flow.alwaysAssigned ⊆ flow.written
  read : flow.read ⊆ tracked
  written : flow.written ⊆ tracked
  captured : flow.captured ⊆ tracked
  declaredInside : flow.declaredInside ⊆ tracked

namespace Model

section

variable {model : Model} {nodes : List Node} {flow : RegionFlow}

/-- The variables of a region that nothing else accounts for. -/
def unaccounted (model : Model) (nodes : List Node) (flow : RegionFlow) : List Symbol :=
  let facts := model.factsOf nodes flow
  (model.mentionedVariables (model.trackedSymbols (model.scopeOf (nodes.headD default)))
    nodes).filter fun symbol =>
      !facts.outputs.contains symbol.name && !facts.locals.contains symbol.name &&
        !facts.declaredInside.contains symbol.name

/-- The variables that give the facts their names and types. -/
def classified (model : Model) (nodes : List Node) (flow : RegionFlow) : List Symbol :=
  variablesOf flow.liveIn ++ variablesOf flow.liveOut ++
    flow.alwaysAssigned.filter (fun symbol => symbol.kind = .localVariable) ++
    model.unaccounted nodes flow

theorem mem_inputs {name : String} : name ∈ (model.factsOf nodes flow).inputs ↔
    name ∈ namesOf (variablesOf flow.liveIn) ∨ name ∈ namesOf (model.unaccounted nodes flow) := by
  rw [← mem_namesOf_append]
  exact Text.mem_sortedNames

private theorem mem_locals {name : String} : name ∈ (model.factsOf nodes flow).locals ↔
    name ∈ namesOf (flow.alwaysAssigned.filter (fun symbol => symbol.kind = .localVariable)) ∧
      name ∉ (model.factsOf nodes flow).outputs := by
  have listed : name ∈ (model.factsOf nodes flow).locals ↔
      name ∈ (namesOf (flow.alwaysAssigned.filter
        (fun symbol => symbol.kind = .localVariable))).filter
          (fun name => !(model.factsOf nodes flow).outputs.contains name) :=
    Text.mem_sortedNames
  rw [listed, List.mem_filter]
  simp

theorem mem_namesOf_classified {name : String} : name ∈ namesOf (model.classified nodes flow) ↔
    name ∈ (model.factsOf nodes flow).inputs ∨ name ∈ (model.factsOf nodes flow).outputs ∨
      name ∈ (model.factsOf nodes flow).locals := by
  rw [classified, mem_namesOf_append, mem_namesOf_append, mem_namesOf_append, mem_inputs,
    mem_locals, mem_outputs, ← SymbolSet.mem_namesOf]
  by_cases output : name ∈ namesOf (variablesOf flow.liveOut)
  · simp [output]
  · simp only [output, not_false_eq_true, and_true, or_false, false_or]
    tauto

theorem types_eq :
    (model.factsOf nodes flow).types =
      (Text.sortedNames ((model.factsOf nodes flow).inputs ++ (model.factsOf nodes flow).outputs ++
        (model.factsOf nodes flow).locals)).map (fun name => (name,
          (((model.classified nodes flow).map
            (fun symbol => (symbol.name, symbol.declaredType))).lookup name).getD anyType)) :=
  rfl

private theorem keys_of_types :
    (model.factsOf nodes flow).types.map Prod.fst =
      Text.sortedNames ((model.factsOf nodes flow).inputs ++ (model.factsOf nodes flow).outputs ++
        (model.factsOf nodes flow).locals) := by
  rw [types_eq, List.map_map]
  exact List.map_id _

theorem normal_factsOf (model : Model) (nodes : List Node) (flow : RegionFlow) :
    (model.factsOf nodes flow).Normal where
  inputs := Text.pairwise_sortedNames _
  outputs := Text.pairwise_sortedNames _
  locals := Text.pairwise_sortedNames _
  captured := Text.pairwise_sortedNames _
  declaredInside := Text.pairwise_sortedNames _
  apart := fun _ isLocal => (mem_locals.mp isLocal).2
  types := by
    rw [keys_of_types]
    exact Text.pairwise_sortedNames _
  typed := by
    intro name
    rw [keys_of_types, Text.mem_sortedNames, List.mem_append, List.mem_append, or_assoc]

theorem normal_dataFlow (model : Model) (run : List Node) : (model.dataFlow run).Normal := by
  unfold dataFlow
  split
  · constructor
    all_goals simp
  · exact normal_factsOf model run _

theorem contained_regionFlow (model : Model) (run : List Node) :
    (model.regionFlow run).Contained (model.trackedIn run) := by
  have sourced := sourced_regionFlow model run
  constructor
  · exact sourced.liveIn
  · exact sourced.liveOut
  · exact sourced.alwaysAssigned
  · exact fun symbol member => (sourced.read symbol member).1
  · exact fun symbol member => (sourced.written symbol member).1
  · exact fun symbol member => (sourced.captured symbol member).1
  · exact sourced.declaredInside

/-- The fail-open pass looks at all nodes of the run, so it misses no variable. -/
theorem accounts_of_mentioned {symbol : Symbol} (mentioned : symbol ∈ model.mentionedVariables
      (model.trackedSymbols (model.scopeOf (nodes.headD default))) nodes) :
    (model.factsOf nodes flow).Accounts symbol.name := by
  by_cases known : symbol.name ∈ (model.factsOf nodes flow).outputs ∨
      symbol.name ∈ (model.factsOf nodes flow).locals ∨
        symbol.name ∈ (model.factsOf nodes flow).declaredInside
  · exact Or.inr known
  · refine Or.inl (mem_inputs.mpr (Or.inr (List.mem_map_of_mem ?_)))
    apply List.mem_filter.mpr
    refine ⟨mentioned, ?_⟩
    simpa [and_assoc] using known

end

theorem regionFlow?_of_placed (model : Model) {run : List Node}
    (placed : ∀ statement ∈ run, statement.span.isSome) :
    model.regionFlow? run = .ok (model.regionFlow run) := by
  cases run with
  | nil => rfl
  | cons first rest =>
      have isPlaced := placed first List.mem_cons_self
      rw [regionFlow?, Option.isNone_eq_false_iff.mpr isPlaced]
      rfl

/-- The facts about a run are in normal form and account for every name in it that means a followed
variable; its data flow is contained in what it reads, writes and follows. -/
theorem facts_are_complete {path : String} {tree : Node} {model : Model}
    (built : build path tree = .ok model) {run : List Node}
    (placed : ∀ statement ∈ run, statement.span.isSome) :
    ∃ flow, model.regionFlow? run = .ok flow ∧ flow.Contained (model.trackedIn run) ∧
      (model.dataFlow run).Normal ∧
      ∀ statement ∈ run, ∀ node ∈ statement.nodes, ∀ name symbol, node.identifier? = some name →
        model.resolve node = some symbol → symbol ∈ model.trackedIn run →
          symbol.kind.isVariable = true → (model.dataFlow run).Accounts name := by
  have settles := settles_of_build built
  refine ⟨_, regionFlow?_of_placed model placed, contained_regionFlow model run,
    normal_dataFlow model run, ?_⟩
  intro statement member node inside name symbol identifier resolved isTracked isVariable
  have named : symbol.name = name := by
    rw [resolve, identifier, Option.getD_some] at resolved
    exact name_of_lookup settles (scopeOf_mem settles node) resolved
  cases run with
  | nil => cases member
  | cons first rest =>
      rw [← named]
      apply accounts_of_mentioned
      apply List.mem_filterMap.mpr
      refine ⟨node, List.mem_flatMap.mpr ⟨statement, member, Node.mem_walk.mpr inside⟩, ?_⟩
      have isSymbol : node.identifier?.isSome := by
        rw [identifier]
        rfl
      rw [if_pos isSymbol, resolved, Option.filter_some]
      have followed : symbol ∈ model.trackedSymbols (model.scopeOf first) := isTracked
      exact if_pos (by simpa [isVariable] using followed)

/-- Of `if flag: value = 1` the facts list the flag as an input and the variable as an output. -/
theorem facts_are_complete_setting :
    (∀ statement ∈ [setting], statement.span.isSome) ∧
      ∃ model, build "m.py" settingModule = .ok model ∧
        (model.dataFlow [setting]).inputs = ["flag"] ∧
        (model.dataFlow [setting]).outputs = ["value"] ∧
        ∃ flow, model.regionFlow? [setting] = .ok flow ∧
          flow.Contained (model.trackedIn [setting]) ∧ (model.dataFlow [setting]).Normal := by
  have placed : ∀ statement ∈ [setting], statement.span.isSome := by decide
  have checked : (build "m.py" settingModule).toOption.any (fun model =>
      (model.dataFlow [setting]).inputs == ["flag"] &&
        (model.dataFlow [setting]).outputs == ["value"]) = true := by cbv
  obtain ⟨model, built, known⟩ := exists_of_check checked
  rw [Bool.and_eq_true] at known
  obtain ⟨flow, found, contained, normal, _⟩ := facts_are_complete built placed
  exact ⟨placed, model, built, eq_of_beq known.1, eq_of_beq known.2, flow, found, contained, normal⟩

end Model

end SafeRefactor
