import SafeRefactor.Proofs.LiveIn
import SafeRefactor.Region.DataFlow

/-!
# Inputs and outputs of a region

A variable that is read after a region is an output.  It is an input as well only if it
is live into the region: assigning it on some paths does not make the region need its
value.  So the code made from a region may come to its end without a value for an
output that it assigns conditionally and never reads.
-/

namespace SafeRefactor

/-- A variable of a symbol set has the name. -/
def SymbolSet.Names (symbols : SymbolSet) (name : String) : Prop :=
  ∃ symbol ∈ symbols, symbol.kind.isVariable = true ∧ symbol.name = name

theorem SymbolSet.mem_namesOf {symbols : SymbolSet} {name : String} :
    name ∈ namesOf (variablesOf symbols) ↔ symbols.Names name := by
  simp only [namesOf, variablesOf, List.mem_map, List.mem_filter, SymbolSet.Names, and_assoc]

theorem mem_namesOf_append {left right : List Symbol} {name : String} :
    name ∈ namesOf (left ++ right) ↔ name ∈ namesOf left ∨ name ∈ namesOf right := by
  rw [namesOf, List.map_append, List.mem_append]
  exact Iff.rfl

namespace Model

theorem mem_outputs {model : Model} {nodes : List Node} {flow : RegionFlow} {name : String} :
    name ∈ (model.factsOf nodes flow).outputs ↔ flow.liveOut.Names name := by
  unfold factsOf
  rw [Text.mem_sortedNames, SymbolSet.mem_namesOf]

theorem not_mem_locals {model : Model} {nodes : List Node} {flow : RegionFlow} {name : String}
    (output : flow.liveOut.Names name) : name ∉ (model.factsOf nodes flow).locals := by
  have listed : name ∈ Text.sortedNames (namesOf (variablesOf flow.liveOut)) := by
    rwa [Text.mem_sortedNames, SymbolSet.mem_namesOf]
  unfold factsOf
  simp only [Text.mem_sortedNames, List.mem_filter, Bool.not_eq_true', not_and]
  intro _ absent
  rw [List.contains_iff_mem.mpr listed] at absent
  cases absent

/-- What the fail-open pass adds is no output, so an output is an input only if it is live in. -/
theorem mem_inputs_of_output {model : Model} {nodes : List Node} {flow : RegionFlow}
    {name : String} (output : flow.liveOut.Names name) :
    name ∈ (model.factsOf nodes flow).inputs ↔ flow.liveIn.Names name := by
  have listed : name ∈ Text.sortedNames (namesOf (variablesOf flow.liveOut)) := by
    rwa [Text.mem_sortedNames, SymbolSet.mem_namesOf]
  unfold factsOf
  rw [Text.mem_sortedNames, mem_namesOf_append]
  constructor
  · rintro (needed | unaccounted)
    · exact SymbolSet.mem_namesOf.mp needed
    · obtain ⟨symbol, member, rfl⟩ := List.mem_map.mp unaccounted
      have outside := (List.mem_filter.mp member).2
      simp only [Bool.and_eq_true, Bool.not_eq_true'] at outside
      rw [List.contains_iff_mem.mpr listed] at outside
      cases outside.1.1
  · exact fun needed => Or.inl (SymbolSet.mem_namesOf.mpr needed)

/-- An output that is not assigned on all paths is an input if the region may read it before it is
assigned, and otherwise only if another variable of its name is live in. -/
theorem inputs_of_outputs {path : String} {tree : Node} {model : Model}
    (wellFormed : tree.WellFormed) (built : build path tree = .ok model) {parent first : Node}
    {role : Role} {rest : List Node} (siblings : tree.Siblings parent role (first :: rest)) :
    ∃ flow, model.regionFlow? (first :: rest) = .ok flow ∧
      ∀ symbol ∈ flow.liveOut, symbol.kind.isVariable = true → symbol ∉ flow.alwaysAssigned →
        model.Arrives first (first :: rest) symbol →
          symbol.name ∈ (model.dataFlow (first :: rest)).outputs ∧
          symbol.name ∉ (model.dataFlow (first :: rest)).locals ∧
          (symbol.name ∈ (model.dataFlow (first :: rest)).inputs ↔ flow.liveIn.Names symbol.name) ∧
          (symbol ∈ (Track.follow
              (Frame.ofModel model (model.trackedSymbols (model.scopeOf first)))
              (first :: rest) {}).exposed →
            symbol.name ∈ (model.dataFlow (first :: rest)).inputs) := by
  have settles := settles_of_build built
  refine ⟨model.flowOf first rest,
    regionFlow?_of_fits (siblings.fits wellFormed List.mem_cons_self), ?_⟩
  intro symbol live isVariable _ arrives
  have facts : model.dataFlow (first :: rest) =
      model.factsOf (first :: rest) (model.flowOf first rest) := rfl
  have output : (model.flowOf first rest).liveOut.Names symbol.name :=
    ⟨symbol, live, isVariable, rfl⟩
  rw [facts]
  refine ⟨mem_outputs.mpr output, not_mem_locals output, mem_inputs_of_output output, ?_⟩
  intro exposed
  have distinct : model.tree.Distinct := by
    rw [settles.source]
    exact wellFormed.distinct
  refine (mem_inputs_of_output output).mpr ⟨symbol, ?_, isVariable, rfl⟩
  exact List.mem_filter.mpr ⟨exposed, arrives.reachesRegion distinct⟩

/-- The statement `if flag: value = 1`. -/
def setting : Node :=
  .mk .ifStmt ⟨7, .body, some ⟨⟨3, 4⟩, ⟨4, 17⟩⟩⟩ [
    .mk (.name "flag" .load) ⟨8, .test, some ⟨⟨3, 7⟩, ⟨3, 11⟩⟩⟩ [],
    .mk .assign ⟨9, .body, some ⟨⟨4, 8⟩, ⟨4, 17⟩⟩⟩ [
      .mk (.name "value" .store) ⟨10, .target, some ⟨⟨4, 8⟩, ⟨4, 13⟩⟩⟩ [],
      .mk (.constant .int "1") ⟨11, .value, some ⟨⟨4, 16⟩, ⟨4, 17⟩⟩⟩ []]]

/-- A function that gives a variable a value, sets it on one branch and returns it. -/
def settingFunction : Node :=
  .mk (.functionDef false "f" none) ⟨1, .body, some ⟨⟨1, 0⟩, ⟨5, 16⟩⟩⟩ [
    .mk (.parameters []) ⟨2, .parameters, none⟩ [
      .mk (.parameter "flag" none) ⟨3, .positional, some ⟨⟨1, 6⟩, ⟨1, 10⟩⟩⟩ []],
    .mk .assign ⟨4, .body, some ⟨⟨2, 4⟩, ⟨2, 13⟩⟩⟩ [
      .mk (.name "value" .store) ⟨5, .target, some ⟨⟨2, 4⟩, ⟨2, 9⟩⟩⟩ [],
      .mk (.constant .int "0") ⟨6, .value, some ⟨⟨2, 12⟩, ⟨2, 13⟩⟩⟩ []],
    setting,
    .mk .returnStmt ⟨12, .body, some ⟨⟨5, 4⟩, ⟨5, 16⟩⟩⟩ [
      .mk (.name "value" .load) ⟨13, .value, some ⟨⟨5, 11⟩, ⟨5, 16⟩⟩⟩ []]]

def settingModule : Node :=
  .mk .module ⟨0, .root, none⟩ [settingFunction]

theorem siblings_setting : settingModule.Siblings settingFunction .body [setting] where
  inside := Node.child_mem_nodes List.mem_cons_self
  block := rfl
  contiguous := ⟨[_], [_], rfl⟩

private theorem setting_found : ∃ model symbol, build "m.py" settingModule = .ok model ∧
    symbol ∈ (model.flowOf setting []).liveOut ∧ symbol.kind.isVariable = true ∧
    symbol ∉ (model.flowOf setting []).alwaysAssigned ∧
    model.Arrives setting [setting] symbol ∧
    ¬ (model.flowOf setting []).liveIn.Names symbol.name := by
  have checked : (build "m.py" settingModule).toOption.any (fun model =>
      let flow := model.flowOf setting []
      flow.liveOut.any fun symbol =>
        symbol.kind.isVariable && decide (symbol ∉ flow.alwaysAssigned) &&
        (flow.liveIn.all fun other => decide (other.name ≠ symbol.name)) &&
        (model.bindingsOf symbol).any fun binding =>
          decide (binding.node.id ∉ regionIds [setting]) &&
            decide (binding.start < setting.start)) = true := by cbv
  obtain ⟨model, built, known⟩ := exists_of_check checked
  simp only [List.any_eq_true, List.all_eq_true, Bool.and_eq_true, decide_eq_true_eq] at known
  obtain ⟨symbol, live, ⟨⟨isVariable, conditional⟩, unread⟩, binding, bound, outside,
    before⟩ := known
  refine ⟨model, symbol, built, live, isVariable, conditional, .earlier bound outside before, ?_⟩
  rintro ⟨other, needed, _, same⟩
  exact unread other needed same

/-- The variable is an output which the branch assigns only sometimes and which another value can
reach, and still it is no input. -/
theorem conditional_output_not_input : ¬ ∀ model flow, build "m.py" settingModule = .ok model →
    model.regionFlow? [setting] = .ok flow → ∀ symbol ∈ flow.liveOut,
      symbol.kind.isVariable = true → symbol ∉ flow.alwaysAssigned →
      model.Arrives setting [setting] symbol →
      symbol.name ∈ (model.dataFlow [setting]).inputs := by
  intro claimed
  obtain ⟨model, symbol, built, live, isVariable, conditional, arrives, unread⟩ := setting_found
  have ok : model.regionFlow? [setting] = .ok (model.flowOf setting []) :=
    regionFlow?_of_fits (by decide)
  have input := claimed model _ built ok symbol live isVariable conditional arrives
  exact unread ((mem_inputs_of_output ⟨symbol, live, isVariable, rfl⟩).mp input)

/-- Of that variable the facts say that it is an output and neither an input nor a local. -/
theorem inputs_of_outputs_setting :
    ∃ model, build "m.py" settingModule = .ok model ∧ ∃ symbol ∈ (model.flowOf setting []).liveOut,
      symbol.name ∈ (model.dataFlow [setting]).outputs ∧
      symbol.name ∉ (model.dataFlow [setting]).locals ∧
      symbol.name ∉ (model.dataFlow [setting]).inputs := by
  obtain ⟨model, symbol, built, live, isVariable, conditional, arrives, unread⟩ := setting_found
  have ok : model.regionFlow? [setting] = .ok (model.flowOf setting []) :=
    regionFlow?_of_fits (by decide)
  obtain ⟨flow, found, all⟩ :=
    inputs_of_outputs ⟨by decide, by decide⟩ built siblings_setting
  obtain rfl : model.flowOf setting [] = flow := Except.ok.inj (ok.symm.trans found)
  obtain ⟨output, notLocal, input, _⟩ := all symbol live isVariable conditional arrives
  exact ⟨model, built, symbol, live, output, notLocal, fun listed => unread (input.mp listed)⟩

end Model

end SafeRefactor
