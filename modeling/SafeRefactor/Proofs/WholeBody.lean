import SafeRefactor.Proofs.Containment
import SafeRefactor.Proofs.LiveOut
import SafeRefactor.Proofs.Variables

/-!
# The whole body of a function

When the region is all of the body of a function, nothing follows it, no loop is around it,
and all bindings of the function's variables but its parameters lie in it.  So the region
gives away no variable of the function, it declares all of them that are not parameters, and
it needs only parameters and variables of the functions around.
-/

namespace SafeRefactor

/-- The parameters of the function stand before whatever binds a name in its body. -/
def Node.ParametersFirst (function : Node) : Prop :=
  ∀ parameter ∈ function.parameters, ∀ statement ∈ function.field .body,
    ∀ node ∈ statement.nodes, node.form.boundName?.isSome → parameter.start < node.start

instance (function : Node) : Decidable function.ParametersFirst :=
  inferInstanceAs (Decidable (∀ parameter ∈ function.parameters,
    ∀ statement ∈ function.field .body, ∀ node ∈ statement.nodes, _ → _))

theorem mem_regionIds {run : List Node} {id : NodeId} :
    id ∈ regionIds run ↔ ∃ root ∈ run, ∃ node ∈ root.nodes, node.id = id := by
  simp only [regionIds, List.mem_flatMap, List.mem_map, Node.mem_walk]

private theorem Node.followers_getLast {parent last : Node} {role : Role}
    (distinct : parent.Distinct)
    (isLast : (parent.field role).getLast? = some last) : parent.followers last = [] := by
  obtain ⟨isChild, plays⟩ := mem_field.mp (List.mem_of_getLast? isLast)
  obtain ⟨earlier, whole, _, absent⟩ := field_eq_append distinct isChild
  rw [← plays, whole] at isLast
  cases later : parent.followers last with
  | nil => rfl
  | cons next rest =>
      rw [later] at isLast absent
      rw [List.getLast?_append, List.getLast?_cons_cons] at isLast
      have listed : last ∈ next :: rest := by
        apply List.mem_of_getLast?
        simpa using isLast
      exact absurd listed absent

namespace Model

theorem symbol_of_input {path : String} {tree : Node} {model : Model}
    (settles : model.Settles path tree) {run : List Node} {name : String}
    (input : name ∈ (model.dataFlow run).inputs) :
    ∃ symbol ∈ model.trackedIn run, symbol.name = name ∧ symbol.kind.isVariable = true ∧
      (symbol ∈ (model.regionFlow run).liveIn ∨
        symbol ∉ (model.regionFlow run).declaredInside) := by
  cases run with
  | nil => cases input
  | cons first rest =>
      rcases mem_inputs.mp input with needed | left
      · obtain ⟨symbol, member, named⟩ := List.mem_map.mp needed
        obtain ⟨tracked, isVariable, _⟩ := means_of_classified settles
          (List.mem_append_left _ (List.mem_append_left _ (List.mem_append_left _ member)))
        exact ⟨symbol, tracked, named, isVariable, Or.inl (List.mem_filter.mp member).1⟩
      · obtain ⟨symbol, member, named⟩ := List.mem_map.mp left
        obtain ⟨tracked, isVariable, _⟩ :=
          means_of_classified settles (List.mem_append_right _ member)
        refine ⟨symbol, tracked, named, isVariable, Or.inr ?_⟩
        intro declared
        have listed : symbol.name ∈ (model.factsOf (first :: rest)
            (model.regionFlow (first :: rest))).declaredInside :=
          Text.mem_sortedNames.mpr (List.mem_map_of_mem declared)
        have absent := (List.mem_filter.mp member).2
        simp [listed] at absent

section

variable {path : String} {tree : Node} {model : Model} (settles : model.Settles path tree)
  (wellFormed : tree.WellFormed) {function : Node} {own : Scope}
  (isFunction : function.form.isFunction = true) (introduced : model.Introduces function own)

include settles wellFormed introduced

private theorem function_mem : function ∈ tree.nodes := by
  have inTree := (opens_of_mem settles wellFormed introduced.1).1
  rwa [introduced.2] at inTree

theorem siblings_body : tree.Siblings function .body (function.field .body) where
  inside := function_mem settles wellFormed introduced
  block := rfl
  contiguous := List.infix_rfl

include isFunction

theorem scopeOf_body {statement : Node} (member : statement ∈ function.field .body) :
    model.scopeOf statement = own := by
  have isInner : statement ∈ function.innerParts := by
    obtain ⟨isAsync, name, returns, form⟩ := Form.functionDef_of_isFunction isFunction
    rw [Node.innerParts, form]
    exact List.mem_append_right _ member
  have inTree := function_mem settles wellFormed introduced
  have other := introduces_scopeOf settles wellFormed inTree isInner
  apply eq_of_settled_key settles wellFormed other.1 introduced.1
  rw [Scope.key, Scope.key, other.2, introduced.2]

theorem frames_of_function : ∃ rest, model.frames own = own :: rest := by
  have kind := kind_of_function settles wellFormed isFunction introduced
  rw [frames, List.takeWhile_cons_of_pos (by simp [kind]), List.filter_cons_of_pos (by simp [kind])]
  exact ⟨_, rfl⟩

theorem ownFrame?_function : model.ownFrame? own = some own := by
  obtain ⟨rest, frames⟩ := frames_of_function settles wellFormed isFunction introduced
  rw [ownFrame?, frames]
  rfl

private theorem tracked_of_own {name : String} {symbol : Symbol}
    (owned : own.symbol? name = some symbol)
    (kind : symbol.kind.isTracked = true) : symbol ∈ model.trackedSymbols own := by
  obtain ⟨rest, frames⟩ := frames_of_function settles wellFormed isFunction introduced
  apply SymbolSet.mem_ofList.mpr
  apply List.mem_flatMap.mpr
  refine ⟨own, ?_, List.mem_filter.mpr ⟨?_, kind⟩⟩
  · rw [frames]
    exact List.mem_cons_self
  · exact List.mem_map_of_mem (Table.mem_of_lookup owned)

theorem first_of_local {name : String} {symbol : Symbol} (owned : own.symbol? name = some symbol)
    (kind : symbol.kind = .localVariable) :
    ∃ first rest, Binding.inOrder (own.bindingsOf name) = first :: rest ∧
      first.node.form.boundName?.isSome ∧
      ∃ statement ∈ function.field .body, first.node ∈ statement.nodes := by
  obtain ⟨first, rest, ordered, setting, decided⟩ := first_of_symbol settles introduced.1 owned
  rw [kind] at decided
  have other := Setting.not_parameter_of_kindOf decided.symm
  have bound : first ∈ own.bindingsOf name := by
    apply Binding.mem_inOrder.mp
    rw [ordered]
    exact List.mem_cons_self
  refine ⟨first, rest, ordered, ?_, ?_⟩
  · rcases form_of_binding settles wellFormed introduced.1 bound with names | ⟨id, hint, form⟩
    · rw [names]
      rfl
    · exact absurd form (other id hint)
  · rcases body_of_binding settles wellFormed isFunction introduced bound with
      isParameter | inBody
    · obtain ⟨_, id, hint, form⟩ := wellFormed.parameter_form
        (function_mem settles wellFormed introduced) (Form.isCallable_of_isFunction isFunction)
        isParameter
      exact absurd form (other id hint)
    · exact inBody

theorem mem_declared_body {symbol : Symbol} :
    symbol ∈ model.declaredSymbols own (model.trackedSymbols own)
        (regionIds (function.field .body)) ↔
      own.symbol? symbol.name = some symbol ∧ symbol.kind = .localVariable := by
  rw [declaredSymbols, ownFrame?_function settles wellFormed isFunction introduced]
  simp only [List.mem_filter, Bool.and_eq_true, decide_eq_true_eq]
  constructor
  · rintro ⟨tracked, ⟨kind, scopeId⟩, _⟩
    exact ⟨symbol?_of_tracked settles introduced.1 introduced.1 tracked scopeId, kind⟩
  · rintro ⟨owned, kind⟩
    obtain ⟨_, scopeId, _, bindings, _⟩ := bindingsOf_symbol settles introduced.1 owned
    obtain ⟨first, rest, ordered, _, statement, isStatement, inside⟩ :=
      first_of_local settles wellFormed isFunction introduced owned kind
    refine ⟨tracked_of_own settles wellFormed isFunction introduced owned (by rw [kind]; rfl),
      ⟨kind, scopeId⟩, ?_⟩
    rw [bindings, ordered, List.head?_cons, Option.any_some, List.contains_iff_mem, mem_regionIds]
    exact ⟨statement, isStatement, first.node, inside, rfl⟩

private theorem loopsAround_body {statement : Node} (member : statement ∈ function.field .body) :
    model.loopsAround statement = [] := by
  have distinct := wellFormed.distinct
  have inTree := function_mem settles wellFormed introduced
  have isChild := (Node.mem_field.mp member).1
  obtain ⟨isAsync, name, returns, form⟩ := Form.functionDef_of_isFunction isFunction
  rw [loopsAround, settles.source, Node.ancestors_child distinct inTree isChild,
    Node.lineage_eq_cons distinct inTree,
    List.takeWhile_cons_of_neg (by simp [form, Form.isBarrier])]
  rfl

/-- No value of a local variable of the function arrives at the start of the body. -/
theorem not_reaches_body (ordered : function.ParametersFirst) {first : Node}
    (isFirst : first ∈ function.field .body) {symbol : Symbol}
    (owned : own.symbol? symbol.name = some symbol) (kind : symbol.kind = .localVariable) :
    model.reachesRegion own first (regionIds (function.field .body)) symbol = false := by
  obtain ⟨_, scopeId, _, bindings, _⟩ := bindingsOf_symbol settles introduced.1 owned
  have isOwn : model.isOwnLocal own symbol = true := by
    rw [isOwnLocal, ownFrame?_function settles wellFormed isFunction introduced]
    simp [kind, scopeId]
  rw [reachesRegion, if_pos isOwn]
  simp only [loopsAround_body settles wellFormed isFunction introduced isFirst, List.any_nil,
    Bool.or_false, bindings]
  rw [List.any_eq_false]
  intro binding bound
  rcases body_of_binding settles wellFormed isFunction introduced bound with
    isParameter | ⟨statement, isStatement, inside⟩
  · -- The earliest binding lies in the body, behind all parameters.
    exfalso
    obtain ⟨earliest, rest, sorted, binds, statement, isStatement, inside⟩ :=
      first_of_local settles wellFormed isFunction introduced owned kind
    have after := ordered binding.node isParameter statement isStatement earliest.node inside binds
    have before := Binding.start_le_of_inOrder sorted binding bound
    rw [Position.le_iff] at before
    rw [Position.lt_iff] at after
    unfold Binding.start at before
    omega
  · have listed : binding.node.id ∈ regionIds (function.field .body) :=
      mem_regionIds.mpr ⟨statement, isStatement, binding.node, inside, rfl⟩
    simp [listed]

/-- No code outside of a function mentions a variable of the function. -/
theorem not_seen_outside {symbol : Symbol} (owned : own.symbol? symbol.name = some symbol) :
    model.seenByClosure (regionIds (function.field .body)) symbol = false := by
  rw [seenByClosure, List.any_eq_false]
  intro reference isReference
  obtain ⟨statement, isStatement, inside⟩ :=
    body_of_reference settles wellFormed isFunction introduced owned isReference
  have listed : reference.id ∈ regionIds (function.field .body) :=
    mem_regionIds.mpr ⟨statement, isStatement, reference, inside, rfl⟩
  simp [listed]

/-- Nothing is followed after the last statement of a function. -/
theorem continueFrom_body {frame : Frame} {last : Node}
    (isLast : (function.field .body).getLast? = some last) (track : Track) :
    track.continueFrom frame (model.wayOut last) = track := by
  have distinct := wellFormed.distinct
  have inTree := function_mem settles wellFormed introduced
  have member := List.mem_of_getLast? isLast
  obtain ⟨isChild, plays⟩ := Node.mem_field.mp member
  have siblings := siblings_body settles wellFormed introduced
  have none : function.followers last = [] :=
    Node.followers_getLast (distinct.of_mem inTree) isLast
  rw [wayOut_of_fits settles distinct (siblings.mem member) (siblings.fits wellFormed member),
    Node.lineage_child distinct inTree isChild, Node.lineage_eq_cons distinct inTree,
    Track.continueFrom, Track.leaveInto_function track isFunction (by rw [plays]; rfl),
    Track.followRest, none]
  rfl

theorem regionFlow_body (nonempty : function.field .body ≠ []) :
    ∃ (first last : Node) (track : Track), first ∈ function.field .body ∧
      (function.field .body).getLast? = some last ∧
      model.trackedIn (function.field .body) = model.trackedSymbols own ∧
      (model.regionFlow (function.field .body)).liveIn =
        track.exposed.filter (model.reachesRegion own first (regionIds (function.field .body))) ∧
      (model.regionFlow (function.field .body)).liveOut =
        model.liveOut (model.trackedSymbols own) track.writes last
          (regionIds (function.field .body)) ∧
      (model.regionFlow (function.field .body)).declaredInside =
        model.declaredSymbols own (model.trackedSymbols own)
          (regionIds (function.field .body)) := by
  have ofOwn : ∀ statement ∈ function.field .body, model.scopeOf statement = own :=
    fun _ member => scopeOf_body settles wellFormed isFunction introduced member
  cases body : function.field .body with
  | nil => exact absurd body nonempty
  | cons first rest =>
      rw [body] at ofOwn
      have isOwn := ofOwn first List.mem_cons_self
      rw [← isOwn]
      exact ⟨first, _, _, List.mem_cons_self, List.getLast?_eq_some_getLast (List.cons_ne_nil _ _),
        rfl, rfl, rfl, rfl⟩

theorem liveOut_body {symbol : Symbol}
    (member : symbol ∈ (model.regionFlow (function.field .body)).liveOut) :
    symbol.scopeId ≠ own.id := by
  intro scopeId
  have sourced := sourced_regionFlow model (function.field .body)
  have isTracked := (sourced.written symbol (sourced.liveOut symbol member)).1
  by_cases empty : function.field .body = []
  · rw [empty] at member
    cases member
  · obtain ⟨first, last, track, _, isLast, tracked, _, liveOut, _⟩ :=
      regionFlow_body settles wellFormed isFunction introduced empty
    rw [tracked] at isTracked
    have owned := symbol?_of_tracked settles introduced.1 introduced.1 isTracked scopeId
    rw [liveOut, Model.liveOut, continueFrom_body settles wellFormed isFunction introduced isLast]
      at member
    split at member
    · cases member
    · have seen := (List.mem_filter.mp member).2
      rw [not_seen_outside settles wellFormed isFunction introduced owned] at seen
      cases seen

theorem liveIn_body (ordered : function.ParametersFirst) {symbol : Symbol}
    (member : symbol ∈ (model.regionFlow (function.field .body)).liveIn)
    (kind : symbol.kind = .localVariable) : symbol.scopeId ≠ own.id := by
  intro scopeId
  have sourced := sourced_regionFlow model (function.field .body)
  have isTracked := (sourced.read symbol (sourced.liveIn symbol member)).1
  by_cases empty : function.field .body = []
  · rw [empty] at member
    cases member
  · obtain ⟨first, _, track, isFirst, _, tracked, liveIn, _⟩ :=
      regionFlow_body settles wellFormed isFunction introduced empty
    rw [tracked] at isTracked
    have owned := symbol?_of_tracked settles introduced.1 introduced.1 isTracked scopeId
    rw [liveIn] at member
    have reaches := (List.mem_filter.mp member).2
    rw [not_reaches_body settles wellFormed isFunction introduced ordered isFirst owned kind]
      at reaches
    cases reaches

theorem declared_body {symbol : Symbol} :
    symbol ∈ (model.regionFlow (function.field .body)).declaredInside ↔
      own.symbol? symbol.name = some symbol ∧ symbol.kind = .localVariable := by
  by_cases empty : function.field .body = []
  · have absent : ¬ (own.symbol? symbol.name = some symbol ∧ symbol.kind = .localVariable) := by
      intro ⟨owned, kind⟩
      obtain ⟨_, _, _, _, statement, isStatement, _⟩ :=
        first_of_local settles wellFormed isFunction introduced owned kind
      rw [empty] at isStatement
      cases isStatement
    rw [empty]
    exact ⟨nofun, fun present => absurd present absent⟩
  · obtain ⟨_, _, _, _, _, _, _, _, declared⟩ :=
      regionFlow_body settles wellFormed isFunction introduced empty
    rw [declared]
    exact mem_declared_body settles wellFormed isFunction introduced

/-- An input of the body is not a local variable of the function. -/
theorem not_local_of_input (ordered : function.ParametersFirst) {symbol : Symbol}
    (owned : own.symbol? symbol.name = some symbol)
    (needed : symbol ∈ (model.regionFlow (function.field .body)).liveIn ∨
      symbol ∉ (model.regionFlow (function.field .body)).declaredInside) :
    symbol.kind ≠ .localVariable := by
  intro kind
  rcases needed with live | undeclared
  · have scopeId := (bindingsOf_symbol settles introduced.1 owned).2.1
    exact liveIn_body settles wellFormed isFunction introduced ordered live kind scopeId
  · exact undeclared ((declared_body settles wellFormed isFunction introduced).mpr ⟨owned, kind⟩)

theorem function_of_tracked {symbol : Symbol} {statement : Node}
    (isStatement : statement ∈ function.field .body)
    (tracked : symbol ∈ model.trackedSymbols own) :
    ∃ frame ∈ model.chain own, frame.kind = .function ∧
      frame.symbol? symbol.name = some symbol := by
  obtain ⟨frame, isFrame, owned⟩ := frame_of_tracked settles introduced.1 tracked
  have siblings := siblings_body settles wellFormed introduced
  have block := Node.isBlock_of_fits (siblings.fits wellFormed isStatement)
  have frames := frames_of_block settles wellFormed (siblings.mem isStatement) block
  rw [scopeOf_body settles wellFormed isFunction introduced isStatement] at frames
  obtain ⟨isScope, _, opened⟩ := frames frame isFrame
  have kind := kind_of_function settles wellFormed opened ⟨isScope, rfl⟩
  exact ⟨frame, (mem_frames isFrame).1, kind, owned⟩

/-- A symbol of the function gets the kind of a parameter from a parameter of the function, or from
one of a scope inside that lends it. -/
theorem parameter_of_symbol {name : String} {symbol : Symbol}
    (owned : own.symbol? name = some symbol) (kind : symbol.kind = .parameter) :
    (∃ parameter ∈ function.parameters, parameter.parameterName = name) ∨
      ∃ inner ∈ model.scopes, own ∈ model.around inner ∧ inner.Lends name := by
  have isFunctionScope := kind_of_function settles wellFormed isFunction introduced
  obtain ⟨first, rest, sorted, setting, decided⟩ := first_of_symbol settles introduced.1 owned
  obtain ⟨id, hint, form⟩ := Setting.form_of_kindOf (decided.symm.trans kind)
  have bound : first ∈ own.bindingsOf name := by
    apply Binding.mem_inOrder.mp
    rw [sorted]
    exact List.mem_cons_self
  obtain ⟨_, _, lent⟩ :=
    chain_of_binding settles wellFormed introduced.1 (by simp [isFunctionScope]) bound
  have parameters : own.parameters = function.parameters := by
    rw [Scope.parameters, introduced.2, if_pos (by simp [isFunctionScope])]
  rw [← parameters]
  exact lent id hint form

end

/-- Where a name that the body of a function needs comes from. -/
inductive NeededFrom (model : Model) (function : Node) (own : Scope) (name : String) : Prop where
  /-- From a parameter of the function. -/
  | parameter {parameter : Node} {symbol : Symbol} : parameter ∈ function.parameters →
      parameter.parameterName = name → own.symbol? name = some symbol →
      symbol.kind = .parameter → NeededFrom model function own name
  /-- From a scope inside, which declares a parameter of its own nonlocal. -/
  | lent {inner : Scope} {symbol : Symbol} : inner ∈ model.scopes → own ∈ model.around inner →
      inner.Lends name → own.symbol? name = some symbol → symbol.kind = .parameter →
      NeededFrom model function own name
  /-- From a variable of a function around. -/
  | outer {outer : Scope} {symbol : Symbol} : outer ∈ model.around own → outer.kind = .function →
      outer.symbol? name = some symbol → symbol.kind.isVariable = true →
      NeededFrom model function own name

theorem neededFrom_of_input {path : String} {tree : Node} {model : Model}
    (settles : model.Settles path tree) (wellFormed : tree.WellFormed) {function : Node}
    {own : Scope} (isFunction : function.form.isFunction = true)
    (introduced : model.Introduces function own)
    (ordered : function.ParametersFirst) {name : String}
    (input : name ∈ (model.dataFlow (function.field .body)).inputs) :
    model.NeededFrom function own name := by
  have nonempty : function.field .body ≠ [] := by
    intro empty
    rw [empty] at input
    cases input
  obtain ⟨first, _, _, isFirst, _, body, _⟩ :=
    regionFlow_body settles wellFormed isFunction introduced nonempty
  obtain ⟨symbol, tracked, rfl, isVariable, needed⟩ := symbol_of_input settles input
  rw [body] at tracked
  obtain ⟨frame, isFrame, kind, owned⟩ :=
    function_of_tracked settles wellFormed isFunction introduced isFirst tracked
  rcases List.mem_cons.mp isFrame with rfl | isOuter
  · have notLocal :=
      not_local_of_input settles wellFormed isFunction introduced ordered owned needed
    have isParameter : symbol.kind = .parameter := by
      generalize symbol.kind = kind at isVariable notLocal
      cases kind with
      | parameter => rfl
      | localVariable => exact absurd rfl notLocal
      | _ => cases isVariable
    rcases parameter_of_symbol settles wellFormed isFunction introduced owned isParameter with
      ⟨parameter, listed, named⟩ | ⟨inner, isInner, around, lends⟩
    · exact .parameter listed named owned isParameter
    · exact .lent isInner around lends owned isParameter
  · exact .outer isOuter kind owned isVariable

/-- A function without parameters in which `def g(x): nonlocal x` stands before `x = 1`. -/
def lendingFunction : Node :=
  .mk (.functionDef false "f" none) ⟨1, .body, some ⟨⟨1, 0⟩, ⟨4, 9⟩⟩⟩ [
    .mk (.parameters []) ⟨2, .parameters, none⟩ [],
    .mk (.functionDef false "g" none) ⟨3, .body, some ⟨⟨2, 4⟩, ⟨3, 18⟩⟩⟩ [
      .mk (.parameters []) ⟨4, .parameters, none⟩ [
        .mk (.parameter "x" none) ⟨5, .positional, some ⟨⟨2, 10⟩, ⟨2, 11⟩⟩⟩ []],
      .mk (.nonlocalStmt ["x"]) ⟨6, .body, some ⟨⟨3, 8⟩, ⟨3, 18⟩⟩⟩ []],
    .mk .assign ⟨7, .body, some ⟨⟨4, 4⟩, ⟨4, 9⟩⟩⟩ [
      .mk (.name "x" .store) ⟨8, .target, some ⟨⟨4, 4⟩, ⟨4, 5⟩⟩⟩ [],
      .mk (.constant .int "1") ⟨9, .value, some ⟨⟨4, 8⟩, ⟨4, 9⟩⟩⟩ []]]

def lendingModule : Node :=
  .mk .module ⟨0, .root, none⟩ [lendingFunction]

end Model

end SafeRefactor
