import SafeRefactor.Proofs.WholeBody

/-!
# Variables that come round a loop

A variable whose earliest binding lies in a run of statements has no value from before the run,
if what starts before the run stands before it as a whole.  So it flows into the run only from
the round of a loop before, and a name that the run both declares and needs means such a
variable.
-/

namespace SafeRefactor

namespace Node

/-- What lies outside of a run of statements and starts before the run starts before whatever binds
a name in the run. -/
def OutsideFirst (tree : Node) (run : List Node) : Prop :=
  ∀ first ∈ run.head?, ∀ outer ∈ tree.nodes, outer.id ∉ regionIds run →
    outer.start < first.start → ∀ statement ∈ run, ∀ node ∈ statement.nodes,
      node.form.boundName?.isSome → outer.start < node.start

instance (tree : Node) (run : List Node) : Decidable (tree.OutsideFirst run) :=
  inferInstanceAs (Decidable (∀ first ∈ run.head?, ∀ outer ∈ tree.nodes,
    outer.id ∉ regionIds run → outer.start < first.start → ∀ statement ∈ run,
      ∀ node ∈ statement.nodes, _ → _))

namespace Around

theorem of_mem_ancestors {root outer node : Node} (distinct : root.Distinct)
    (inside : node ∈ root.nodes)
    (met : outer ∈ (root.ancestors node.id).takeWhile (fun other => !other.form.isBarrier)) :
    outer ∈ root.nodes ∧ outer.Around node := by
  revert met
  refine outwardInduction ?_ inside
  clear inside node
  intro node inside induction met
  rcases exists_parent inside with rfl | ⟨parent, within, isChild⟩
  · rw [ancestors, lineage_self] at met
    cases met
  · rw [ancestors_child distinct within isChild, lineage_eq_cons distinct within] at met
    by_cases passable : parent.form.isBarrier = false
    · rw [List.takeWhile_cons_of_pos (by simp [passable])] at met
      rcases List.mem_cons.mp met with rfl | further
      · exact ⟨within, .direct isChild⟩
      · obtain ⟨inTree, around⟩ :=
          induction parent within node isChild (self_mem_nodes node) further
        exact ⟨inTree, .through around passable isChild⟩
    · rw [List.takeWhile_cons_of_neg (by simpa using passable)] at met
      cases met

theorem sibling {root outer parent first second : Node} (distinct : root.Distinct)
    (within : outer ∈ root.nodes) (inside : parent ∈ root.nodes) (left : first ∈ parent.children)
    (right : second ∈ parent.children) (around : outer.Around first) : outer.Around second := by
  cases around with
  | direct isChild =>
      rw [distinct.parent_eq within inside isChild left]
      exact .direct right
  | @through middle _ around passable isChild =>
      have same := distinct.parent_eq (nodes_trans around.mem within) inside isChild left
      rw [same] at around passable
      exact .through around passable right

end Around

end Node

namespace Model

/-- A local variable of the innermost frame of a run whose earliest binding lies in the run. -/
structure FirstBound (model : Model) (run : List Node) (own : Scope) (symbol : Symbol)
    (earliest : Binding) : Prop where
  scope : own ∈ model.scopes
  innermost : ∀ first ∈ run.head?, model.ownFrame? (model.scopeOf first) = some own
  frame : own.kind ≠ .module
  owned : own.symbol? symbol.name = some symbol
  kind : symbol.kind = .localVariable
  sorted : ∃ others, Binding.inOrder (own.bindingsOf symbol.name) = earliest :: others
  /-- It is not a parameter. -/
  binds : earliest.node.form.boundName?.isSome
  inside : ∃ statement ∈ run, earliest.node ∈ statement.nodes

/-- A name that the innermost frame has a symbol for and does not declare nonlocal means that symbol
or one at module level. -/
theorem lookupAround_of_frame (model : Model) {scopes : List Scope} {own : Scope} {name : String}
    {symbol : Symbol}
    (innermost : ((scopes.takeWhile (fun scope => scope.kind != .module)).filter
      (fun scope => scope.kind != .classBody)).head? = some own)
    (notNonlocal : name ∉ own.nonlocals) (owned : own.symbol? name = some symbol) :
    model.lookupAround name scopes = some symbol ∨
      model.lookupAround name scopes = model.lookupModule name := by
  induction scopes with
  | nil => cases innermost
  | cons scope rest induction =>
      by_cases isModule : scope.kind = .module
      · rw [List.takeWhile_cons_of_neg (by simp [isModule])] at innermost
        cases innermost
      rw [List.takeWhile_cons_of_pos (by simp [isModule])] at innermost
      by_cases isClass : scope.kind = .classBody
      · rw [List.filter_cons_of_neg (by simp [isClass])] at innermost
        rw [lookupAround, if_pos isClass]
        exact induction innermost
      · rw [List.filter_cons_of_pos (by simp [isClass]), List.head?_cons] at innermost
        obtain rfl := Option.some.inj innermost
        by_cases isGlobal : name ∈ scope.globals
        · right
          simp [lookupAround, isClass, isGlobal]
        · left
          simp [lookupAround, isClass, isModule, isGlobal, notNonlocal, owned]

section

variable {path : String} {tree : Node} {model : Model} (settles : model.Settles path tree)
  (wellFormed : tree.WellFormed)

include settles wellFormed

theorem not_nonlocal_of_symbol {scope : Scope} {name : String} {symbol : Symbol}
    (member : scope ∈ model.scopes) (inner : scope.kind ≠ .module)
    (owned : scope.symbol? name = some symbol) : name ∉ scope.nonlocals := by
  obtain ⟨origin, isOrigin, received⟩ := exists_recorded settles member
  have present : (scope.symbol? name).isSome := by
    rw [owned]
    rfl
  obtain ⟨source, isSource, _, owner⟩ := (symbol_iff isOrigin received).mp present
  rw [received.nonlocals]
  rcases ownerOf?_cases owner with ⟨_, _, head⟩ | ⟨_, _, found⟩ | ⟨_, notNonlocal, same⟩
  · rw [received.kind] at inner
    exact absurd ((head_of_module wellFormed isOrigin).mp head) inner
  · obtain ⟨other, isFound, key⟩ := Option.map_eq_some_iff.mp found
    have isOther := mem_of_mem_around
      ((List.takeWhile_sublist _).subset (List.mem_of_find?_eq_some isFound))
    have good := List.find?_some isFound
    rw [eq_of_key wellFormed isOther isOrigin key] at good
    simp only [Bool.and_eq_true, Bool.not_eq_true', List.contains_eq_mem,
      decide_eq_false_iff_not] at good
    exact good.2
  · rw [eq_of_key wellFormed isOrigin isSource same]
    exact notNonlocal

variable {parent first : Node} {role : Role} {rest : List Node}
  (siblings : tree.Siblings parent role (first :: rest))

include siblings

theorem firstBound_of_declared {symbol : Symbol}
    (declared : symbol ∈ (model.regionFlow (first :: rest)).declaredInside) :
    ∃ own earliest, model.FirstBound (first :: rest) own symbol earliest := by
  have member : symbol ∈ model.declaredSymbols (model.scopeOf first)
      (model.trackedSymbols (model.scopeOf first)) (regionIds (first :: rest)) := declared
  unfold declaredSymbols at member
  split at member
  · cases member
  next own innermost =>
  obtain ⟨tracked, known⟩ := List.mem_filter.mp member
  simp only [Bool.and_eq_true, decide_eq_true_eq] at known
  obtain ⟨⟨kind, scopeId⟩, inRun⟩ := known
  have isScope := scopeOf_mem settles first
  obtain ⟨isOuter, frame, _⟩ := mem_frames (List.mem_of_mem_head? innermost)
  have isOwner := mem_of_mem_chain isScope isOuter
  have owned := symbol?_of_tracked settles isScope isOwner tracked scopeId
  obtain ⟨_, _, _, bindings, _⟩ := bindingsOf_symbol settles isOwner owned
  obtain ⟨earliest, others, sorted, setting, decided⟩ := first_of_symbol settles isOwner owned
  rw [bindings, sorted, List.head?_cons, Option.any_some, List.contains_iff_mem,
    mem_regionIds] at inRun
  obtain ⟨statement, isStatement, node, inside, same⟩ := inRun
  have bound : earliest ∈ own.bindingsOf symbol.name := by
    apply Binding.mem_inOrder.mp
    rw [sorted]
    exact List.mem_cons_self
  have inTree := (chain_of_binding settles wellFormed isOwner frame bound).1
  obtain rfl : node = earliest.node := wellFormed.distinct.eq_of_id
    (Node.nodes_trans inside (siblings.mem isStatement)) inTree same
  refine ⟨own, earliest, isOwner, ?_, frame, owned, kind, ⟨others, sorted⟩, ?_, statement,
    isStatement, inside⟩
  · intro other isFirst
    obtain rfl := Option.some.inj isFirst
    exact innermost
  · rcases form_of_binding settles wellFormed isOwner bound with names | ⟨id, hint, form⟩
    · rw [names]
      rfl
    · exact absurd form (Setting.not_parameter_of_kindOf (decided.symm.trans kind) id hint)

omit siblings in
/-- Nothing outside of the run binds the variable before the run starts. -/
theorem FirstBound.not_before {own : Scope} {symbol : Symbol} {earliest binding : Binding}
    (firstBound : model.FirstBound (first :: rest) own symbol earliest)
    (ordered : tree.OutsideFirst (first :: rest)) (bound : binding ∈ own.bindingsOf symbol.name)
    (outside : binding.node.id ∉ regionIds (first :: rest)) : ¬ binding.start < first.start := by
  intro before
  obtain ⟨_, sorted⟩ := firstBound.sorted
  obtain ⟨statement, isStatement, inside⟩ := firstBound.inside
  have inTree := (chain_of_binding settles wellFormed firstBound.scope firstBound.frame bound).1
  have earlier : binding.start < earliest.start := ordered first rfl binding.node inTree outside
    before statement isStatement earliest.node inside firstBound.binds
  have later := Binding.start_le_of_inOrder sorted binding bound
  rw [Position.lt_iff] at earlier
  rw [Position.le_iff] at later
  omega

/-- A declared variable that is live into a run comes round a loop. -/
theorem loop_of_declared {symbol : Symbol} (ordered : tree.OutsideFirst (first :: rest))
    (declared : symbol ∈ (model.regionFlow (first :: rest)).declaredInside)
    (live : symbol ∈ (model.regionFlow (first :: rest)).liveIn) :
    ∃ loop ∈ tree.nodes, loop.form.isLoop = true ∧
      ∀ statement ∈ first :: rest, loop.Around statement := by
  have distinct := wellFormed.distinct
  obtain ⟨own, earliest, firstBound⟩ := firstBound_of_declared settles wellFormed siblings declared
  obtain ⟨_, scopeId, _, bindings, _⟩ :=
    bindingsOf_symbol settles firstBound.scope firstBound.owned
  have reaches : model.reachesRegion (model.scopeOf first) first (regionIds (first :: rest))
      symbol = true := (List.mem_filter.mp live).2
  have isOwn : model.isOwnLocal (model.scopeOf first) symbol = true := by
    rw [isOwnLocal, firstBound.innermost first rfl]
    simp [firstBound.kind, scopeId]
  rw [reachesRegion, if_pos isOwn, Bool.or_eq_true, bindings] at reaches
  rcases reaches with before | around
  · obtain ⟨binding, bound, known⟩ := List.any_eq_true.mp before
    simp only [Bool.and_eq_true, Bool.not_eq_true', List.contains_eq_mem, decide_eq_true_eq,
      decide_eq_false_iff_not] at known
    exact absurd known.2 (firstBound.not_before settles wellFormed ordered bound known.1)
  · obtain ⟨loop, isAround, _⟩ := List.any_eq_true.mp around
    obtain ⟨met, isLoop⟩ := List.mem_filter.mp isAround
    rw [settles.source] at met
    obtain ⟨inTree, aroundFirst⟩ :=
      Node.Around.of_mem_ancestors distinct (siblings.mem List.mem_cons_self) met
    refine ⟨loop, inTree, isLoop, ?_⟩
    intro statement isStatement
    exact aroundFirst.sibling distinct inTree siblings.inside
      (siblings.child List.mem_cons_self).1 (siblings.child isStatement).1

/-- A followed symbol that has its name in a run from a declared variable is the variable. -/
theorem eq_of_declared {declared other : Symbol}
    (isDeclared : declared ∈ (model.regionFlow (first :: rest)).declaredInside)
    (tracked : other ∈ model.trackedIn (first :: rest))
    (means : model.MeansIn (first :: rest) declared.name other) : other = declared := by
  obtain ⟨own, _, firstBound⟩ := firstBound_of_declared settles wellFormed siblings isDeclared
  have notNonlocal := not_nonlocal_of_symbol settles wellFormed firstBound.scope firstBound.frame
    firstBound.owned
  have found := handedOn_of_means settles wellFormed siblings means tracked
  rcases lookupAround_of_frame model (firstBound.innermost first rfl) notNonlocal
    firstBound.owned with inOwn | atModule
  · exact Option.some.inj (found.symm.trans inOwn)
  · have global := atModule.symm.trans found
    exact absurd tracked
      (not_tracked_of_lookupModule settles wellFormed (scopeOf_mem settles first) global)

end

/-- A variable that a run declares is live into the run only round a loop of the same function, and
a name that the run both declares and needs is that of such a variable. -/
theorem declared_and_live_in_loop {path : String} {tree : Node} {model : Model}
    (wellFormed : tree.WellFormed) (built : build path tree = .ok model) {parent : Node}
    {role : Role} {run : List Node} (siblings : tree.Siblings parent role run)
    (ordered : tree.OutsideFirst run) :
    ∃ flow, model.regionFlow? run = .ok flow ∧
      (∀ symbol ∈ flow.declaredInside, symbol ∈ flow.liveIn →
        ∃ loop ∈ tree.nodes, loop.form.isLoop = true ∧
          ∀ statement ∈ run, loop.Around statement) ∧
      ∀ name ∈ (model.dataFlow run).declaredInside, name ∈ (model.dataFlow run).inputs →
        name ∉ namesOf (model.unaccounted run flow) ∧
          ∃ symbol ∈ flow.liveIn, symbol ∈ flow.declaredInside ∧ symbol.name = name := by
  have settles := settles_of_build built
  have placed : ∀ statement ∈ run, statement.span.isSome :=
    fun _ member => Node.span_isSome_of_fits (siblings.fits wellFormed member)
  refine ⟨_, regionFlow?_of_placed model placed, ?_, ?_⟩
  · intro symbol declared live
    cases run with
    | nil => cases declared
    | cons first rest => exact loop_of_declared settles wellFormed siblings ordered declared live
  · intro name declared input
    cases run with
    | nil => cases declared
    | cons first rest =>
        have facts : model.dataFlow (first :: rest) =
            model.factsOf (first :: rest) (model.regionFlow (first :: rest)) := rfl
        rw [facts] at declared input
        have accounted : name ∉ namesOf
            (model.unaccounted (first :: rest) (model.regionFlow (first :: rest))) := by
          intro listed
          obtain ⟨symbol, left, rfl⟩ := List.mem_map.mp listed
          have absent := (List.mem_filter.mp left).2
          simp [declared] at absent
        refine ⟨accounted, ?_⟩
        obtain ⟨symbol, isDeclared, rfl⟩ := List.mem_map.mp (Text.mem_sortedNames.mp declared)
        have needed := (mem_inputs.mp input).resolve_right accounted
        obtain ⟨other, member, named⟩ := List.mem_map.mp needed
        obtain ⟨tracked, _, means⟩ := means_of_classified settles
          (List.mem_append_left _ (List.mem_append_left _ (List.mem_append_left _ member)))
        rw [named] at means
        obtain rfl := eq_of_declared settles wellFormed siblings isDeclared tracked means
        exact ⟨other, (List.mem_filter.mp member).1, isDeclared, rfl⟩

def mention : Node :=
  .mk .exprStmt ⟨7, .body, some ⟨⟨3, 8⟩, ⟨3, 9⟩⟩⟩ [
    .mk (.name "x" .load) ⟨8, .value, some ⟨⟨3, 8⟩, ⟨3, 9⟩⟩⟩ []]

def renewal : Node :=
  .mk .assign ⟨9, .body, some ⟨⟨4, 8⟩, ⟨4, 16⟩⟩⟩ [
    .mk (.name "x" .store) ⟨10, .target, some ⟨⟨4, 8⟩, ⟨4, 9⟩⟩⟩ [],
    .mk (.name "item" .load) ⟨11, .value, some ⟨⟨4, 12⟩, ⟨4, 16⟩⟩⟩ []]

/-- A loop over `items` that mentions `x` before it renews it. -/
def carryingLoop : Node :=
  .mk (.forLoop false) ⟨4, .body, some ⟨⟨2, 4⟩, ⟨4, 16⟩⟩⟩ [
    .mk (.name "item" .store) ⟨5, .target, some ⟨⟨2, 8⟩, ⟨2, 12⟩⟩⟩ [],
    .mk (.name "items" .load) ⟨6, .iterable, some ⟨⟨2, 16⟩, ⟨2, 21⟩⟩⟩ [],
    mention, renewal]

def carryingModule : Node :=
  .mk .module ⟨0, .root, none⟩ [
    .mk (.functionDef false "f" none) ⟨1, .body, some ⟨⟨1, 0⟩, ⟨4, 16⟩⟩⟩ [
      .mk (.parameters []) ⟨2, .parameters, none⟩ [
        .mk (.parameter "items" none) ⟨3, .positional, some ⟨⟨1, 6⟩, ⟨1, 11⟩⟩⟩ []],
      carryingLoop]]

private theorem siblings_carrying : carryingModule.Siblings carryingLoop .body
    [mention, renewal] where
  inside := by simp [carryingModule, Node.mem_nodes_mk, Node.self_mem_nodes]
  block := rfl
  contiguous := ⟨[], [], rfl⟩

/-- The body of the loop declares `x` and needs it from the round before. -/
theorem declared_and_live_in_loop_carrying :
    carryingModule.WellFormed ∧ carryingModule.OutsideFirst [mention, renewal] ∧
      ∃ model flow symbol, build "m.py" carryingModule = .ok model ∧
        model.regionFlow? [mention, renewal] = .ok flow ∧
        "x" ∈ (model.dataFlow [mention, renewal]).declaredInside ∧
        "x" ∈ (model.dataFlow [mention, renewal]).inputs ∧
        symbol ∈ flow.declaredInside ∧ symbol ∈ flow.liveIn ∧ symbol.name = "x" ∧
        ∃ loop ∈ carryingModule.nodes, loop.form.isLoop = true ∧
          ∀ statement ∈ [mention, renewal], loop.Around statement := by
  have wellFormed : carryingModule.WellFormed := ⟨by decide, by decide⟩
  have ordered : carryingModule.OutsideFirst [mention, renewal] := by decide
  have checked : (build "m.py" carryingModule).toOption.any (fun model =>
      (model.dataFlow [mention, renewal]).declaredInside.contains "x" &&
        (model.dataFlow [mention, renewal]).inputs.contains "x") = true := by cbv
  obtain ⟨model, built, known⟩ := exists_of_check checked
  simp only [Bool.and_eq_true, List.contains_iff_mem] at known
  obtain ⟨declared, input⟩ := known
  obtain ⟨flow, flows, inLoop, named⟩ :=
    declared_and_live_in_loop wellFormed built siblings_carrying ordered
  obtain ⟨_, symbol, live, isDeclared, name⟩ := named "x" declared input
  exact ⟨wellFormed, ordered, model, flow, symbol, built, flows, declared, input, isDeclared, live,
    name, inLoop symbol isDeclared live⟩

end Model

end SafeRefactor
