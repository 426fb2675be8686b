import SafeRefactor.Proofs.Completeness
import SafeRefactor.Proofs.Nesting

/-!
# One name, one variable

Within a run of statements a name means at most one of the followed symbols.  A scope inside
the run that binds the name itself hides the followed symbol, and a scope that does not bind
it sees what the scope of the run hands on.  So the facts about the run, which speak of
variables by their names, are about one variable for each name.
-/

namespace SafeRefactor

/-- The visit comes to all statements of a list in the same scope. -/
theorem Spot.step_block {role : Role} (block : role.isBlock = true) (spot : Spot) (parent : Node)
    (first second : NodeId) : spot.step parent role first = spot.step parent role second := by
  unfold Spot.step
  cases role with
  | body | orelse | finalbody =>
      generalize parent.form = form
      cases form <;> rfl
  | _ => cases block

namespace Model

theorem mem_frames {model : Model} {scope frame : Scope} (isFrame : frame ∈ model.frames scope) :
    frame ∈ model.chain scope ∧ frame.kind ≠ .module ∧ frame.kind ≠ .classBody := by
  obtain ⟨around, notClass⟩ := List.mem_filter.mp isFrame
  have notModule := List.mem_takeWhile_imp around
  exact ⟨(List.takeWhile_sublist _).subset around, bne_iff_ne.mp notModule, bne_iff_ne.mp notClass⟩

section

variable {path : String} {tree : Node} {model : Model} (settles : model.Settles path tree)
  (wellFormed : tree.WellFormed)

include settles

theorem frame_of_tracked {scope : Scope} {symbol : Symbol} (member : scope ∈ model.scopes)
    (tracked : symbol ∈ model.trackedSymbols scope) :
    ∃ frame ∈ model.frames scope, frame.symbol? symbol.name = some symbol := by
  obtain ⟨frame, isFrame, listed⟩ := List.mem_flatMap.mp (SymbolSet.mem_ofList.mp tracked)
  have isScope := mem_of_mem_chain member (mem_frames isFrame).1
  exact ⟨frame, isFrame, symbol?_of_mem_values settles isScope (List.mem_filter.mp listed).1⟩

theorem owner_of_tracked {scope : Scope} {symbol : Symbol} (member : scope ∈ model.scopes)
    (tracked : symbol ∈ model.trackedSymbols scope) :
    ∃ frame ∈ model.chain scope, frame.kind ≠ .module ∧ frame.kind ≠ .classBody ∧
      frame.symbol? symbol.name = some symbol := by
  obtain ⟨frame, isFrame, own⟩ := frame_of_tracked settles member tracked
  obtain ⟨isOuter, notModule, notClass⟩ := mem_frames isFrame
  exact ⟨frame, isOuter, notModule, notClass, own⟩

theorem symbol?_of_tracked {scope own : Scope} {symbol : Symbol} (member : scope ∈ model.scopes)
    (isOwner : own ∈ model.scopes) (tracked : symbol ∈ model.trackedSymbols scope)
    (scopeId : symbol.scopeId = own.id) : own.symbol? symbol.name = some symbol := by
  obtain ⟨frame, isOuter, _, _, owned⟩ := owner_of_tracked settles member tracked
  have isFrame := mem_of_mem_chain member isOuter
  have same : frame = own := by
    apply List.inj_on_of_nodup_map (settled_ids_nodup settles) isFrame isOwner
    rw [← (bindingsOf_symbol settles isFrame owned).2.1, scopeId]
  rwa [← same]

include wellFormed

private theorem scopeOf_siblings {parent first second : Node} {role : Role}
    (within : parent ∈ tree.nodes)
    (block : role.isBlock = true) (left : first ∈ parent.field role)
    (right : second ∈ parent.field role) : model.scopeOf first = model.scopeOf second := by
  obtain ⟨spot, visited⟩ := Spot.Visited.exists_of_mem within
  have stands : ∀ statement ∈ parent.field role,
      Spot.StandsIn tree statement (spot.step parent role first.id).place.scope := by
    intro statement member
    obtain ⟨isChild, plays⟩ := Node.mem_field.mp member
    obtain ⟨slot, listed, _⟩ := wellFormed.slot_of_child within isChild
    rw [plays] at listed
    apply Spot.standsIn_field wellFormed visited member slot listed
    · rw [Form.slot_of_block block listed]
      decide
    · intro id
      rw [Spot.step_block block spot parent id first.id]
  exact scopeOf_eq settles wellFormed (stands first left) (stands second right)

theorem not_tracked_of_lookupModule {scope : Scope} {name : String} {symbol : Symbol}
    (member : scope ∈ model.scopes) (found : model.lookupModule name = some symbol) :
    symbol ∉ model.trackedSymbols scope := by
  intro tracked
  obtain ⟨frame, isOuter, notModule, _, own⟩ := owner_of_tracked settles member tracked
  have isFrame := mem_of_mem_chain member isOuter
  rcases Option.or_eq_some_iff.mp found with ofModule | ⟨_, builtin⟩
  · rw [owner_unique settles isFrame (moduleScope_mem settles) own ofModule] at notModule
    exact notModule (moduleScope_header settles wellFormed).2.1
  · unfold builtinSymbol? at builtin
    split at builtin
    · apply (bindingsOf_symbol settles isFrame own).2.2.1
      cases builtin
      rfl
    · cases builtin

/-- Nothing between a scope and one inside it changes what a name that means a symbol followed from
the outer scope means there. -/
theorem lookupAround_outer {scope base : Scope} {name : String} {symbol : Symbol}
    (member : scope ∈ model.scopes) (inside : base ∈ model.chain scope)
    (tracked : symbol ∈ model.trackedSymbols base)
    (found : model.lookupAround name (model.chain scope) = some symbol) :
    model.lookupAround name (model.chain base) = some symbol := by
  have isBase := mem_of_mem_chain member inside
  revert inside found
  apply inwardInduction settles wellFormed ?_ ?_ member
  · intro inside found
    rw [chain, around_module settles wellFormed, List.mem_singleton] at inside
    rw [inside]
    exact found
  · intro scope isScope inner induction inside found
    obtain ⟨isOuter, _, around⟩ := around_of_mem settles wellFormed isScope inner
    rcases List.mem_cons.mp inside with rfl | further
    · exact found
    rw [around] at further
    have hidden : scope.symbol? name ≠ some symbol := by
      intro own
      obtain ⟨frame, isFrame, _, _, owned⟩ := owner_of_tracked settles isBase tracked
      rw [owner_unique settles (mem_of_mem_chain isBase isFrame) isScope owned own] at isFrame
      apply not_mem_around_self settles wellFormed isScope
      rw [around]
      exact (chain_suffix settles wellFormed isOuter further).subset isFrame
    have global : model.lookupModule name ≠ some symbol := fun isGlobal =>
      not_tracked_of_lookupModule settles wellFormed isBase isGlobal tracked
    apply induction further
    rw [chain, around, lookupAround] at found
    split at found
    · exact found
    · split at found
      · exact absurd found global
      · split at found
        · exact found
        · split at found
          · next own => exact absurd (own.trans found) hidden
          · exact found

/-- A scope that sees a followed symbol hands it on. -/
theorem lookupAround_of_lookup {scope base : Scope} {name : String} {symbol : Symbol}
    (member : scope ∈ model.scopes) (inside : base ∈ model.chain scope)
    (tracked : symbol ∈ model.trackedSymbols base) (found : model.lookup scope name = some symbol) :
    model.lookupAround name (model.chain scope) = some symbol := by
  have isBase := mem_of_mem_chain member inside
  have global : model.moduleLevel name ≠ some symbol := fun isGlobal =>
    not_tracked_of_lookupModule settles wellFormed isBase isGlobal tracked
  obtain ⟨frame, isFrame, notModule, notClass, owned⟩ := owner_of_tracked settles isBase tracked
  rw [lookup_eq_seenIn] at found
  rw [chain, lookupAround_cons]
  unfold seenIn at found
  unfold handedOn
  cases kind : scope.kind with
  | module =>
      -- Only the module is at or around the module, and it is no frame.
      have isModule := isModule_of_kind settles wellFormed member kind
      rw [isModule, chain, around_module settles wellFormed, List.mem_singleton] at inside
      rw [inside, chain, around_module settles wellFormed, List.mem_singleton] at isFrame
      rw [isFrame] at notModule
      exact absurd (moduleScope_header settles wellFormed).2.1 notModule
  | classBody =>
      simp only
      split at found
      · exact absurd found global
      · split at found
        · exact found
        · rcases Option.or_eq_some_iff.mp found with own | ⟨_, inherited⟩
          · have isOwner := mem_of_mem_chain isBase isFrame
            rw [owner_unique settles isOwner member owned own] at notClass
            exact absurd kind notClass
          · exact inherited
  | function | lambda | comprehension =>
      simpa [kind] using found

/-- Of the symbols that are followed from a scope, a name means inside the scope only the one that
the scope hands on. -/
theorem handedOn_of_lookup {scope base : Scope} {name : String} {symbol : Symbol}
    (member : scope ∈ model.scopes) (inside : base ∈ model.chain scope)
    (tracked : symbol ∈ model.trackedSymbols base) (found : model.lookup scope name = some symbol) :
    model.lookupAround name (model.chain base) = some symbol :=
  lookupAround_outer settles wellFormed member inside tracked
    (lookupAround_of_lookup settles wellFormed member inside tracked found)

private theorem chain_of_siblings {parent first node : Node} {role : Role} {rest : List Node}
    (siblings : tree.Siblings parent role (first :: rest)) {statement : Node}
    (member : statement ∈ first :: rest) (inside : node ∈ statement.nodes) :
    model.scopeOf first ∈ model.chain (model.scopeOf node) := by
  have listed : statement ∈ parent.field role := siblings.contiguous.subset member
  have isFirst : first ∈ parent.field role := siblings.contiguous.subset List.mem_cons_self
  obtain ⟨isChild, plays⟩ := siblings.child member
  obtain ⟨spot, visited⟩ := Spot.Visited.exists_of_mem (siblings.mem member)
  have block := Node.isBlock_of_fits (siblings.fits wellFormed member)
  obtain ⟨_, _, holds, opens⟩ :=
    scopes_of_block settles wellFormed visited block _ List.mem_cons_self
  rw [scopeOf_siblings settles wellFormed siblings.inside siblings.block isFirst listed]
  apply chain_of_statement settles wellFormed siblings.inside isChild
  · rw [plays]
    exact siblings.block
  · intro comprehension
    rw [comprehension] at opens
    generalize (model.scopeOf statement).node.form = form at holds opens
    cases form with
    | comprehension => cases holds
    | _ => cases opens
  · exact inside

theorem handedOn_of_means {parent first : Node} {role : Role} {rest : List Node} {name : String}
    {symbol : Symbol} (siblings : tree.Siblings parent role (first :: rest))
    (means : model.MeansIn (first :: rest) name symbol)
    (tracked : symbol ∈ model.trackedIn (first :: rest)) :
    model.lookupAround name (model.chain (model.scopeOf first)) = some symbol := by
  obtain ⟨root, isRoot, node, inside, _, found⟩ := means
  have around := chain_of_siblings settles wellFormed siblings isRoot inside
  exact handedOn_of_lookup settles wellFormed (scopeOf_mem settles node) around tracked found

/-- Two followed symbols that one name means in a run are the same. -/
theorem meaning_unique {parent : Node} {role : Role} {run : List Node} {name : String}
    {left right : Symbol} (siblings : tree.Siblings parent role run)
    (first : model.MeansIn run name left) (second : model.MeansIn run name right)
    (isLeft : left ∈ model.trackedIn run) (isRight : right ∈ model.trackedIn run) :
    left = right := by
  cases run with
  | nil => cases isLeft
  | cons statement rest =>
      have one := handedOn_of_means settles wellFormed siblings first isLeft
      have other := handedOn_of_means settles wellFormed siblings second isRight
      exact Option.some.inj (one.symm.trans other)

omit wellFormed in
theorem meansIn_name {run : List Node} {symbol : Symbol}
    (means : ∃ name, model.MeansIn run name symbol) : model.MeansIn run symbol.name symbol := by
  obtain ⟨name, root, isRoot, node, inside, mentions, found⟩ := means
  have named := name_of_lookup settles (scopeOf_mem settles node) found
  rw [← named] at mentions found
  exact ⟨root, isRoot, node, inside, mentions, found⟩

omit wellFormed in
theorem means_of_classified {first : Node} {rest : List Node} {symbol : Symbol}
    (member : symbol ∈ model.classified (first :: rest) (model.regionFlow (first :: rest))) :
    symbol ∈ model.trackedIn (first :: rest) ∧ symbol.kind.isVariable = true ∧
      model.MeansIn (first :: rest) symbol.name symbol := by
  have sourced := sourced_regionFlow model (first :: rest)
  rw [classified] at member
  simp only [List.mem_append] at member
  rcases member with ((needed | left) | assigned) | unaccounted
  · obtain ⟨live, isVariable⟩ := List.mem_filter.mp needed
    obtain ⟨tracked, means⟩ := sourced.read symbol (sourced.liveIn symbol live)
    exact ⟨tracked, isVariable, meansIn_name settles means⟩
  · obtain ⟨live, isVariable⟩ := List.mem_filter.mp left
    obtain ⟨tracked, means⟩ := sourced.written symbol (sourced.liveOut symbol live)
    exact ⟨tracked, isVariable, meansIn_name settles means⟩
  · obtain ⟨always, isLocal⟩ := List.mem_filter.mp assigned
    obtain ⟨tracked, means⟩ := sourced.written symbol (sourced.alwaysAssigned symbol always)
    refine ⟨tracked, ?_, meansIn_name settles means⟩
    rw [of_decide_eq_true isLocal]
    rfl
  · obtain ⟨node, listed, found⟩ := List.mem_filterMap.mp (List.mem_filter.mp unaccounted).1
    obtain ⟨root, isRoot, inside⟩ := List.mem_flatMap.mp listed
    split at found
    · next named =>
        obtain ⟨resolved, known⟩ := Option.filter_eq_some_iff.mp found
        rw [Bool.and_eq_true] at known
        have means := meansIn_of_resolve isRoot (Node.mem_walk.mp inside) named resolved
        exact ⟨of_decide_eq_true known.2, known.1, meansIn_name settles means⟩
    · cases found

omit wellFormed in
theorem means_of_captured {run : List Node} {name : String}
    (captured : name ∈ (model.dataFlow run).captured) :
    ∃ symbol ∈ model.trackedIn run, symbol.kind.isVariable = true ∧
      model.MeansIn run name symbol := by
  cases run with
  | nil => cases captured
  | cons first rest =>
      have listed : name ∈ namesOf (variablesOf (model.regionFlow (first :: rest)).captured) :=
        Text.mem_sortedNames.mp captured
      obtain ⟨symbol, member, isVariable, rfl⟩ := SymbolSet.mem_namesOf.mp listed
      obtain ⟨tracked, means⟩ := (sourced_regionFlow model (first :: rest)).captured symbol member
      exact ⟨symbol, tracked, isVariable, meansIn_name settles means⟩

/-- A classified name has the type of the one variable that it means in the run. -/
theorem lookup_types {parent : Node} {role : Role} {run : List Node}
    (siblings : tree.Siblings parent role run) {name : String}
    (classified : name ∈ (model.dataFlow run).inputs ∨ name ∈ (model.dataFlow run).outputs ∨
      name ∈ (model.dataFlow run).locals) :
    ∃ symbol ∈ model.trackedIn run, symbol.kind.isVariable = true ∧
      model.MeansIn run name symbol ∧
      (model.dataFlow run).types.lookup name = some symbol.declaredType := by
  cases run with
  | nil => rcases classified with input | output | isLocal <;> contradiction
  | cons first rest =>
      have facts : model.dataFlow (first :: rest) =
          model.factsOf (first :: rest) (model.regionFlow (first :: rest)) := rfl
      rw [facts] at classified ⊢
      obtain ⟨symbol, member, rfl⟩ := List.mem_map.mp (mem_namesOf_classified.mpr classified)
      obtain ⟨tracked, isVariable, means⟩ := means_of_classified settles member
      refine ⟨symbol, tracked, isVariable, means, ?_⟩
      rw [types_eq, List.lookup_graph]
      · congr 1
        generalize chosen : List.lookup symbol.name _ = type
        cases type with
        | none =>
            have absent := List.lookup_eq_none_iff.mp chosen _ (List.mem_map_of_mem member)
            simp at absent
        | some type =>
            obtain ⟨front, back, whole, _⟩ := List.lookup_eq_some_iff.mp chosen
            have listed : (symbol.name, type) ∈ front ++ (symbol.name, type) :: back := by simp
            rw [← whole] at listed
            obtain ⟨other, isOther, same⟩ := List.mem_map.mp listed
            obtain ⟨sameName, sameType⟩ := Prod.mk.inj same
            obtain ⟨otherTracked, _, otherMeans⟩ := means_of_classified settles isOther
            rw [sameName] at otherMeans
            rw [← meaning_unique settles wellFormed siblings otherMeans means otherTracked tracked]
            exact sameType.symm
      · simpa [or_assoc] using classified

end

/-- Names identify the followed symbols of a run of statements. -/
theorem names_identify_variables {path : String} {tree : Node} {model : Model}
    (wellFormed : tree.WellFormed) (built : build path tree = .ok model) {parent : Node}
    {role : Role} {run : List Node} (siblings : tree.Siblings parent role run) :
    (∀ name left right, model.MeansIn run name left → model.MeansIn run name right →
      left ∈ model.trackedIn run → right ∈ model.trackedIn run → left = right) ∧
    (∀ name, name ∈ (model.dataFlow run).inputs ∨ name ∈ (model.dataFlow run).outputs ∨
        name ∈ (model.dataFlow run).locals →
      ∃ symbol ∈ model.trackedIn run, symbol.kind.isVariable = true ∧
        model.MeansIn run name symbol ∧
        (model.dataFlow run).types.lookup name = some symbol.declaredType) ∧
    ∀ name symbol, model.MeansIn run name symbol → symbol ∈ model.trackedIn run →
      symbol.kind = .receiver →
        name ∉ (model.dataFlow run).inputs ∧ name ∉ (model.dataFlow run).outputs ∧
          name ∉ (model.dataFlow run).locals ∧ name ∉ (model.dataFlow run).captured := by
  have settles := settles_of_build built
  refine ⟨?_, ?_, ?_⟩
  · intro name left right first second isLeft isRight
    exact meaning_unique settles wellFormed siblings first second isLeft isRight
  · intro name classified
    exact lookup_types settles wellFormed siblings classified
  · intro name symbol means tracked receiver
    -- A variable of that name in the facts would be the receiver.
    have absent : ¬ ∃ other ∈ model.trackedIn run, other.kind.isVariable = true ∧
        model.MeansIn run name other := by
      intro ⟨other, otherTracked, isVariable, otherMeans⟩
      rw [meaning_unique settles wellFormed siblings otherMeans means otherTracked tracked,
        receiver] at isVariable
      cases isVariable
    have unclassified : ¬ (name ∈ (model.dataFlow run).inputs ∨
        name ∈ (model.dataFlow run).outputs ∨ name ∈ (model.dataFlow run).locals) := by
      intro classified
      obtain ⟨other, otherTracked, isVariable, otherMeans, _⟩ :=
        lookup_types settles wellFormed siblings classified
      exact absent ⟨other, otherTracked, isVariable, otherMeans⟩
    refine ⟨fun input => unclassified (Or.inl input),
      fun output => unclassified (Or.inr (Or.inl output)),
      fun isLocal => unclassified (Or.inr (Or.inr isLocal)), ?_⟩
    exact fun captured => absent (means_of_captured settles captured)

/-- The statement `self.y = [x for x in x]`. -/
def storing : Node :=
  .mk .assign ⟨7, .body, some ⟨⟨3, 8⟩, ⟨3, 31⟩⟩⟩ [
    .mk (.attribute "y" .store) ⟨8, .target, some ⟨⟨3, 8⟩, ⟨3, 14⟩⟩⟩ [
      .mk (.name "self" .load) ⟨9, .value, some ⟨⟨3, 8⟩, ⟨3, 12⟩⟩⟩ []],
    .mk (.comprehension .list) ⟨10, .value, some ⟨⟨3, 17⟩, ⟨3, 31⟩⟩⟩ [
      .mk (.name "x" .load) ⟨11, .element, some ⟨⟨3, 18⟩, ⟨3, 19⟩⟩⟩ [],
      .mk (.clause false) ⟨12, .clause, none⟩ [
        .mk (.name "x" .store) ⟨13, .target, some ⟨⟨3, 24⟩, ⟨3, 25⟩⟩⟩ [],
        .mk (.name "x" .load) ⟨14, .iterable, some ⟨⟨3, 29⟩, ⟨3, 30⟩⟩⟩ []]]]

/-- A method of a receiver and a number that consists of the statement. -/
def storingMethod : Node :=
  .mk (.functionDef false "m" none) ⟨2, .body, some ⟨⟨2, 4⟩, ⟨3, 31⟩⟩⟩ [
    .mk (.parameters []) ⟨3, .parameters, none⟩ [
      .mk (.parameter "self" none) ⟨4, .positional, some ⟨⟨2, 10⟩, ⟨2, 14⟩⟩⟩ [],
      .mk (.parameter "x" (some (.text "int"))) ⟨5, .positional, some ⟨⟨2, 16⟩, ⟨2, 22⟩⟩⟩ [
        .mk (.name "int" .load) ⟨6, .typeHint, some ⟨⟨2, 19⟩, ⟨2, 22⟩⟩⟩ []]],
    storing]

def storingModule : Node :=
  .mk .module ⟨0, .root, none⟩ [
    .mk (.classDef "C") ⟨1, .body, some ⟨⟨1, 0⟩, ⟨3, 31⟩⟩⟩ [storingMethod]]

private theorem siblings_storing : storingModule.Siblings storingMethod .body [storing] where
  inside := by simp [storingModule, Node.mem_nodes_mk, Node.self_mem_nodes]
  block := rfl
  contiguous := ⟨[], [], rfl⟩

/-- The comprehension has a variable `x` of its own, and still `x` is an input with the type of the
parameter; the receiver is nowhere in the facts. -/
theorem names_identify_variables_storing :
    ∃ model receiver, build "m.py" storingModule = .ok model ∧
      model.MeansIn [storing] "self" receiver ∧ receiver ∈ model.trackedIn [storing] ∧
      "self" ∉ (model.dataFlow [storing]).inputs ∧ "x" ∈ (model.dataFlow [storing]).inputs ∧
      ∃ parameter, model.MeansIn [storing] "x" parameter ∧
        (model.dataFlow [storing]).types.lookup "x" = some parameter.declaredType := by
  have checked : (build "m.py" storingModule).toOption.any (fun model =>
      storing.nodes.any (fun node => decide (node.identifier? = some "self") &&
        (model.lookup (model.scopeOf node) "self").any (fun symbol =>
          decide (symbol ∈ model.trackedIn [storing]) && symbol.kind == .receiver)) &&
      (model.dataFlow [storing]).inputs.contains "x") = true := by cbv
  obtain ⟨model, built, known⟩ := exists_of_check checked
  simp only [Bool.and_eq_true, List.any_eq_true, Option.any_eq_true, decide_eq_true_eq, beq_iff_eq,
    List.contains_iff_mem] at known
  obtain ⟨⟨node, inside, named, symbol, found, tracked, receiver⟩, input⟩ := known
  have means : model.MeansIn [storing] "self" symbol :=
    ⟨storing, List.mem_singleton_self _, node, inside, Or.inl named, found⟩
  obtain ⟨_, typed, absent⟩ :=
    names_identify_variables ⟨by decide, by decide⟩ built siblings_storing
  obtain ⟨parameter, _, _, meansX, type⟩ := typed "x" (Or.inl input)
  exact ⟨model, symbol, built, means, tracked, (absent "self" symbol means tracked receiver).1,
    input, parameter, meansX, type⟩

end Model

end SafeRefactor
