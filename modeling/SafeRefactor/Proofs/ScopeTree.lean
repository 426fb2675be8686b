import SafeRefactor.Proofs.LexicalScope

/-!
# The tree of scopes

Scopes correspond one to one to the constructs that open them, and the scope directly
around a scope is the one in which its construct is evaluated.  The scopes around a scope
are therefore those at and around that one, and no scope is around itself.
-/

namespace SafeRefactor

namespace Model

def parentOf? (model : Model) (scope : Scope) : Option Scope :=
  scope.parentKey?.bind (findScope? model.scopes)

/-- A scope and the scopes around it, innermost first. -/
def chain (model : Model) (scope : Scope) : List Scope :=
  scope :: model.around scope

theorem mem_of_mem_chain {model : Model} {scope outer : Scope} (member : scope ∈ model.scopes)
    (isOuter : outer ∈ model.chain scope) : outer ∈ model.scopes := by
  rcases List.mem_cons.mp isOuter with rfl | further
  · exact member
  · exact mem_of_mem_around further

/-- A symbol of the name is built in, belongs to the module or belongs to one of the scopes. -/
inductive Supplied (model : Model) (scopes : List Scope) (name : String) (symbol : Symbol) :
    Prop where
  | builtin : builtinSymbol? name = some symbol → Supplied model scopes name symbol
  | ofModule : model.moduleScope.symbol? name = some symbol → Supplied model scopes name symbol
  | owned {owner : Scope} : owner ∈ scopes → owner.symbol? name = some symbol →
      Supplied model scopes name symbol

section

variable {model : Model} {scope : Scope} {scopes : List Scope} {name : String} {symbol : Symbol}

theorem Supplied.cons (supplied : model.Supplied scopes name symbol) :
    model.Supplied (scope :: scopes) name symbol := by
  cases supplied with
  | builtin found => exact .builtin found
  | ofModule found => exact .ofModule found
  | owned isOwner found => exact .owned (List.mem_cons_of_mem _ isOwner) found

private theorem supplied_of_lookupModule (found : model.lookupModule name = some symbol) :
    model.Supplied scopes name symbol := by
  rcases Option.or_eq_some_iff.mp found with own | ⟨_, builtin⟩
  · exact .ofModule own
  · exact .builtin builtin

private theorem supplied_of_lookupAround (found : model.lookupAround name scopes = some symbol) :
    model.Supplied scopes name symbol := by
  induction scopes with
  | nil => exact .builtin found
  | cons scope rest induction =>
      rw [lookupAround] at found
      split at found
      · exact (induction found).cons
      · split at found
        · exact supplied_of_lookupModule found
        · split at found
          · exact (induction found).cons
          · split at found
            · next own =>
                cases found
                exact .owned List.mem_cons_self own
            · exact (induction found).cons

theorem supplied_of_lookup (found : model.lookup scope name = some symbol) :
    model.Supplied (model.chain scope) name symbol := by
  unfold lookup at found
  split at found
  · exact supplied_of_lookupModule found
  · split at found
    · exact (supplied_of_lookupAround found).cons
    · split at found
      · next own =>
          cases found
          exact .owned List.mem_cons_self own
      · exact (supplied_of_lookupAround found).cons

end

section

variable {path : String} {tree : Node} {model : Model} (settles : model.Settles path tree)
  (wellFormed : tree.WellFormed)

include settles

theorem scopeOf_mem (node : Node) : model.scopeOf node ∈ model.scopes := by
  unfold scopeOf
  cases found : (model.placement[node.id]?).bind (findScope? model.scopes) with
  | none => exact moduleScope_mem settles
  | some scope =>
      obtain ⟨_, _, isFound⟩ := Option.bind_eq_some_iff.mp found
      exact List.mem_of_find?_eq_some isFound

theorem name_of_lookup {scope : Scope} (member : scope ∈ model.scopes) {name : String}
    {symbol : Symbol} (found : model.lookup scope name = some symbol) : symbol.name = name := by
  cases supplied_of_lookup found with
  | builtin known =>
      unfold builtinSymbol? at known
      split at known
      · cases known
        rfl
      · cases known
  | ofModule own => exact (bindingsOf_symbol settles (moduleScope_mem settles) own).1
  | owned isOwner own =>
      exact (bindingsOf_symbol settles (mem_of_mem_chain member isOwner) own).1

theorem owner_unique {first second : Scope} {name other : String} {symbol : Symbol}
    (isFirst : first ∈ model.scopes) (isSecond : second ∈ model.scopes)
    (left : first.symbol? name = some symbol) (right : second.symbol? other = some symbol) :
    first = second := by
  apply List.inj_on_of_nodup_map (settled_ids_nodup settles) isFirst isSecond
  rw [← (bindingsOf_symbol settles isFirst left).2.1,
    (bindingsOf_symbol settles isSecond right).2.1]

include wellFormed

theorem opens_of_mem {scope : Scope} (member : scope ∈ model.scopes) :
    scope.node ∈ tree.nodes ∧ scope.node.form.scopeKind? = some scope.kind := by
  obtain ⟨origin, isOrigin, received⟩ := exists_recorded settles member
  have opens := ((recorded path tree).records origin isOrigin).opens
  obtain ⟨spot, visited, kind, _⟩ := (Event.opens_iff wellFormed).mp opens
  rw [received.node, received.kind]
  exact ⟨visited.mem, kind⟩

theorem findScope?_key {scope : Scope} (member : scope ∈ model.scopes) :
    findScope? model.scopes scope.key = some scope :=
  (findScope?_eq_some (settled_keys_nodup settles wellFormed)).mpr ⟨member, rfl⟩

/-- Each construct that opens a scope is the node of one scope, and of one only. -/
theorem nodes_perm_openers : (model.scopes.map Scope.node).Perm
    (tree.nodes.filter (fun node => node.form.scopeKind?.isSome)) := by
  have distinctScopes : (model.scopes.map Scope.node).Nodup := by
    apply List.Nodup.of_map Node.id
    rw [List.map_map]
    exact settled_keys_nodup settles wellFormed
  have distinctNodes := wellFormed.distinct.nodup_nodes.filter
    (fun node => node.form.scopeKind?.isSome)
  apply (List.perm_ext_iff_of_nodup distinctScopes distinctNodes).mpr
  intro node
  rw [List.mem_map, List.mem_filter]
  constructor
  · rintro ⟨scope, member, rfl⟩
    obtain ⟨inside, opens⟩ := opens_of_mem settles wellFormed member
    exact ⟨inside, by rw [opens]; rfl⟩
  · intro ⟨inside, opens⟩
    obtain ⟨kind, opens⟩ := Option.isSome_iff_exists.mp opens
    obtain ⟨scope, introduced, _⟩ := exists_introduced settles wellFormed inside opens
    exact ⟨scope, introduced.1, introduced.2⟩

omit wellFormed in
theorem scopeById?_id {scope : Scope} (member : scope ∈ model.scopes) :
    model.scopeById? scope.id = some scope := by
  unfold scopeById?
  cases found : model.scopes.find? (fun other => other.id = scope.id) with
  | none =>
      have absent := List.find?_eq_none.mp found scope member
      simp at absent
  | some other =>
      have same := List.find?_some found
      rw [decide_eq_true_eq] at same
      rw [List.inj_on_of_nodup_map (settled_ids_nodup settles) (List.mem_of_find?_eq_some found)
        member same]

theorem isModule_of_kind {scope : Scope} (member : scope ∈ model.scopes)
    (kind : scope.kind = .module) : scope = model.moduleScope := by
  obtain ⟨inside, opens⟩ := opens_of_mem settles wellFormed member
  have isTree : scope.node = tree := by
    apply wellFormed.eq_of_module inside
    rw [kind] at opens
    generalize scope.node.form = form at opens
    cases form with
    | module => rfl
    | _ => cases opens
  apply eq_of_settled_key settles wellFormed member (moduleScope_mem settles)
  rw [Scope.key, Scope.key, isTree, (moduleScope_header settles wellFormed).1]

/-- The scopes around a scope are the one in which its construct is evaluated and the scopes around
that one. -/
theorem around_of_mem {scope : Scope} (member : scope ∈ model.scopes)
    (inner : scope.kind ≠ .module) :
    model.scopeOf scope.node ∈ model.scopes ∧
      model.parentOf? scope = some (model.scopeOf scope.node) ∧
      model.around scope = model.chain (model.scopeOf scope.node) := by
  obtain ⟨openers, nested, outer⟩ := exists_nested settles wellFormed member
  generalize opened : scope.node :: openers = all at nested
  cases nested with
  | module =>
      obtain ⟨isTree, _⟩ := List.cons.inj opened
      have opens := (opens_of_mem settles wellFormed member).2
      rw [isTree, Node.Grammatical.form_eq wellFormed.grammatical] at opens
      exact absurd (Option.some.inj opens).symm inner
  | @inside spot opener others visited form opens nested place =>
      obtain ⟨rfl, rfl⟩ := List.cons.inj opened
      cases openers with
      | nil => cases nested
      | cons parent rest =>
          obtain ⟨origin, _, settled, isSettled, received, node, around, found⟩ :=
            find_of_nested settles wellFormed nested
          have notParameter : ¬ tree.IsParameter scope.node := by
            apply wellFormed.not_isParameter
            intro name hint same
            rw [same] at opens
            cases opens
          obtain ⟨isScope, key⟩ :=
            scopeOf_standsIn settles wellFormed ⟨spot, visited, notParameter, rfl⟩
          obtain ⟨innermost, _⟩ := List.cons.inj place
          have same : model.scopeOf scope.node = settled := by
            apply eq_of_settled_key settles wellFormed isScope isSettled
            rw [key, innermost, received.key, Scope.key, node]
          rw [same]
          refine ⟨isSettled, ?_, ?_⟩
          · rw [parentOf?, Scope.parentKey?, outer, List.map_cons, List.head?_cons,
              Option.bind_some, found]
          · unfold chain Model.around scopesAround
            rw [outer, List.map_cons, List.filterMap_cons, found, received.outer, around]

theorem parentOf?_module : model.parentOf? model.moduleScope = none := by
  rw [parentOf?, Scope.parentKey?, (moduleScope_header settles wellFormed).2.2]
  rfl

theorem around_module : model.around model.moduleScope = [] := by
  unfold Model.around scopesAround
  rw [(moduleScope_header settles wellFormed).2.2]
  rfl

theorem mem_childrenOf {scope child : Scope} (member : scope ∈ model.scopes) :
    child ∈ model.childrenOf scope ↔
      child ∈ model.scopes ∧ model.parentOf? child = some scope := by
  rw [childrenOf, List.mem_filter, decide_eq_true_eq]
  apply and_congr_right
  intro isChild
  rw [parentOf?]
  constructor
  · intro parent
    rw [parent, Option.bind_some, findScope?_key settles wellFormed member]
  · intro parent
    obtain ⟨key, isKey, found⟩ := Option.bind_eq_some_iff.mp parent
    obtain ⟨_, same⟩ := (findScope?_eq_some (settled_keys_nodup settles wellFormed)).mp found
    rw [isKey, same]

/-- Induction on scopes from the module inwards. -/
theorem inwardInduction {motive : Scope → Prop} (atModule : motive model.moduleScope)
    (step : ∀ scope ∈ model.scopes, scope.kind ≠ .module →
      motive (model.scopeOf scope.node) → motive scope)
    {scope : Scope} (member : scope ∈ model.scopes) : motive scope := by
  -- One scope less is around the scope in which a construct is evaluated.
  induction depth : (model.around scope).length using Nat.strongRecOn generalizing scope with
  | _ _ induction =>
      by_cases kind : scope.kind = .module
      · rw [isModule_of_kind settles wellFormed member kind]
        exact atModule
      · obtain ⟨isOuter, _, around⟩ := around_of_mem settles wellFormed member kind
        apply step scope member kind
        apply induction _ _ isOuter rfl
        rw [← depth, around]
        exact Nat.lt_succ_self _

theorem chain_suffix {scope outer : Scope} (member : scope ∈ model.scopes)
    (isOuter : outer ∈ model.chain scope) : model.chain outer <:+ model.chain scope := by
  revert isOuter
  apply inwardInduction settles wellFormed ?_ ?_ member
  · intro isOuter
    rw [chain, around_module settles wellFormed, List.mem_singleton] at isOuter
    rw [isOuter]
  · intro scope isScope kind induction isOuter
    obtain ⟨_, _, around⟩ := around_of_mem settles wellFormed isScope kind
    rcases List.mem_cons.mp isOuter with rfl | further
    · exact List.suffix_refl _
    · rw [around] at further
      apply (induction further).trans
      rw [← around]
      exact List.suffix_cons scope (model.around scope)

theorem not_mem_around_self {scope : Scope} (member : scope ∈ model.scopes) :
    scope ∉ model.around scope := by
  intro inside
  by_cases kind : scope.kind = .module
  · rw [isModule_of_kind settles wellFormed member kind, around_module settles wellFormed] at inside
    cases inside
  · obtain ⟨isOuter, _, around⟩ := around_of_mem settles wellFormed member kind
    rw [around] at inside
    have shorter := (chain_suffix settles wellFormed isOuter inside).length_le
    rw [← around, chain, List.length_cons] at shorter
    omega

end

/-- There is one scope for each construct that opens one, and the scope around it is the one in
which the construct is evaluated. -/
theorem scopes_match_constructs {path : String} {tree : Node} {model : Model}
    (wellFormed : tree.WellFormed) (built : build path tree = .ok model) :
    (model.scopes.map Scope.node).Perm
        (tree.nodes.filter (fun node => node.form.scopeKind?.isSome)) ∧
      (model.scopes.map Scope.id).Nodup ∧
      ∀ scope ∈ model.scopes,
        scope.node.form.scopeKind? = some scope.kind ∧
        model.scopeById? scope.id = some scope ∧
        model.scopeOpenedBy? scope.node = some scope ∧
        (scope.kind ≠ .module → model.parentOf? scope = some (model.scopeOf scope.node)) ∧
        (scope.kind = .module → model.parentOf? scope = none) ∧
        ∀ child, child ∈ model.childrenOf scope ↔
          child ∈ model.scopes ∧ model.parentOf? child = some scope := by
  have settles := settles_of_build built
  refine ⟨nodes_perm_openers settles wellFormed, settled_ids_nodup settles, ?_⟩
  intro scope member
  refine ⟨(opens_of_mem settles wellFormed member).2, scopeById?_id settles member,
    findScope?_key settles wellFormed member, ?_, ?_, ?_⟩
  · intro inner
    exact (around_of_mem settles wellFormed member inner).2.1
  · intro kind
    rw [isModule_of_kind settles wellFormed member kind]
    exact parentOf?_module settles wellFormed
  · intro child
    exact mem_childrenOf settles wellFormed member

/-- Two functions of one name; the first has a lambda as a default and returns a list
comprehension. -/
def twinModule : Node :=
  .mk .module ⟨0, .root, none⟩ [
    .mk (.functionDef false "f" none) ⟨1, .body, some ⟨⟨1, 0⟩, ⟨2, 25⟩⟩⟩ [
      .mk (.parameters []) ⟨2, .parameters, none⟩ [
        .mk (.parameter "a" none) ⟨3, .positional, some ⟨⟨1, 6⟩, ⟨1, 7⟩⟩⟩ [],
        .mk .lambda ⟨4, .default, some ⟨⟨1, 8⟩, ⟨1, 17⟩⟩⟩ [
          .mk (.parameters []) ⟨5, .parameters, none⟩ [],
          .mk (.constant .int "0") ⟨6, .result, some ⟨⟨1, 16⟩, ⟨1, 17⟩⟩⟩ []]],
      .mk .returnStmt ⟨7, .body, some ⟨⟨2, 4⟩, ⟨2, 25⟩⟩⟩ [
        .mk (.comprehension .list) ⟨8, .value, some ⟨⟨2, 11⟩, ⟨2, 25⟩⟩⟩ [
          .mk (.name "x" .load) ⟨9, .element, some ⟨⟨2, 12⟩, ⟨2, 13⟩⟩⟩ [],
          .mk (.clause false) ⟨10, .clause, none⟩ [
            .mk (.name "x" .store) ⟨11, .target, some ⟨⟨2, 18⟩, ⟨2, 19⟩⟩⟩ [],
            .mk (.name "a" .load) ⟨12, .iterable, some ⟨⟨2, 23⟩, ⟨2, 24⟩⟩⟩ []]]]],
    .mk (.functionDef false "f" none) ⟨13, .body, some ⟨⟨3, 0⟩, ⟨4, 8⟩⟩⟩ [
      .mk (.parameters []) ⟨14, .parameters, none⟩ [],
      .mk .passStmt ⟨15, .body, some ⟨⟨4, 4⟩, ⟨4, 8⟩⟩⟩ []]]

/-- The two functions have different scopes, and each is found by its text. -/
theorem scopes_match_constructs_twin :
    twinModule.WellFormed ∧ ∃ model, build "m.py" twinModule = .ok model ∧
      model.scopes.map Scope.id =
        ["m.py::<module>", "m.py::<lambda>", "m.py::f", "m.py::f.<listcomp>", "m.py::f#2"] ∧
      ∀ scope ∈ model.scopes, model.scopeById? scope.id = some scope := by
  have wellFormed : twinModule.WellFormed := ⟨by decide, by decide⟩
  have checked : (build "m.py" twinModule).toOption.any (fun model =>
      model.scopes.map Scope.id ==
        ["m.py::<module>", "m.py::<lambda>", "m.py::f", "m.py::f.<listcomp>", "m.py::f#2"]) =
      true := by cbv
  obtain ⟨model, built, known⟩ := exists_of_check checked
  refine ⟨wellFormed, model, built, eq_of_beq known, ?_⟩
  intro scope member
  exact ((scopes_match_constructs wellFormed built).2.2 scope member).2.1

end Model

end SafeRefactor
