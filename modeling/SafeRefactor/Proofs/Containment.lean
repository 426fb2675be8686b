import SafeRefactor.Proofs.Nesting
import SafeRefactor.Proofs.Totality

/-!
# The variables of a function stay in the function

A name that belongs to a scope is bound and mentioned only at and inside that scope: what
other scopes bind reaches it through their nonlocal declarations, and these look outwards.
So whatever binds or mentions a variable of a function is a parameter of the function or
lies in one of its statements.
-/

namespace SafeRefactor

/-- The scope declares a parameter of its own nonlocal. -/
def Scope.Lends (scope : Scope) (name : String) : Prop :=
  name ∈ scope.nonlocals ∧ ∃ parameter ∈ scope.parameters, parameter.parameterName = name

namespace Setting

theorem first_of_symbolOf {setting : Setting} {name : String} {bindings : List Binding}
    {symbol : Symbol} (made : setting.symbolOf name bindings = .ok symbol) :
    ∃ first rest, Binding.inOrder bindings = first :: rest ∧
      symbol.kind = setting.kindOf first.node := by
  unfold symbolOf at made
  split at made
  · cases made
  · next first rest ordered =>
      refine ⟨first, rest, ordered, ?_⟩
      split at made
      · cases made
      · obtain rfl := Except.ok.inj made
        rfl

theorem form_of_kindOf {setting : Setting} {first : Node}
    (kind : setting.kindOf first = .parameter) :
    ∃ name hint, first.form = .parameter name hint := by
  unfold kindOf at kind
  split at kind
  · next form => exact ⟨_, _, form⟩
  all_goals first
    | cases kind
    | (split at kind <;> cases kind)

theorem not_parameter_of_kindOf {setting : Setting} {first : Node}
    (kind : setting.kindOf first = .localVariable) (name : String) (hint : Option Printed) :
    first.form ≠ .parameter name hint := by
  intro form
  simp only [kindOf, form] at kind
  split at kind <;> cases kind

end Setting

namespace Model

section

variable {path : String} {tree : Node} {model : Model} (settles : model.Settles path tree)
  (wellFormed : tree.WellFormed)

include settles

/-- The earliest binding of a symbol decides its kind. -/
theorem first_of_symbol {scope : Scope} {name : String} {symbol : Symbol}
    (member : scope ∈ model.scopes) (found : scope.symbol? name = some symbol) :
    ∃ first rest, Binding.inOrder (scope.bindingsOf name) = first :: rest ∧
      ∃ setting : Setting, symbol.kind = setting.kindOf first.node := by
  obtain ⟨origin, isOrigin, received⟩ := exists_recorded settles member
  have blank : ∀ name symbol, origin.symbol? name = some symbol → origin.Declares name symbol := by
    intro name symbol present
    rw [Scope.symbol?, ((recorded path tree).records origin isOrigin).symbols] at present
    cases present
  obtain ⟨setting, _, _, made⟩ := received.declares blank name symbol found
  obtain ⟨first, rest, ordered, kind⟩ := Setting.first_of_symbolOf made
  exact ⟨first, rest, ordered, setting, kind⟩

include wellFormed

theorem scopeOf_binding {key : NodeId} {name : String} {binding : Binding}
    (binds : .binds key name binding ∈ Event.ofModule tree) :
    binding.node ∈ tree.nodes ∧ (model.scopeOf binding.node).key = key := by
  rcases (Event.binds_iff wellFormed).mp binds with
    ⟨spot, visited, bound, rfl, _⟩ | ⟨callable, inside, isCallable, isParameter, rfl, _, _⟩
  · have notParameter : ¬ tree.IsParameter binding.node := by
      apply wellFormed.not_isParameter
      intro id hint form
      rw [form] at bound
      cases bound
    exact ⟨visited.mem,
      (scopeOf_standsIn settles wellFormed ⟨spot, visited, notParameter, rfl⟩).2⟩
  · refine ⟨(wellFormed.parameter_form inside isCallable isParameter).1, ?_⟩
    have isInner : binding.node ∈ callable.innerParts := by
      unfold Node.innerParts
      generalize callable.form = form at isCallable
      cases form with
      | functionDef | lambda => exact List.mem_append_left _ isParameter
      | _ => cases isCallable
    rw [Scope.key, (introduces_scopeOf settles wellFormed inside isInner).2]

theorem form_of_binding {owner : Scope} {name : String} {binding : Binding}
    (isOwner : owner ∈ model.scopes) (bound : binding ∈ owner.bindingsOf name) :
    binding.node.form.boundName? = some name ∨
      ∃ id hint, binding.node.form = .parameter id hint := by
  obtain ⟨origin, isOrigin, received⟩ := exists_recorded settles isOwner
  rw [mem_settled_bindings isOrigin received] at bound
  have told : ∃ key, .binds key name binding ∈ Event.ofModule tree := by
    rcases bound with own | ⟨scope, _, _, _, binds⟩
    · exact ⟨_, own⟩
    · exact ⟨_, binds⟩
  obtain ⟨key, binds⟩ := told
  rcases (Event.binds_iff wellFormed).mp binds with
    ⟨_, _, bound, _⟩ | ⟨callable, inside, isCallable, isParameter, _⟩
  · exact Or.inl bound
  · exact Or.inr (wellFormed.parameter_form inside isCallable isParameter).2

private theorem around_of_nonlocalOwner {origin inner owner : Scope} {name : String}
    (isOwner : owner ∈ model.scopes)
    (received : Scope.Received (moduleDeposits (recordedScopes path tree)) origin inner)
    (owned : nonlocalOwner? (recordedScopes path tree) origin name = some owner.key) :
    owner ∈ model.around inner := by
  obtain ⟨other, found, key⟩ := Option.map_eq_some_iff.mp owned
  have listed := (List.takeWhile_sublist _).subset (List.mem_of_find?_eq_some found)
  obtain ⟨settled, isSettled, otherReceived⟩ :=
    exists_of_forall₂_left (around_settled settles received) listed
  have same : settled = owner := by
    apply eq_of_settled_key settles wellFormed (mem_of_mem_around isSettled) isOwner
    rw [otherReceived.key, key]
  rw [← same]
  exact isSettled

omit settles in
private theorem parameter_of_received {origin settled : Scope} {name : String} {binding : Binding}
    (isOrigin : origin ∈ recordedScopes path tree)
    (received : Scope.Received (moduleDeposits (recordedScopes path tree)) origin settled)
    (binds : .binds origin.key name binding ∈ Event.ofModule tree) {id : String}
    {hint : Option Printed} (form : binding.node.form = .parameter id hint) :
    ∃ parameter ∈ settled.parameters, parameter.parameterName = name := by
  obtain ⟨_, kind, isParameter, named⟩ := parameter_of_binds wellFormed isOrigin binds form
  refine ⟨binding.node, ?_, named⟩
  rw [Scope.parameters, received.kind, received.node, if_pos]
  · exact isParameter
  · rcases kind with kind | kind
    · simp [kind]
    · simp [kind]

/-- Only the module owns what is declared global. -/
theorem kind_of_head {owner : Scope} (isOwner : owner ∈ model.scopes)
    (head : (recordedScopes path tree).head?.map Scope.key = some owner.key) :
    owner.kind = .module := by
  obtain ⟨first, _, isHead, received⟩ := moduleScope_settled settles
  have same : owner = model.moduleScope := by
    apply eq_of_settled_key settles wellFormed isOwner (moduleScope_mem settles)
    rw [received.key]
    exact Option.some.inj (head.symm.trans isHead)
  rw [same]
  exact (moduleScope_header settles wellFormed).2.1

/-- Whatever binds a name of a scope other than the module is evaluated at or inside the scope; a
parameter of another scope binds it only if that scope lends it. -/
theorem chain_of_binding {owner : Scope} {name : String} {binding : Binding}
    (isOwner : owner ∈ model.scopes) (inner : owner.kind ≠ .module)
    (bound : binding ∈ owner.bindingsOf name) :
    binding.node ∈ tree.nodes ∧ owner ∈ model.chain (model.scopeOf binding.node) ∧
      ∀ id hint, binding.node.form = .parameter id hint →
        (∃ parameter ∈ owner.parameters, parameter.parameterName = name) ∨
          ∃ scope ∈ model.scopes, owner ∈ model.around scope ∧ scope.Lends name := by
  obtain ⟨origin, isOrigin, received⟩ := exists_recorded settles isOwner
  rw [mem_settled_bindings isOrigin received] at bound
  rcases bound with own | ⟨scope, isScope, different, owned, binds⟩
  · obtain ⟨inTree, key⟩ := scopeOf_binding settles wellFormed own
    have same : model.scopeOf binding.node = owner := by
      apply eq_of_settled_key settles wellFormed (scopeOf_mem settles _) isOwner
      rw [key, received.key]
    rw [same]
    refine ⟨inTree, List.mem_cons_self, ?_⟩
    intro id hint form
    exact Or.inl (parameter_of_received wellFormed isOrigin received own form)
  · obtain ⟨settled, isSettled, settledReceived⟩ := exists_settled settles isScope
    rw [← received.key] at owned different
    have outwards : name ∈ scope.nonlocals ∧ owner ∈ model.around settled := by
      rcases ownerOf?_cases owned with ⟨_, _, head⟩ | ⟨_, isNonlocal, nearest⟩ | ⟨_, _, same⟩
      · exact absurd (kind_of_head settles wellFormed isOwner head) inner
      · exact ⟨isNonlocal,
          around_of_nonlocalOwner settles wellFormed isOwner settledReceived nearest⟩
      · exact absurd same.symm different
    obtain ⟨inTree, key⟩ := scopeOf_binding settles wellFormed binds
    have same : model.scopeOf binding.node = settled := by
      apply eq_of_settled_key settles wellFormed (scopeOf_mem settles _) isSettled
      rw [key, settledReceived.key]
    rw [same]
    refine ⟨inTree, List.mem_cons_of_mem _ outwards.2, ?_⟩
    intro id hint form
    refine Or.inr ⟨settled, isSettled, outwards.2, ?_,
      parameter_of_received wellFormed isScope settledReceived binds form⟩
    rw [settledReceived.nonlocals]
    exact outwards.1

theorem chain_of_lookup {owner scope : Scope} {name other : String} {symbol : Symbol}
    (isOwner : owner ∈ model.scopes) (inner : owner.kind ≠ .module)
    (owned : owner.symbol? name = some symbol) (member : scope ∈ model.scopes)
    (found : model.lookup scope other = some symbol) : owner ∈ model.chain scope := by
  cases supplied_of_lookup found with
  | builtin known =>
      have notBuiltin := (bindingsOf_symbol settles isOwner owned).2.2.1
      unfold builtinSymbol? at known
      split at known
      · cases known
        exact absurd rfl notBuiltin
      · cases known
  | ofModule own =>
      rw [owner_unique settles isOwner (moduleScope_mem settles) owned own] at inner
      exact absurd (moduleScope_header settles wellFormed).2.1 inner
  | owned isOther own =>
      rw [owner_unique settles isOwner (mem_of_mem_chain member isOther) owned own]
      exact isOther

section

variable {function : Node} {own : Scope} (isFunction : function.form.isFunction = true)
  (introduced : model.Introduces function own)

include isFunction introduced

theorem kind_of_function : own.kind = .function := by
  have opens := (opens_of_mem settles wellFormed introduced.1).2
  obtain ⟨isAsync, name, returns, form⟩ := Form.functionDef_of_isFunction isFunction
  rw [introduced.2, form] at opens
  exact (Option.some.inj opens).symm

/-- Whatever binds a variable of a function is a parameter of the function or lies in its body. -/
theorem body_of_binding {name : String} {binding : Binding}
    (bound : binding ∈ own.bindingsOf name) :
    binding.node ∈ function.parameters ∨
      ∃ statement ∈ function.field .body, binding.node ∈ statement.nodes := by
  have kind := kind_of_function settles wellFormed isFunction introduced
  obtain ⟨inTree, inside, _⟩ :=
    chain_of_binding settles wellFormed introduced.1 (by simp [kind]) bound
  exact body_of_chain settles wellFormed isFunction introduced inTree inside

theorem body_of_reference {name : String} {symbol : Symbol} {reference : Node}
    (owned : own.symbol? name = some symbol) (isReference : reference ∈ model.referencesOf symbol) :
    ∃ statement ∈ function.field .body, reference ∈ statement.nodes := by
  have kind := kind_of_function settles wellFormed isFunction introduced
  obtain ⟨member, identifier, resolved⟩ := mem_referencesOf.mp isReference
  rw [settles.source] at member
  have inside := chain_of_lookup settles wellFormed introduced.1 (by simp [kind]) owned
    (scopeOf_mem settles reference) resolved
  rcases body_of_chain settles wellFormed isFunction introduced member inside with
    isParameter | inBody
  · have inTree := (opens_of_mem settles wellFormed introduced.1).1
    rw [introduced.2] at inTree
    obtain ⟨_, id, hint, form⟩ :=
      wellFormed.parameter_form inTree (Form.isCallable_of_isFunction isFunction) isParameter
    rw [Node.identifier?, form] at identifier
    cases identifier
  · exact inBody

end

end

end Model

end SafeRefactor
