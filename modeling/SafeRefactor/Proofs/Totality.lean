import SafeRefactor.Proofs.Locality
import SafeRefactor.Proofs.Ownership

/-!
# Programs that can be analysed

A symbol is made of the bindings of its name.  That fails where a parameter is to be
typed in a scope that has no parameters.  Parameters are bound in the scope of their
callable, and a `nonlocal` statement takes them to a function, so only a `global` statement
can take one to such a scope; and it has to name a parameter of its own function, which
the compiler rejects.  It fails too where the type that is stated of a name cannot be
written out.  All other modules have a model, and programs of such modules have findings.
The model of a module that the compiler rejects is still asked for when another module
imports from it.
-/

namespace SafeRefactor

namespace Node

/-- The parameter list tells of each keyword-only parameter whether it has a default. -/
def TellsDefaults (callable : Node) : Prop :=
  callable.keywordOnlyParameters.length ≤ callable.keywordDefaultMask.length

instance (callable : Node) : Decidable callable.TellsDefaults :=
  inferInstanceAs (Decidable (_ ≤ _))

/-- The function declares a parameter without annotation global in its body. -/
def GivesAwayParameter (tree function : Node) : Prop :=
  ∃ parameter ∈ function.parameters, parameter.parameterHint? = none ∧
    parameter.parameterName ∈ (Event.ofModule tree).flatMap (Event.globalsIn function.id)

instance (tree function : Node) : Decidable (tree.GivesAwayParameter function) :=
  inferInstanceAs (Decidable (∃ parameter ∈ function.parameters, _ ∧ _))

/-- The types that a node states of names: the annotation of a parameter or of a name that is
assigned, and the class that the name of a handler stands for. -/
def namedTypes (node : Node) : List Printed :=
  match node.form with
  | .parameter _ hint => hint.toList
  | .annAssign hint =>
      if (node.field .target).any (fun target => target.form.boundName?.isSome) then [hint.text]
      else []
  | .handler (some _) caught =>
      if ((node.only? .caught).bind lastName?).isSome then caught.toList else []
  | _ => []

/-- The types that are stated of names can be written out. -/
def Printable (tree : Node) : Prop :=
  ∀ node ∈ tree.nodes, ∀ type ∈ node.namedTypes, type.fault? = none

instance (tree : Node) : Decidable tree.Printable :=
  inferInstanceAs (Decidable (∀ node ∈ tree.nodes, ∀ type ∈ node.namedTypes, _))

instance (tree : Node) : Decidable tree.WellFormed :=
  decidable_of_iff (tree.grammatical = true ∧ tree.Distinct)
    ⟨fun both => ⟨both.1, both.2⟩, fun wellFormed => ⟨wellFormed.grammatical, wellFormed.distinct⟩⟩

theorem TellsDefaults.own {callable parameter : Node} (tells : callable.TellsDefaults)
    (member : parameter ∈ callable.keywordOnlyParameters) :
    callable.tellsDefault parameter = true := by
  have isThere : (parameter.placeIn callable.keywordOnlyParameters).isSome = true := by
    rw [placeIn, List.findIdx?_isSome, List.any_eq_true]
    exact ⟨parameter, member, by simp⟩
  obtain ⟨place, found⟩ := Option.isSome_iff_exists.mp isThere
  have inside : place < callable.keywordOnlyParameters.length :=
    (List.findIdx?_eq_some_iff_findIdx_eq.mp found).1
  rw [tellsDefault, found, Option.any_some, decide_eq_true_eq]
  exact Nat.lt_of_lt_of_le inside tells

end Node

namespace Binding

/-- The types that are stated of the name where it is bound. -/
def types (binding : Binding) : List Printed :=
  binding.hint?.toList ++
    match binding.node.form with
    | .handler _ caught =>
        if ((binding.node.only? .caught).bind Node.lastName?).isSome then caught.toList else []
    | _ => []

/-- What is stated where the name is bound can be written out. -/
def Printable (binding : Binding) : Prop :=
  ∀ type ∈ binding.types, type.fault? = none

private theorem Printable.of_hint {binding : Binding} (printable : binding.Printable)
    {hint : Printed} (isHint : binding.hint? = some hint) : hint.fault? = none :=
  printable hint (List.mem_append_left _ (by simp [isHint]))

private theorem Printable.of_handler {binding : Binding} (printable : binding.Printable)
    {name : Option String} {caught : Printed}
    (form : binding.node.form = .handler name (some caught))
    (isNamed : ((binding.node.only? .caught).bind Node.lastName?).isSome = true) :
    caught.fault? = none := by
  apply printable
  apply List.mem_append_right
  rw [form]
  simp only [isNamed, if_true, Option.toList_some, List.mem_singleton]

end Binding

namespace Spot

/-- The construct around a child is its parent, except that parameters are visited where their list
is. -/
theorem parent_toChild (spot : Spot) (parent child : Node) :
    (spot.toChild parent child).place.parent = some parent ∨
      child.role.isParameter = true ∧ spot.toChild parent child = spot := by
  unfold toChild step
  split
  all_goals first
    | exact Or.inl rfl
    | split
      · first
          | exact Or.inl rfl
          | exact Or.inr ⟨‹_›, rfl⟩
      · exact Or.inl rfl

theorem Visited.mem_around {tree node : Node} {spot : Spot} (visited : Visited tree spot node)
    {outer : Node} (around : spot.place.parent = some outer) :
    outer ∈ tree.nodes ∧ (outer = tree ∨ node.role.isParameter = true ∨ node ∈ outer.children) := by
  let holds (spot : Spot) (node : Node) : Prop := ∀ outer, spot.place.parent = some outer →
    outer ∈ tree.nodes ∧ (outer = tree ∨ node.role.isParameter = true ∨ node ∈ outer.children)
  have start : holds (Event.atRoot tree) tree := by
    rintro outer ⟨⟩
    exact ⟨Node.self_mem_nodes tree, Or.inl rfl⟩
  suffices all : holds spot node from all outer around
  refine Reaches.invariant visited start ?_
  intro spot parent child reached isChild here outer around
  rcases parent_toChild spot parent child with own | ⟨isParameter, same⟩
  · obtain rfl := Option.some.inj (own.symm.trans around)
    exact ⟨reached.mem, Or.inr (Or.inr isChild)⟩
  · rw [same] at around
    exact ⟨(here outer around).1, Or.inr (Or.inl isParameter)⟩

/-- A target that is visited inside an annotated assignment is a part of it. -/
theorem Visited.target_of_annotated {tree node : Node} {spot : Spot} (wellFormed : tree.WellFormed)
    (visited : Visited tree spot node) {parent : Node} (around : spot.place.parent = some parent)
    {hint : TypeText} (form : parent.form = .annAssign hint) (role : node.role = .target) :
    parent ∈ tree.nodes ∧ node ∈ parent.children := by
  obtain ⟨inside, rfl | parameter | isChild⟩ := visited.mem_around around
  · rw [Node.Grammatical.form_eq wellFormed.grammatical] at form
    cases form
  · rw [role] at parameter
    cases parameter
  · exact ⟨inside, isChild⟩

end Spot

namespace Scope

/-- The scope has parameters of its own, so that it can type any parameter. -/
def HasParameters (scope : Scope) : Prop :=
  (scope.kind = .function ∨ scope.kind = .lambda) ∧ scope.node.TellsDefaults

/-- The scope can type a binding: what is stated of the name can be written out, and a parameter is
annotated unless the scope has parameters of its own. -/
structure Types (scope : Scope) (binding : Binding) : Prop where
  printable : binding.Printable
  parameter : ∀ name, binding.node.form = .parameter name none → scope.HasParameters

private theorem Types.of_header {scope other : Scope} {binding : Binding}
    (types : scope.Types binding) (same : other.header = scope.header) : other.Types binding where
  printable := types.printable
  parameter := by
    intro name form
    have has := types.parameter name form
    unfold HasParameters at has ⊢
    rw [show other.kind = scope.kind from congrArg Header.kind same,
      show other.node = scope.node from congrArg Header.node same]
    exact has

end Scope

namespace Setting

section

variable {setting : Setting} {bindings : List Binding}

theorem exists_parameterType (has : setting.scope.HasParameters) (parameter : Node) :
    ∃ type, setting.parameterType parameter = .ok type := by
  obtain ⟨kind, tells⟩ := has
  unfold parameterType
  rw [if_pos (by simpa using kind)]
  cases found : setting.scope.node.parameters.find? (fun other => other.id = parameter.id) with
  | none => exact ⟨_, rfl⟩
  | some own =>
      have member := List.mem_of_find?_eq_some found
      rw [Node.parameters, List.mem_filter] at member
      cases role : own.role with
      | keywordOnly =>
          have listed : own ∈ setting.scope.node.keywordOnlyParameters := by
            apply List.mem_filter.mpr
            exact ⟨member.1, by simpa using role⟩
          simp only [role, tells.own listed, if_true]
          exact ⟨_, rfl⟩
      | _ =>
          simp only [role]
          exact ⟨_, rfl⟩

theorem exists_bindingType {binding : Binding} (types : setting.scope.Types binding)
    (plain : binding.hint? = none) : ∃ type, setting.bindingType binding = .ok type := by
  unfold bindingType
  split
  · next name hint form =>
      cases hint with
      | some text =>
          rw [Binding.hint?, form] at plain
          cases plain
      | none =>
          split
          · exact ⟨_, rfl⟩
          · exact exists_parameterType (types.parameter name form) binding.node
  · exact ⟨_, rfl⟩
  · exact ⟨_, rfl⟩
  · split
    · exact ⟨_, rfl⟩
    · exact ⟨_, rfl⟩
  · next name caught form =>
      split
      · next other isNamed =>
          cases caught with
          | none => exact ⟨_, rfl⟩
          | some caught =>
              exact Printed.exists_get (types.printable.of_handler form (by rw [isNamed]; rfl))
      · exact ⟨_, rfl⟩
  · split
    · split
      · exact ⟨_, rfl⟩
      · exact ⟨_, rfl⟩
      · exact ⟨_, rfl⟩
    · exact ⟨_, rfl⟩

theorem exists_firstType
    (each : ∀ binding ∈ bindings, ∃ type, setting.bindingType binding = .ok type) :
    ∃ type, setting.firstType bindings = .ok type := by
  induction bindings with
  | nil => exact ⟨_, rfl⟩
  | cons binding rest induction =>
      obtain ⟨type, typed⟩ := each binding List.mem_cons_self
      rw [firstType, typed]
      simp only
      split
      · exact induction fun other member => each other (List.mem_cons_of_mem _ member)
      · exact ⟨_, rfl⟩

theorem exists_declaredType (types : ∀ binding ∈ bindings, setting.scope.Types binding) :
    ∃ type, setting.declaredType bindings = .ok type := by
  unfold declaredType
  split
  · next hint found =>
      obtain ⟨binding, member, isHint⟩ := List.exists_of_findSome?_eq_some found
      exact Printed.exists_get ((types binding member).printable.of_hint isHint)
  · next plain =>
      rw [List.findSome?_eq_none_iff] at plain
      apply exists_firstType
      intro binding member
      exact exists_bindingType (types binding member) (plain binding member)

theorem exists_symbolOf (setting : Setting) (name : String) (nonempty : bindings ≠ [])
    (types : ∀ binding ∈ bindings, setting.scope.Types binding) :
    ∃ symbol, setting.symbolOf name bindings = .ok symbol := by
  unfold symbolOf
  split
  · next ordered =>
      obtain ⟨binding, member⟩ := List.exists_mem_of_ne_nil bindings nonempty
      have listed := Binding.mem_inOrder.mpr member
      rw [ordered] at listed
      cases listed
  · next first rest ordered =>
      have all : ∀ binding ∈ first :: rest, setting.scope.Types binding := by
        intro binding member
        rw [← ordered] at member
        exact types binding (Binding.mem_inOrder.mp member)
      obtain ⟨type, typed⟩ := exists_declaredType all
      rw [typed]
      exact ⟨_, rfl⟩

end

end Setting

private theorem exists_of_mapM {α β ε : Type} {make : α → Except ε β} {items : List α}
    (each : ∀ item ∈ items, ∃ out, make item = .ok out) : ∃ made, items.mapM make = .ok made := by
  induction items with
  | nil => exact ⟨[], rfl⟩
  | cons item rest induction =>
      obtain ⟨out, first⟩ := each item List.mem_cons_self
      obtain ⟨outs, later⟩ :=
        induction fun other member => each other (List.mem_cons_of_mem _ member)
      rw [List.mapM_cons, first, later]
      exact ⟨out :: outs, rfl⟩

namespace Scope

/-- The scope can type all its bindings. -/
def Typed (scope : Scope) : Prop :=
  ∀ name, ∀ binding ∈ scope.bindingsOf name, scope.Types binding

/-- If the scope receives the deposit, it can type what it receives, and the name has a binding. -/
structure Takes (scope : Scope) (deposit : Deposit) : Prop where
  types : scope.key = deposit.owner → ∀ binding ∈ deposit.bindings, scope.Types binding
  nonempty : scope.key = deposit.owner → deposit.bindings = [] → scope.bindingsOf deposit.name ≠ []

theorem exists_receive {scope : Scope} {deposit : Deposit} (classes : List String)
    (scopes : List Scope) (typed : scope.Typed) (takes : scope.Takes deposit) :
    ∃ settled, scope.receive classes scopes deposit = .ok settled := by
  unfold receive
  split
  · next same =>
      have nonempty : scope.bindingsOf deposit.name ++ deposit.bindings ≠ [] := by
        intro empty
        rw [List.append_eq_nil_iff] at empty
        exact takes.nonempty same empty.2 empty.1
      have types : ∀ binding ∈ scope.bindingsOf deposit.name ++ deposit.bindings,
          scope.Types binding := by
        intro binding member
        rcases List.mem_append.mp member with old | new
        · exact typed deposit.name binding old
        · exact takes.types same binding new
      let setting : Setting := ⟨scope, scope.parentKey?.bind (findScope? scopes), classes⟩
      obtain ⟨symbol, made⟩ := setting.exists_symbolOf deposit.name nonempty types
      simp only [setting] at made
      simp only [made]
      exact ⟨_, rfl⟩
  · exact ⟨scope, rfl⟩

theorem Received.typed {scope settled : Scope} {deposit : Deposit}
    (received : Received [deposit] scope settled) (typed : scope.Typed)
    (takes : scope.Takes deposit) : settled.Typed := by
  intro name binding member
  rw [received.bindings] at member
  apply Types.of_header _ received.header
  rcases List.mem_append.mp member with old | new
  · exact typed name binding old
  · obtain ⟨other, listed, owner, _, inside⟩ := Deposit.mem_addedTo.mp new
    obtain rfl := List.mem_singleton.mp listed
    exact takes.types owner.symm binding inside

theorem Received.takes {scope settled : Scope} {deposits : List Deposit} {deposit : Deposit}
    (received : Received deposits scope settled) (takes : scope.Takes deposit) :
    settled.Takes deposit where
  types := by
    intro same binding member
    rw [received.key] at same
    exact (takes.types same binding member).of_header received.header
  nonempty := by
    intro same none
    rw [received.key] at same
    rw [received.bindings]
    exact fun empty => takes.nonempty same none (List.append_eq_nil_iff.mp empty).1

theorem exists_settle (classes : List String) {scopes : List Scope} {deposits : List Deposit}
    (typed : ∀ scope ∈ scopes, scope.Typed)
    (takes : ∀ deposit ∈ deposits, ∀ scope ∈ scopes, scope.Takes deposit) :
    ∃ settled, settle classes scopes deposits = .ok settled := by
  induction deposits generalizing scopes with
  | nil => exact ⟨scopes, rfl⟩
  | cons deposit rest induction =>
      have first : ∀ scope ∈ scopes, ∃ settled,
          scope.receive classes scopes deposit = .ok settled := by
        intro scope member
        exact exists_receive classes scopes (typed scope member)
          (takes deposit List.mem_cons_self scope member)
      obtain ⟨updated, made⟩ := exists_of_mapM first
      rw [settle, made]
      apply induction
      · intro settled member
        obtain ⟨scope, isScope, step⟩ := exists_of_forall₂_right (forall₂_of_mapM made) member
        exact (received_of_receive step).typed (typed scope isScope)
          (takes deposit List.mem_cons_self scope isScope)
      · intro later isLater settled member
        obtain ⟨scope, isScope, step⟩ := exists_of_forall₂_right (forall₂_of_mapM made) member
        exact (received_of_receive step).takes
          (takes later (List.mem_cons_of_mem _ isLater) scope isScope)

end Scope

section

variable {path : String} {tree : Node} (wellFormed : tree.WellFormed)

include wellFormed

theorem callable_of_key {scope : Scope} {callable : Node}
    (member : scope ∈ recordedScopes path tree) (inside : callable ∈ tree.nodes)
    (isCallable : callable.form.isCallable = true) (same : scope.key = callable.id) :
    scope.node = callable ∧ (scope.kind = .function ∨ scope.kind = .lambda) := by
  have opens := ((recorded path tree).records scope member).opens
  obtain ⟨spot, visited, kind, _, _⟩ := (Event.opens_iff wellFormed).mp opens
  have node : scope.node = callable := wellFormed.distinct.eq_of_id visited.mem inside same
  refine ⟨node, ?_⟩
  rw [node] at kind
  generalize callable.form = form at isCallable kind
  cases form with
  | functionDef => exact Or.inl (Option.some.inj kind).symm
  | lambda => exact Or.inr (Option.some.inj kind).symm
  | _ => cases isCallable

/-- A scope records the binding of a parameter only if it is the scope of its callable. -/
theorem parameter_of_binds {scope : Scope} {name : String} {binding : Binding}
    (member : scope ∈ recordedScopes path tree)
    (binds : .binds scope.key name binding ∈ Event.ofModule tree) {id : String}
    {hint : Option Printed} (form : binding.node.form = .parameter id hint) :
    scope.node ∈ tree.nodes ∧ (scope.kind = .function ∨ scope.kind = .lambda) ∧
      binding.node ∈ scope.node.parameters ∧ binding.node.parameterName = name := by
  rcases (Event.binds_iff wellFormed).mp binds with
    ⟨spot, visited, bound, _⟩ | ⟨callable, inside, isCallable, parameter, key, named, _⟩
  · rw [form] at bound
    cases bound
  · obtain ⟨node, kind⟩ := callable_of_key wellFormed member inside isCallable key
    rw [node]
    exact ⟨inside, kind, parameter, named.symm⟩

/-- Around a scope that declares names nonlocal there are only scopes that hold statements. -/
theorem holdsBody_around {scope other : Scope} {names : List String}
    (member : scope ∈ recordedScopes path tree)
    (declares : .declaresNonlocal scope.key names ∈ Event.ofModule tree)
    (around : other ∈ scopesAround (recordedScopes path tree) scope) :
    other.node ∈ tree.nodes ∧ other.node.form.holdsBody = true ∧
      other.node.form.scopeKind? = some other.kind := by
  obtain ⟨spot, statement, visited, owned⟩ := (Event.mem_ofModule_iff_owned wellFormed).mp declares
  generalize same : Event.declaresNonlocal scope.key names = event at owned
  cases owned with
  | declaredNonlocal others form =>
      obtain ⟨openers, within, holds⟩ := visited.block_within wellFormed (by rw [form]; rfl)
      obtain ⟨outerKey, isOuter, found⟩ := List.mem_filterMap.mp around
      obtain ⟨isOther, key⟩ := (findScope?_eq_some (keys_nodup wellFormed)).mp found
      have outer : ∃ opener ∈ openers, opener.id = other.key := by
        cases openers with
        | nil => cases within.nested
        | cons first rest =>
            -- The first of the openers opens the scope itself, the others those around it.
            obtain ⟨kind, name, opens⟩ := Event.opens_of_nested wellFormed within.nested
            obtain ⟨twin, isTwin, header⟩ := (recorded path tree).exists_of_opens opens
            have twinKey : twin.key = scope.key := by
              rw [Scope.key, show twin.node = first from congrArg Scope.Header.node header,
                (Event.declaresNonlocal.inj same).1]
              exact (List.cons.inj within.chain).1.symm
            obtain rfl := eq_of_key wellFormed isTwin member twinKey
            have chain : twin.outer = rest.map Node.id := congrArg Scope.Header.outer header
            rw [chain] at isOuter
            obtain ⟨opener, listed, id⟩ := List.mem_map.mp isOuter
            exact ⟨opener, List.mem_cons_of_mem _ listed, id.trans key.symm⟩
      obtain ⟨opener, listed, id⟩ := outer
      have opens := ((recorded path tree).records other isOther).opens
      obtain ⟨place, reached, kind, _, _⟩ := (Event.opens_iff wellFormed).mp opens
      have node : opener = other.node :=
        wellFormed.distinct.eq_of_id (within.nested.visited listed) reached.mem id
      exact ⟨reached.mem, node ▸ holds opener listed, kind⟩
  | _ => cases same

/-- The types that are stated where a name is bound are stated by a node of the tree. -/
theorem printable_of_binds (printable : tree.Printable) {scope : NodeId} {name : String}
    {binding : Binding} (binds : .binds scope name binding ∈ Event.ofModule tree) :
    binding.Printable := by
  intro type stated
  suffices isNamed : ∃ node ∈ tree.nodes, type ∈ node.namedTypes by
    obtain ⟨node, inside, isType⟩ := isNamed
    exact printable node inside type isType
  rcases (Event.binds_iff wellFormed).mp binds with
    ⟨spot, visited, bound, _, around⟩ | ⟨callable, inside, isCallable, parameter, _⟩
  · rcases List.mem_append.mp stated with isHint | isCaught
    · have isHint := Option.mem_toList.mp isHint
      unfold Binding.hint? at isHint
      split at isHint
      · next form =>
          rw [form] at bound
          cases bound
      · next hint role outer _ =>
          obtain ⟨parent, isParent, form⟩ := Option.map_eq_some_iff.mp outer
          obtain ⟨inTree, isChild⟩ :=
            visited.target_of_annotated wellFormed (around.symm.trans isParent) form role
          refine ⟨parent, inTree, ?_⟩
          have isBound : (parent.field .target).any (fun target => target.form.boundName?.isSome) =
              true := by
            refine List.any_eq_true.mpr ⟨binding.node, Node.mem_field.mpr ⟨isChild, role⟩, ?_⟩
            rw [bound]
            rfl
          rw [Node.namedTypes, form]
          simp only [isBound, if_true, List.mem_singleton]
          exact (Option.some.inj isHint).symm
      · cases isHint
    · refine ⟨binding.node, visited.mem, ?_⟩
      split at isCaught
      · next id caught form =>
          rw [form] at bound
          cases id with
          | none => cases bound
          | some id =>
              rw [Node.namedTypes, form]
              exact isCaught
      · cases isCaught
  · obtain ⟨inTree, id, hint, form⟩ := wellFormed.parameter_form inside isCallable parameter
    refine ⟨binding.node, inTree, ?_⟩
    have isParameter := (List.mem_filter.mp parameter).2
    have notTarget : binding.node.role ≠ .target := by
      intro role
      rw [role] at isParameter
      cases isParameter
    rw [Binding.types, form, List.append_nil, Option.mem_toList, Binding.hint?, form] at stated
    rw [Node.namedTypes, form, Option.mem_toList]
    cases hint with
    | some written => exact stated
    | none =>
        split at stated
        · next same => cases same
        · next role _ _ => exact absurd role notTarget
        · cases stated

theorem typed_of_recorded (tells : ∀ node ∈ tree.nodes, node.TellsDefaults)
    (printable : tree.Printable) {scope : Scope} (member : scope ∈ recordedScopes path tree) :
    scope.Typed := by
  intro name binding bound
  have binds := (((recorded path tree).records scope member).bindings name binding).mp bound
  refine ⟨printable_of_binds wellFormed printable binds, ?_⟩
  intro id form
  obtain ⟨inside, kind, _⟩ := parameter_of_binds wellFormed member binds form
  exact ⟨kind, tells scope.node inside⟩

theorem not_global_of_parameter
    (keeps : ∀ function ∈ tree.nodes, ¬ tree.GivesAwayParameter function)
    {scope : Scope} (member : scope ∈ recordedScopes path tree) {name : String} {binding : Binding}
    (binds : .binds scope.key name binding ∈ Event.ofModule tree) {id : String}
    (form : binding.node.form = .parameter id none) : name ∉ scope.globals := by
  intro isGlobal
  obtain ⟨inside, _, parameter, named⟩ := parameter_of_binds wellFormed member binds form
  have records := (recorded path tree).records scope member
  obtain ⟨names, declares, isNamed⟩ := (records.globals name).mp isGlobal
  apply keeps scope.node inside
  refine ⟨binding.node, parameter, by rw [Node.parameterHint?, form], ?_⟩
  apply List.mem_flatMap.mpr
  refine ⟨_, declares, ?_⟩
  rw [Event.globalsIn, if_pos (show scope.key = scope.node.id from rfl), named]
  exact isNamed

/-- The owner of a nonlocal name is the scope of a function. -/
theorem hasParameters_of_nonlocal (tells : ∀ node ∈ tree.nodes, node.TellsDefaults)
    {scope owner : Scope} (member : scope ∈ recordedScopes path tree)
    (isOwner : owner ∈ recordedScopes path tree) {name : String}
    (isNonlocal : name ∈ scope.nonlocals)
    (nearest : nonlocalOwner? (recordedScopes path tree) scope name = some owner.key) :
    owner.HasParameters := by
  have records := (recorded path tree).records scope member
  obtain ⟨names, declares, _⟩ := (records.nonlocals name).mp isNonlocal
  obtain ⟨other, isFound, otherKey⟩ := Option.map_eq_some_iff.mp nearest
  have around := (List.takeWhile_sublist _).subset (List.mem_of_find?_eq_some isFound)
  have frame := List.find?_some isFound
  simp only [Bool.and_eq_true] at frame
  obtain ⟨isNode, holds, kind⟩ := holdsBody_around wellFormed member declares around
  obtain rfl := eq_of_key wellFormed (mem_of_mem_around around) isOwner otherKey
  refine ⟨?_, tells other.node isNode⟩
  -- Of the scopes that hold statements only those of functions are frames.
  have like := frame.1.1
  rw [Scope.isFunctionLike] at like
  generalize other.node.form = shape at holds kind
  cases shape with
  | functionDef => exact Or.inl (Option.some.inj kind).symm
  | module | classDef =>
      rw [← Option.some.inj kind] at like
      cases like
  | _ => cases holds

/-- The scopes of a module can take the deposits of one another, unless a function gives a parameter
to the module. -/
theorem takes_of_deposit (tells : ∀ node ∈ tree.nodes, node.TellsDefaults)
    (printable : tree.Printable)
    (keeps : ∀ function ∈ tree.nodes, ¬ tree.GivesAwayParameter function) {deposit : Deposit}
    (listed : deposit ∈ moduleDeposits (recordedScopes path tree)) {owner : Scope}
    (isOwner : owner ∈ recordedScopes path tree) : owner.Takes deposit := by
  obtain ⟨scope, member, bindings, found, owned, same⟩ := mem_moduleDeposits.mp listed
  have records := (recorded path tree).records scope member
  have nonempty := records.tidy.nonempty deposit.name bindings found
  constructor
  · intro key binding given
    rw [same] at given
    split at given
    · cases given
    · next different =>
        have binds : .binds scope.key deposit.name binding ∈ Event.ofModule tree := by
          rw [← records.bindings, Scope.bindingsOf, found]
          exact given
        refine ⟨printable_of_binds wellFormed printable binds, ?_⟩
        intro id form
        rw [← key] at owned
        rcases ownerOf?_cases owned with ⟨_, isGlobal, _⟩ | ⟨_, isNonlocal, nearest⟩ | ⟨_, _, own⟩
        · exact absurd isGlobal (not_global_of_parameter wellFormed keeps member binds form)
        · exact hasParameters_of_nonlocal wellFormed tells member isOwner isNonlocal nearest
        · exact absurd (key.symm.trans own) different
  · intro key none
    rw [same] at none
    split at none
    · next isSelf =>
        rw [eq_of_key wellFormed isOwner member (key.trans isSelf), Scope.bindingsOf, found]
        exact nonempty
    · exact absurd none nonempty

/-- Every module in which no function gives away a parameter and the types that are stated of names
can be written out has a model. -/
theorem Model.exists_build (path : String) (tells : ∀ node ∈ tree.nodes, node.TellsDefaults)
    (printable : tree.Printable)
    (keeps : ∀ function ∈ tree.nodes, ¬ tree.GivesAwayParameter function) :
    ∃ model, build path tree = .ok model := by
  have typed : ∀ scope ∈ recordedScopes path tree, scope.Typed :=
    fun scope member => typed_of_recorded wellFormed tells printable member
  have takes : ∀ deposit ∈ moduleDeposits (recordedScopes path tree),
      ∀ scope ∈ recordedScopes path tree, scope.Takes deposit :=
    fun deposit listed scope member =>
      takes_of_deposit wellFormed tells printable keeps listed member
  obtain ⟨settled, made⟩ := Scope.exists_settle (topClasses tree) typed takes
  unfold moduleDeposits recordedScopes at made
  unfold build
  simp only [made]
  exact ⟨_, rfl⟩

end

namespace Content

/-- What the parser makes of a text: a tree built by the grammar, or an error. -/
def Parsed : Content → Prop
  | .parsed tree _ => tree.WellFormed ∧ ∀ node ∈ tree.nodes, node.TellsDefaults
  | .rejected _ => True
  | .unreadable _ _ => False

/-- No function of the text gives away a parameter. -/
def KeepsParameters : Content → Prop
  | .parsed tree _ => ∀ function ∈ tree.nodes, ¬ tree.GivesAwayParameter function
  | .rejected _ | .unreadable _ _ => True

/-- The types that the text states of names can be written out. -/
def Printable : Content → Prop
  | .parsed tree _ => tree.Printable
  | .rejected _ | .unreadable _ _ => True

instance : (content : Content) → Decidable content.Parsed
  | .parsed _ _ => inferInstanceAs (Decidable (_ ∧ ∀ node ∈ _, Node.TellsDefaults node))
  | .rejected _ => isTrue trivial
  | .unreadable _ _ => isFalse id

instance : (content : Content) → Decidable content.KeepsParameters
  | .parsed tree _ =>
      inferInstanceAs (Decidable (∀ function ∈ tree.nodes, ¬ tree.GivesAwayParameter function))
  | .rejected _ | .unreadable _ _ => isTrue trivial

instance : (content : Content) → Decidable content.Printable
  | .parsed tree _ => inferInstanceAs (Decidable tree.Printable)
  | .rejected _ | .unreadable _ _ => isTrue trivial

/-- What a text needs for the analysis of the programs it is part of. -/
structure Analysable (content : Content) : Prop where
  parsed : content.Parsed
  keeps : content.KeepsParameters
  printable : content.Printable

theorem Analysable.exists_build {tree : Node} {fault : Option ParseFault}
    (analysable : (Content.parsed tree fault).Analysable) (path : String) :
    ∃ model, Model.build path tree = .ok model :=
  Model.exists_build analysable.parsed.1 path analysable.parsed.2 analysable.printable
    analysable.keeps

end Content

theorem SourceUnit.exists_model? {unit : SourceUnit} (analysable : unit.content.Analysable) :
    ∃ model, unit.model? = .ok model := by
  unfold model?
  cases content : unit.content with
  | parsed tree fault =>
      rw [content] at analysable
      obtain ⟨model, built⟩ := analysable.exists_build unit.path
      simp only [built]
      exact ⟨some model, rfl⟩
  | rejected => exact ⟨none, rfl⟩
  | unreadable =>
      rw [content] at analysable
      cases analysable.parsed

namespace Table

private theorem mem_values_insert {α : Type} {table : Table α} {key : String} {value other : α}
    (member : other ∈ (table.insert key value).values) : other = value ∨ other ∈ table.values := by
  obtain ⟨entries⟩ := table
  induction entries with
  | nil => exact Or.inl (List.mem_singleton.mp member)
  | cons entry rest induction =>
      obtain ⟨name, stored⟩ := entry
      rw [insert, store] at member
      split at member
      · exact (List.mem_cons.mp member).imp_right (List.mem_cons_of_mem _)
      · rcases List.mem_cons.mp member with rfl | later
        · exact Or.inr List.mem_cons_self
        · exact (induction later).imp_right (List.mem_cons_of_mem _)

end Table

namespace Snapshot

/-- The texts of all units can be analysed. -/
def Analysable (snapshot : Snapshot) : Prop :=
  ∀ unit ∈ snapshot.table.values, unit.content.Analysable

section

variable {snapshot : Snapshot}

theorem Analysable.withUnit (analysable : snapshot.Analysable) {edit : SourceUnit}
    (editable : edit.content.Analysable) : (snapshot.withUnit edit).Analysable := by
  intro unit member
  rcases Table.mem_values_insert member with rfl | old
  · exact editable
  · exact analysable unit old

private theorem mem_values_of_units {unit : SourceUnit} (member : unit ∈ snapshot.units) :
    unit ∈ snapshot.table.values := by
  obtain ⟨path, _, found⟩ := List.mem_filterMap.mp member
  exact List.mem_map.mpr ⟨(path, unit), Table.mem_of_lookup found, rfl⟩

theorem exists_missingNamesOf (analysable : snapshot.Analysable) (path : String)
    (statement : Node) : ∃ found, snapshot.missingNamesOf path statement = .ok found := by
  unfold missingNamesOf
  split
  · next module level _ =>
      cases resolveImport path module level with
      | none => exact ⟨[], rfl⟩
      | some name =>
          cases isThere : snapshot.moduleUnit? name with
          | none => exact ⟨[], by simp only [isThere]⟩
          | some target =>
              have member : target ∈ snapshot.table.values :=
                (List.mem_filter.mp (List.mem_of_getLast? isThere)).1
              obtain ⟨model, built⟩ := SourceUnit.exists_model? (analysable target member)
              simp only [isThere, built]
              cases model with
              | none => exact ⟨[], rfl⟩
              | some model => exact ⟨_, rfl⟩
  · exact ⟨[], rfl⟩

theorem exists_missingNames (analysable : snapshot.Analysable) (path : String)
    (nodes : List Node) : ∃ found, snapshot.missingNames path nodes = .ok found := by
  induction nodes with
  | nil => exact ⟨[], rfl⟩
  | cons node rest induction =>
      obtain ⟨found, first⟩ := exists_missingNamesOf analysable path node
      obtain ⟨others, later⟩ := induction
      rw [missingNames, first, later]
      exact ⟨found ++ others, rfl⟩

theorem exists_unitDiagnostics (analysable : snapshot.Analysable) (settings : Settings)
    {unit : SourceUnit} (member : unit ∈ snapshot.table.values) :
    ∃ found, snapshot.unitDiagnostics settings unit = .ok found := by
  have ready := analysable unit member
  unfold unitDiagnostics
  cases content : unit.content with
  | unreadable =>
      rw [content] at ready
      cases ready.parsed
  | rejected => exact ⟨_, rfl⟩
  | parsed tree fault =>
      rw [content] at ready
      cases fault with
      | some => exact ⟨_, rfl⟩
      | none =>
          obtain ⟨model, built⟩ := ready.exists_build unit.path
          obtain ⟨missing, searched⟩ :=
            exists_missingNames analysable model.path model.tree.walk
          simp only [built, modelDiagnostics, searched]
          exact ⟨_, rfl⟩

theorem exists_diagnosticsOf (analysable : snapshot.Analysable) (settings : Settings)
    {units : List SourceUnit} (all : ∀ unit ∈ units, unit ∈ snapshot.table.values) :
    ∃ result, snapshot.diagnosticsOf settings none units = .ok result := by
  induction units with
  | nil => exact ⟨_, rfl⟩
  | cons unit rest induction =>
      obtain ⟨found, first⟩ :=
        exists_unitDiagnostics analysable settings (all unit List.mem_cons_self)
      obtain ⟨⟨others, last⟩, later⟩ :=
        induction fun other member => all other (List.mem_cons_of_mem _ member)
      simp only [diagnosticsOf, CancelSignal.poll, first, later]
      exact ⟨_, rfl⟩

theorem exists_findings (analysable : snapshot.Analysable) (settings : Settings) :
    ∃ found, snapshot.findings settings = .ok found := by
  obtain ⟨result, searched⟩ :=
    exists_diagnosticsOf analysable settings (fun unit member => mem_values_of_units member)
  unfold findings diagnostics
  rw [searched]
  exact ⟨result.1, rfl⟩

end

/-- A module with one function `f`, of the given parameters and statements, which the compiler
rejects. -/
def rejectedUnit (path source message : String) (parameters statements : List Node) :
    SourceUnit where
  path := path
  source := source
  content := .parsed
    (.mk .module ⟨0, .root, none⟩ [
      .mk (.functionDef false "f" none) ⟨1, .body, some ⟨⟨1, 0⟩, ⟨2, 14⟩⟩⟩
        (.mk (.parameters []) ⟨2, .parameters, none⟩ parameters :: statements)])
    (some { message, line := some 2, offset := some 5 })

/-- A program in which a unit imports a function with an unbound nonlocal name. -/
def unboundProgram : Snapshot :=
  ofUnits [
    rejectedUnit "a.py" "def f():\n    nonlocal y\n" "no binding for nonlocal 'y' found" []
      [.mk (.nonlocalStmt ["y"]) ⟨3, .body, some ⟨⟨2, 4⟩, ⟨2, 14⟩⟩⟩ []],
    importingUnit "b.py" "a" "f"]

/-- A program in which a unit imports a function that declares its parameter global. -/
def givingProgram : Snapshot :=
  ofUnits [
    rejectedUnit "a.py" "def f(row):\n    global row\n" "name 'row' is parameter and global"
      [.mk (.parameter "row" none) ⟨3, .positional, some ⟨⟨1, 6⟩, ⟨1, 9⟩⟩⟩ []]
      [.mk (.globalStmt ["row"]) ⟨4, .body, some ⟨⟨2, 4⟩, ⟨2, 14⟩⟩⟩ []],
    importingUnit "b.py" "a" "f"]

/-- A module with a function `f(row)` whose parameter is annotated with a string that has a
no-break space in a replacement field; written out, it would have a backslash there. -/
def refusedUnit : SourceUnit where
  path := "a.py"
  source := "def f(row: f\"\x7b'\u00a0'\x7d\"): pass\n"
  content := .parsed
    (.mk .module ⟨0, .root, none⟩ [
      .mk (.functionDef false "f" none) ⟨1, .body, some ⟨⟨1, 0⟩, ⟨1, 27⟩⟩⟩ [
        .mk (.parameters []) ⟨2, .parameters, none⟩ [
          .mk (.parameter "row"
              (some (.refused "Unable to avoid backslash in f-string expression part")))
              ⟨3, .positional, some ⟨⟨1, 6⟩, ⟨1, 20⟩⟩⟩ [
            .mk .joinedStr ⟨4, .typeHint, some ⟨⟨1, 11⟩, ⟨1, 20⟩⟩⟩ [
              .mk .formattedValue ⟨5, .value, some ⟨⟨1, 11⟩, ⟨1, 20⟩⟩⟩ [
                .mk (.constant .str "\u00a0") ⟨6, .value, some ⟨⟨1, 14⟩, ⟨1, 18⟩⟩⟩ []]]]],
        .mk .passStmt ⟨7, .body, some ⟨⟨1, 23⟩, ⟨1, 27⟩⟩⟩ []]])
    none

example : refusedUnit.content.Parsed ∧ refusedUnit.content.KeepsParameters ∧
    (ofUnits [refusedUnit]).findings {} =
      .error (.unprintable "Unable to avoid backslash in f-string expression part") := by
  decide +kernel

end Snapshot

end SafeRefactor
