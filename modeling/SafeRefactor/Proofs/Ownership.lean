import SafeRefactor.Proofs.Settlement

/-!
# The owner of a bound name

A name bound in a scope belongs to that scope, to the module or to a frame around it,
as the scope declares.  Settling gives the bindings to the owner, and look-up climbs to
the same scope, provided every nonlocal name meets a frame that binds it.
-/

namespace SafeRefactor

/-- Climbing outwards over class bodies, a frame that binds the name and declares it neither
nonlocal nor global comes before the module and before any scope that declares the name global. -/
inductive MeetsFrame (name : String) : List Scope → Prop where
  | here {owner : Scope} {rest : List Scope} : owner.isFunctionLike = true →
      owner.bindings.contains name = true → name ∉ owner.nonlocals → name ∉ owner.globals →
      MeetsFrame name (owner :: rest)
  | beyondClass {scope : Scope} {rest : List Scope} : scope.kind = .classBody →
      MeetsFrame name rest → MeetsFrame name (scope :: rest)
  | beyond {scope : Scope} {rest : List Scope} : scope.kind ≠ .module → name ∉ scope.globals →
      MeetsFrame name rest → MeetsFrame name (scope :: rest)

theorem meetsFrame_cons {name : String} {scope : Scope} {rest : List Scope} :
    MeetsFrame name (scope :: rest) ↔
      (scope.isFunctionLike = true ∧ scope.bindings.contains name = true ∧
        name ∉ scope.nonlocals ∧ name ∉ scope.globals) ∨
      (scope.kind = .classBody ∨ (scope.kind ≠ .module ∧ name ∉ scope.globals)) ∧
        MeetsFrame name rest := by
  constructor
  · intro meets
    cases meets with
    | here frame binds notNonlocal notGlobal => exact Or.inl ⟨frame, binds, notNonlocal, notGlobal⟩
    | beyondClass kind later => exact Or.inr ⟨Or.inl kind, later⟩
    | beyond kind notGlobal later => exact Or.inr ⟨Or.inr ⟨kind, notGlobal⟩, later⟩
  · rintro (⟨frame, binds, notNonlocal, notGlobal⟩ | ⟨kind | ⟨kind, notGlobal⟩, later⟩)
    · exact .here frame binds notNonlocal notGlobal
    · exact .beyondClass kind later
    · exact .beyond kind notGlobal later

instance decidableMeetsFrame (name : String) : (scopes : List Scope) →
    Decidable (MeetsFrame name scopes)
  | [] => isFalse nofun
  | _ :: rest =>
      have := decidableMeetsFrame name rest
      decidable_of_iff' _ meetsFrame_cons

/-- Every nonlocal name of a scope meets a frame that binds it. -/
def NonlocalsMeet (scopes : List Scope) : Prop :=
  ∀ scope ∈ scopes, ∀ name ∈ scope.nonlocals, MeetsFrame name (scopesAround scopes scope)

instance (scopes : List Scope) : Decidable (NonlocalsMeet scopes) :=
  inferInstanceAs (Decidable (∀ _ ∈ _, ∀ _ ∈ _, _))

/-- The scopes of a module as its events tell them, before names are settled. -/
def recordedScopes (path : String) (tree : Node) : List Scope :=
  Scope.ofEvents path (Event.ofModule tree)

/-- What the names bound in the scopes of a module contribute to the scopes they belong to. -/
def moduleDeposits (scopes : List Scope) : List Deposit :=
  scopes.flatMap (Scope.deposits scopes)

theorem recorded (path : String) (tree : Node) :
    Scope.Recorded (Event.ofModule tree) (recordedScopes path tree) :=
  Scope.recorded_ofEvents path (Event.ofModule tree)

namespace Model

/-- A model has settled the names of the scopes of its module. -/
structure Settles (path : String) (tree : Node) (model : Model) : Prop where
  source : model.tree = tree
  placement : model.placement = placements (Event.ofModule tree)
  scopes : List.Forall₂ (Scope.Received (moduleDeposits (recordedScopes path tree)))
    (recordedScopes path tree) model.scopes

theorem settles_of_build {path : String} {tree : Node} {model : Model}
    (built : build path tree = .ok model) : Settles path tree model := by
  unfold build at built
  simp only at built
  split at built
  · cases built
  · next settled ok =>
      obtain rfl := Except.ok.inj built
      exact ⟨rfl, rfl, Scope.received_of_settle ok⟩

end Model

theorem mem_moduleDeposits {path : String} {tree : Node} {deposit : Deposit} :
    deposit ∈ moduleDeposits (recordedScopes path tree) ↔
      ∃ scope ∈ recordedScopes path tree, ∃ bindings,
        scope.bindings.get? deposit.name = some bindings ∧
        ownerOf? (recordedScopes path tree) scope deposit.name = some deposit.owner ∧
        deposit.bindings = if deposit.owner = scope.key then [] else bindings := by
  simp only [moduleDeposits, List.mem_flatMap, Scope.deposits, List.mem_filterMap,
    Option.map_eq_some_iff]
  constructor
  · rintro ⟨scope, member, ⟨name, bindings⟩, entry, owner, owned, rfl⟩
    have tidy := ((recorded path tree).records scope member).tidy
    exact ⟨scope, member, bindings, tidy.distinct.mem_entries.mp entry, owned, rfl⟩
  · rintro ⟨scope, member, bindings, found, owned, same⟩
    have tidy := ((recorded path tree).records scope member).tidy
    refine ⟨scope, member, (deposit.name, bindings), tidy.distinct.mem_entries.mpr found,
      deposit.owner, owned, ?_⟩
    obtain ⟨owner, name, items⟩ := deposit
    simp only at same
    rw [same]

section

variable {path : String} {tree : Node}

theorem keys_nodup (wellFormed : tree.WellFormed) :
    ((recordedScopes path tree).map Scope.key).Nodup :=
  (recorded path tree).keys_nodup wellFormed.distinct

theorem eq_of_key (wellFormed : tree.WellFormed) {first second : Scope}
    (left : first ∈ recordedScopes path tree) (right : second ∈ recordedScopes path tree)
    (same : first.key = second.key) : first = second :=
  List.inj_on_of_nodup_map (keys_nodup wellFormed) left right same

theorem mem_of_mem_around {scopes : List Scope} {scope other : Scope}
    (member : other ∈ scopesAround scopes scope) : other ∈ scopes := by
  obtain ⟨key, _, found⟩ := List.mem_filterMap.mp member
  exact List.mem_of_find?_eq_some found

/-- The scope first recorded is the module, and only it is of that kind. -/
theorem head_of_module (wellFormed : tree.WellFormed) {scope : Scope}
    (member : scope ∈ recordedScopes path tree) :
    (recordedScopes path tree).head?.map Scope.key = some scope.key ↔ scope.kind = .module := by
  obtain ⟨first, rest, all, node, kind, outer⟩ := (recorded path tree).head
  have isFirst : first ∈ recordedScopes path tree := by
    rw [all]
    exact List.mem_cons_self
  have head : (recordedScopes path tree).head?.map Scope.key = some first.key := by
    rw [all]
    rfl
  rw [head]
  constructor
  · intro same
    rw [← eq_of_key wellFormed isFirst member (Option.some.inj same)]
    exact kind
  · intro isModule
    have opens := ((recorded path tree).records scope member).opens
    obtain ⟨spot, visited, opened, _⟩ := (Event.opens_iff wellFormed).mp opens
    rw [isModule] at opened
    have form : scope.node.form = .module := by
      generalize scope.node.form = shape at opened
      cases shape with
      | module => rfl
      | _ => cases opened
    have same : scope.node = tree := wellFormed.eq_of_module visited.mem form
    simp only [Option.some.injEq, Scope.key]
    rw [node, same]

theorem kind_ne_module {scope : Scope} (frame : scope.isFunctionLike = true) :
    scope.kind ≠ .module := by
  intro kind
  rw [Scope.isFunctionLike, kind] at frame
  cases frame

theorem takeWhile_inside {scope : Scope} (rest : List Scope) (kind : scope.kind ≠ .module) :
    (scope :: rest).takeWhile (fun other => other.kind != .module) =
      scope :: rest.takeWhile (fun other => other.kind != .module) := by
  apply List.takeWhile_cons_of_pos
  simpa using kind

/-- The frame that a nonlocal name meets is the owner that settling finds. -/
theorem owner_of_meets {name : String} {scopes : List Scope} (meets : MeetsFrame name scopes) :
    ∃ owner ∈ scopes, (scopes.takeWhile (fun other => other.kind != .module)).find?
        (fun other => other.isFunctionLike && other.bindings.contains name &&
          !other.nonlocals.contains name) = some owner ∧
      owner.isFunctionLike = true ∧ owner.bindings.contains name = true ∧
      name ∉ owner.nonlocals ∧ name ∉ owner.globals := by
  induction meets with
  | @here owner rest frame binds notNonlocal notGlobal =>
      refine ⟨owner, List.mem_cons_self, ?_, frame, binds, notNonlocal, notGlobal⟩
      rw [takeWhile_inside rest (kind_ne_module frame), List.find?_cons_of_pos]
      simp [frame, binds, notNonlocal]
  | @beyondClass scope rest kind _ induction =>
      obtain ⟨owner, member, found, facts⟩ := induction
      refine ⟨owner, List.mem_cons_of_mem _ member, ?_, facts⟩
      rw [takeWhile_inside rest (by rw [kind]; exact nofun), List.find?_cons_of_neg]
      · exact found
      · simp [Scope.isFunctionLike, kind, ScopeKind.isFunctionLike]
  | @beyond scope rest kind notGlobal _ induction =>
      obtain ⟨owner, member, found, facts⟩ := induction
      rw [takeWhile_inside rest kind]
      by_cases good : (scope.isFunctionLike && scope.bindings.contains name &&
          !scope.nonlocals.contains name) = true
      · rw [List.find?_cons_of_pos (by exact good)]
        refine ⟨scope, List.mem_cons_self, rfl, ?_⟩
        simp only [Bool.and_eq_true, Bool.not_eq_true', List.contains_eq_mem,
          decide_eq_false_iff_not] at good
        exact ⟨good.1.1, good.1.2, good.2, notGlobal⟩
      · rw [List.find?_cons_of_neg (by exact good)]
        exact ⟨owner, List.mem_cons_of_mem _ member, found, facts⟩

/-- The cases of ownership. -/
theorem ownerOf?_cases {scopes : List Scope} {scope : Scope} {name : String} {owner : NodeId}
    (owned : ownerOf? scopes scope name = some owner) :
    (scope.kind ≠ .module ∧ name ∈ scope.globals ∧ scopes.head?.map Scope.key = some owner) ∨
    ((scope.kind = .module ∨ name ∉ scope.globals) ∧ name ∈ scope.nonlocals ∧
      nonlocalOwner? scopes scope name = some owner) ∨
    ((scope.kind = .module ∨ name ∉ scope.globals) ∧ name ∉ scope.nonlocals ∧
      owner = scope.key) := by
  unfold ownerOf? at owned
  split at owned
  · next isGlobal =>
      simp only [Bool.and_eq_true, bne_iff_ne, List.contains_eq_mem, decide_eq_true_eq] at isGlobal
      exact Or.inl ⟨isGlobal.1, isGlobal.2, owned⟩
  · next notGlobal =>
      have plain : scope.kind = .module ∨ name ∉ scope.globals := by
        simp only [Bool.and_eq_true, bne_iff_ne, List.contains_eq_mem,
          decide_eq_true_eq] at notGlobal
        tauto
      split at owned
      · next isNonlocal => exact Or.inr (Or.inl ⟨plain, by simpa using isNonlocal, owned⟩)
      · next notNonlocal =>
          exact Or.inr (Or.inr ⟨plain, by simpa using notNonlocal, (Option.some.inj owned).symm⟩)

theorem ownerOf?_self {scopes : List Scope} {scope : Scope} {name : String}
    (notGlobal : scope.kind = .module ∨ name ∉ scope.globals)
    (notNonlocal : name ∉ scope.nonlocals) :
    ownerOf? scopes scope name = some scope.key := by
  rcases notGlobal with kind | absent
  · simp [ownerOf?, kind, notNonlocal]
  · simp [ownerOf?, absent, notNonlocal]

variable (wellFormed : tree.WellFormed) (meet : NonlocalsMeet (recordedScopes path tree))

include wellFormed in
theorem binds_of_owner {scope owner : Scope} {name : String}
    (member : scope ∈ recordedScopes path tree)
    (binds : scope.bindings.contains name = true) (isOwner : owner ∈ recordedScopes path tree)
    (owned : ownerOf? (recordedScopes path tree) scope name = some owner.key)
    (kind : owner.kind ≠ .module) : owner.bindings.contains name = true := by
  rcases ownerOf?_cases owned with ⟨_, _, head⟩ | ⟨_, _, found⟩ | ⟨_, _, same⟩
  · exact absurd ((head_of_module wellFormed isOwner).mp head) kind
  · unfold nonlocalOwner? at found
    obtain ⟨other, isFound, key⟩ := Option.map_eq_some_iff.mp found
    have around := List.mem_of_find?_eq_some isFound
    have inside := mem_of_mem_around ((List.takeWhile_sublist _).subset around)
    have good := List.find?_some isFound
    simp only [Bool.and_eq_true] at good
    rw [← eq_of_key wellFormed inside isOwner key]
    exact good.1.2
  · rw [eq_of_key wellFormed isOwner member same]
    exact binds

include wellFormed meet in
theorem undeclared_of_owner {scope owner : Scope} {name : String}
    (member : scope ∈ recordedScopes path tree) (isOwner : owner ∈ recordedScopes path tree)
    (owned : ownerOf? (recordedScopes path tree) scope name = some owner.key) :
    (owner.kind = .module ∨ name ∉ owner.globals) ∧ name ∉ owner.nonlocals := by
  rcases ownerOf?_cases owned with ⟨_, _, head⟩ | ⟨_, isNonlocal, found⟩ |
    ⟨plain, notNonlocal, same⟩
  · have kind := (head_of_module wellFormed isOwner).mp head
    refine ⟨Or.inl kind, ?_⟩
    intro isNonlocal
    have outer : owner.outer = [] := by
      obtain ⟨first, rest, all, _, _, outer⟩ := (recorded path tree).head
      have key : first.key = owner.key := by
        rw [all] at head
        exact Option.some.inj head
      rw [← eq_of_key wellFormed (by rw [all]; exact List.mem_cons_self) isOwner key]
      exact outer
    have meets := meet owner isOwner name isNonlocal
    rw [scopesAround, outer] at meets
    cases meets
  · obtain ⟨other, around, isFound, _, _, notNonlocal, notGlobal⟩ :=
      owner_of_meets (meet scope member name isNonlocal)
    have key : other.key = owner.key := by
      rw [nonlocalOwner?, isFound] at found
      exact Option.some.inj found
    rw [← eq_of_key wellFormed (mem_of_mem_around around) isOwner key]
    exact ⟨Or.inr notGlobal, notNonlocal⟩
  · rw [eq_of_key wellFormed isOwner member same]
    exact ⟨plain, notNonlocal⟩

include meet in
theorem exists_owner {scope : Scope} (name : String) (member : scope ∈ recordedScopes path tree) :
    ∃ owner ∈ recordedScopes path tree,
      ownerOf? (recordedScopes path tree) scope name = some owner.key := by
  by_cases isGlobal : (scope.kind != .module && scope.globals.contains name) = true
  · obtain ⟨first, rest, all, _⟩ := (recorded path tree).head
    refine ⟨first, by rw [all]; exact List.mem_cons_self, ?_⟩
    rw [ownerOf?, if_pos isGlobal, all]
    rfl
  · by_cases isNonlocal : name ∈ scope.nonlocals
    · obtain ⟨owner, around, found, _⟩ := owner_of_meets (meet scope member name isNonlocal)
      refine ⟨owner, mem_of_mem_around around, ?_⟩
      rw [ownerOf?, if_neg isGlobal, if_pos (by simpa using isNonlocal), nonlocalOwner?, found]
      rfl
    · refine ⟨scope, member, ?_⟩
      rw [ownerOf?, if_neg isGlobal, if_neg (by simpa using isNonlocal)]

end

end SafeRefactor
