import Mathlib
import SafeRefactor.Proofs.Ownership

/-!
# Bindings, look-up and references

A built model looks up a bound name in the scope that settling gave its bindings to.
So a binding occurrence is among the bindings of the symbol it resolves to, the name
occurrences that bind a symbol are its references that store or delete, and a symbol
stands at the least position of its bindings.
-/

namespace SafeRefactor

theorem placements_get {events : List Event} {node scope : NodeId}
    (placed : .places node scope ∈ events)
    (only : ∀ other, .places node other ∈ events → other = scope) :
    (placements events)[node]? = some scope := by
  have known : ({} : Std.HashMap NodeId NodeId)[node]? = some scope ∨
      .places node scope ∈ events := Or.inr placed
  unfold placements
  clear placed
  generalize ({} : Std.HashMap NodeId NodeId) = table at known ⊢
  induction events generalizing table with
  | nil =>
      rcases known with found | member
      · exact found
      · cases member
  | cons event rest induction =>
      rw [List.foldl_cons]
      apply induction fun other member => only other (List.mem_cons_of_mem event member)
      cases event with
      | places other target =>
          by_cases same : other = node
          · subst same
            obtain rfl := only target List.mem_cons_self
            exact Or.inl (by simp)
          · rcases known with found | member
            · left
              rw [Std.HashMap.getElem?_insert]
              simp [same, found]
            · rcases List.mem_cons.mp member with first | later
              · simp only [Event.places.injEq] at first
                exact absurd first.1.symm same
              · exact Or.inr later
      | _ =>
          rcases known with found | member
          · exact Or.inl found
          · rcases List.mem_cons.mp member with first | later
            · cases first
            · exact Or.inr later

namespace Model

/-- Settling leaves a symbol where a name bound somewhere belongs, and only there. -/
theorem symbol_iff {path : String} {tree : Node} {owner settled : Scope} {name : String}
    (isOwner : owner ∈ recordedScopes path tree)
    (received : Scope.Received (moduleDeposits (recordedScopes path tree)) owner settled) :
    (settled.symbol? name).isSome ↔ ∃ scope ∈ recordedScopes path tree,
      scope.bindings.contains name = true ∧
        ownerOf? (recordedScopes path tree) scope name = some owner.key := by
  have blank : owner.symbol? name = none := by
    rw [Scope.symbol?, ((recorded path tree).records owner isOwner).symbols]
    rfl
  rw [received.present, blank]
  simp only [Option.isSome_none, Bool.false_eq_true, false_or]
  constructor
  · rintro ⟨deposit, member, key, rfl⟩
    obtain ⟨scope, inside, bindings, found, owned, _⟩ := mem_moduleDeposits.mp member
    refine ⟨scope, inside, ?_, by rw [owned, key]⟩
    rw [Table.contains, found]
    rfl
  · rintro ⟨scope, inside, binds, owned⟩
    obtain ⟨bindings, found⟩ := Option.isSome_iff_exists.mp binds
    exact ⟨⟨owner.key, name, if owner.key = scope.key then [] else bindings⟩,
      mem_moduleDeposits.mpr ⟨scope, inside, bindings, found, owned, rfl⟩, rfl, rfl⟩

/-- The bindings of a name in the scope it belongs to. -/
theorem mem_settled_bindings {path : String} {tree : Node} {owner settled : Scope} {name : String}
    {binding : Binding}
    (isOwner : owner ∈ recordedScopes path tree)
    (received : Scope.Received (moduleDeposits (recordedScopes path tree)) owner settled) :
    binding ∈ settled.bindingsOf name ↔
      .binds owner.key name binding ∈ Event.ofModule tree ∨
      ∃ scope ∈ recordedScopes path tree, scope.key ≠ owner.key ∧
        ownerOf? (recordedScopes path tree) scope name = some owner.key ∧
        .binds scope.key name binding ∈ Event.ofModule tree := by
  rw [received.bindings, List.mem_append,
    ((recorded path tree).records owner isOwner).bindings, Deposit.mem_addedTo]
  apply or_congr_right
  constructor
  · rintro ⟨deposit, member, key, rfl, inside⟩
    obtain ⟨scope, isScope, bindings, found, owned, same⟩ := mem_moduleDeposits.mp member
    rw [same] at inside
    split at inside
    · cases inside
    · next different =>
        refine ⟨scope, isScope, ?_, by rw [owned, key], ?_⟩
        · rw [← key]
          exact fun equal => different equal.symm
        · rw [← ((recorded path tree).records scope isScope).bindings, Scope.bindingsOf, found]
          exact inside
  · rintro ⟨scope, isScope, different, owned, binds⟩
    rw [← ((recorded path tree).records scope isScope).bindings] at binds
    cases found : scope.bindings.get? name with
    | none =>
        rw [Scope.bindingsOf, found] at binds
        cases binds
    | some bindings =>
        rw [Scope.bindingsOf, found] at binds
        refine ⟨⟨owner.key, name, bindings⟩,
          mem_moduleDeposits.mpr ⟨scope, isScope, bindings, found, owned, ?_⟩, rfl, rfl, binds⟩
        rw [if_neg (fun equal => different equal.symm)]

private theorem not_global {scope : Scope} {name : String}
    (plain : scope.kind = .module ∨ name ∉ scope.globals) :
    ¬ (scope.kind != .module && scope.globals.contains name) = true := by
  rcases plain with kind | absent
  · simp [kind]
  · simp [absent]

/-- Look-up stops at a frame that binds the name. -/
theorem lookupAround_frame {path : String} {tree : Node} (model : Model) {owner final : Scope}
    {name : String} (rest : List Scope) (isOwner : owner ∈ recordedScopes path tree)
    (received : Scope.Received (moduleDeposits (recordedScopes path tree)) owner final)
    (frame : owner.isFunctionLike = true) (binds : owner.bindings.contains name = true)
    (notNonlocal : name ∉ owner.nonlocals) (notGlobal : name ∉ owner.globals) :
    model.lookupAround name (final :: rest) = final.symbol? name := by
  have owned : ownerOf? (recordedScopes path tree) owner name = some owner.key :=
    ownerOf?_self (Or.inr notGlobal) notNonlocal
  have present := (symbol_iff isOwner received).mpr ⟨owner, isOwner, binds, owned⟩
  obtain ⟨symbol, found⟩ := Option.isSome_iff_exists.mp present
  have outer := kind_ne_module frame
  have body : owner.kind ≠ .classBody := by
    intro kind
    rw [Scope.isFunctionLike, kind] at frame
    cases frame
  simp [lookupAround, received.kind, received.globals, received.nonlocals, outer, body, notGlobal,
    notNonlocal, found]

theorem lookupAround_skip {path : String} {tree : Node} (wellFormed : tree.WellFormed)
    (model : Model) {scope settled : Scope} {name : String} (rest : List Scope)
    (member : scope ∈ recordedScopes path tree)
    (received : Scope.Received (moduleDeposits (recordedScopes path tree)) scope settled)
    (kind : scope.kind ≠ .module) (notGlobal : scope.kind = .classBody ∨ name ∉ scope.globals)
    (passed : ¬ (scope.isFunctionLike = true ∧ scope.bindings.contains name = true ∧
      name ∉ scope.nonlocals)) :
    model.lookupAround name (settled :: rest) = model.lookupAround name rest := by
  by_cases body : scope.kind = .classBody
  · simp [lookupAround, received.kind, body]
  · have absent := notGlobal.resolve_left body
    by_cases isNonlocal : name ∈ scope.nonlocals
    · simp [lookupAround, received.kind, received.globals, received.nonlocals, kind, body, absent,
        isNonlocal]
    · have frame : scope.isFunctionLike = true := by
        unfold Scope.isFunctionLike
        generalize scope.kind = shape at kind body
        cases shape with
        | module => exact absurd rfl kind
        | classBody => exact absurd rfl body
        | _ => rfl
      have none : settled.symbol? name = none := by
        cases found : settled.symbol? name with
        | none => rfl
        | some symbol =>
            have present : (settled.symbol? name).isSome := by
              rw [found]
              rfl
            obtain ⟨other, inside, binds, owned⟩ := (symbol_iff member received).mp present
            have own := binds_of_owner wellFormed inside binds member owned kind
            exact absurd ⟨frame, own, isNonlocal⟩ passed
      simp [lookupAround, received.kind, received.globals, received.nonlocals, kind, body, absent,
        isNonlocal, none]

/-- Climbing from a nonlocal name ends at the frame that the name meets. -/
theorem lookupAround_of_meets {path : String} {tree : Node} (wellFormed : tree.WellFormed)
    (model : Model) {name : String} {scopes settled : List Scope}
    (meets : MeetsFrame name scopes)
    (all : List.Forall₂ (Scope.Received (moduleDeposits (recordedScopes path tree))) scopes settled)
    (inside : ∀ scope ∈ scopes, scope ∈ recordedScopes path tree) :
    ∃ owner final, (scopes.takeWhile (fun other => other.kind != .module)).find?
          (fun other => other.isFunctionLike && other.bindings.contains name &&
            !other.nonlocals.contains name) = some owner ∧
        final ∈ settled ∧
        Scope.Received (moduleDeposits (recordedScopes path tree)) owner final ∧
        model.lookupAround name settled = final.symbol? name := by
  induction meets generalizing settled with
  | @here owner rest frame binds notNonlocal notGlobal =>
      cases all with
      | @cons _ final _ others received _ =>
          refine ⟨owner, final, ?_, List.mem_cons_self, received, ?_⟩
          · rw [takeWhile_inside rest (kind_ne_module frame), List.find?_cons_of_pos]
            simp [frame, binds, notNonlocal]
          · exact lookupAround_frame model others (inside owner List.mem_cons_self) received frame
              binds notNonlocal notGlobal
  | @beyondClass scope rest kind _ induction =>
      cases all with
      | @cons _ first _ others received later =>
          have outer : scope.kind ≠ .module := by
            rw [kind]
            exact nofun
          have notFrame : scope.isFunctionLike = false := by
            rw [Scope.isFunctionLike, kind]
            rfl
          obtain ⟨owner, final, found, member, isFinal, same⟩ :=
            induction later (fun other member => inside other (List.mem_cons_of_mem _ member))
          refine ⟨owner, final, ?_, List.mem_cons_of_mem _ member, isFinal, ?_⟩
          · rw [takeWhile_inside rest outer, List.find?_cons_of_neg]
            · exact found
            · simp [notFrame]
          · rw [← same]
            apply lookupAround_skip wellFormed model others
              (inside scope List.mem_cons_self) received
              outer (Or.inl kind)
            simp [notFrame]
  | @beyond scope rest kind notGlobal _ induction =>
      cases all with
      | @cons _ first _ others received later =>
          rw [takeWhile_inside rest kind]
          by_cases good : scope.isFunctionLike = true ∧ scope.bindings.contains name = true ∧
              name ∉ scope.nonlocals
          · obtain ⟨frame, binds, notNonlocal⟩ := good
            refine ⟨scope, first, ?_, List.mem_cons_self, received, ?_⟩
            · rw [List.find?_cons_of_pos]
              simp [frame, binds, notNonlocal]
            · exact lookupAround_frame model others (inside scope List.mem_cons_self) received frame
                binds notNonlocal notGlobal
          · obtain ⟨owner, final, found, member, isFinal, same⟩ :=
              induction later (fun other member => inside other (List.mem_cons_of_mem _ member))
            refine ⟨owner, final, ?_, List.mem_cons_of_mem _ member, isFinal, ?_⟩
            · rw [List.find?_cons_of_neg]
              · exact found
              · simpa [and_assoc] using good
            · rw [← same]
              exact lookupAround_skip wellFormed model others (inside scope List.mem_cons_self)
                received kind (Or.inr notGlobal) good

section

variable {path : String} {tree : Node} {model : Model} (settles : model.Settles path tree)
  (wellFormed : tree.WellFormed)

include settles

theorem exists_settled {scope : Scope} (member : scope ∈ recordedScopes path tree) :
    ∃ settled ∈ model.scopes,
      Scope.Received (moduleDeposits (recordedScopes path tree)) scope settled :=
  exists_of_forall₂_left settles.scopes member

theorem exists_recorded {settled : Scope} (member : settled ∈ model.scopes) :
    ∃ scope ∈ recordedScopes path tree,
      Scope.Received (moduleDeposits (recordedScopes path tree)) scope settled :=
  exists_of_forall₂_right settles.scopes member

private theorem map_settled {α : Type} {view : Scope → α}
    (kept : ∀ scope settled, Scope.Received (moduleDeposits (recordedScopes path tree)) scope
      settled → view settled = view scope) :
    model.scopes.map view = (recordedScopes path tree).map view := by
  have all := settles.scopes
  generalize recordedScopes path tree = scopes at all kept
  generalize moduleDeposits scopes = deposits at all kept
  generalize model.scopes = settled at all
  induction all with
  | nil => rfl
  | cons first _ induction =>
      rw [List.map_cons, List.map_cons, kept _ _ first, induction]

include wellFormed in
theorem settled_keys_nodup : (model.scopes.map Scope.key).Nodup := by
  rw [map_settled settles (fun _ _ received => received.key)]
  exact keys_nodup wellFormed

theorem settled_ids_nodup : (model.scopes.map Scope.id).Nodup := by
  rw [map_settled settles (fun _ _ received => received.id)]
  exact (recorded path tree).ids

theorem find_settled (key : NodeId) :
    Option.Rel (Scope.Received (moduleDeposits (recordedScopes path tree)))
      (findScope? (recordedScopes path tree) key) (findScope? model.scopes key) := by
  have all := settles.scopes
  generalize moduleDeposits (recordedScopes path tree) = deposits at all
  generalize recordedScopes path tree = scopes at all
  generalize model.scopes = settled at all
  unfold findScope?
  induction all with
  | nil => exact .none
  | @cons scope settled _ _ first _ induction =>
      rw [List.find?_cons, List.find?_cons, first.key]
      split
      · exact .some first
      · exact induction

theorem around_settled {scope settled : Scope}
    (received : Scope.Received (moduleDeposits (recordedScopes path tree)) scope settled) :
    List.Forall₂ (Scope.Received (moduleDeposits (recordedScopes path tree)))
      (scopesAround (recordedScopes path tree) scope) (model.around settled) := by
  unfold Model.around scopesAround
  rw [received.outer]
  induction scope.outer with
  | nil => exact .nil
  | cons key rest induction =>
      have found := find_settled settles key
      rw [List.filterMap_cons, List.filterMap_cons]
      cases left : findScope? (recordedScopes path tree) key with
      | none =>
          rw [left] at found
          cases right : findScope? model.scopes key with
          | none => exact induction
          | some other =>
              rw [right] at found
              cases found
      | some first =>
          rw [left] at found
          cases right : findScope? model.scopes key with
          | none =>
              rw [right] at found
              cases found
          | some other =>
              rw [right] at found
              cases found with
              | some received => exact .cons received induction

theorem moduleScope_settled : ∃ first ∈ recordedScopes path tree,
    (recordedScopes path tree).head?.map Scope.key = some first.key ∧
      Scope.Received (moduleDeposits (recordedScopes path tree)) first model.moduleScope := by
  obtain ⟨first, rest, all, _⟩ := (recorded path tree).head
  have pairs := settles.scopes
  have isFirst : first ∈ recordedScopes path tree := by
    rw [all]
    exact List.mem_cons_self
  have head : (recordedScopes path tree).head?.map Scope.key = some first.key := by
    rw [all]
    rfl
  refine ⟨first, isFirst, head, ?_⟩
  generalize moduleDeposits (recordedScopes path tree) = deposits at pairs
  rw [all] at pairs
  unfold moduleScope
  cases found : model.scopes with
  | nil =>
      rw [found] at pairs
      cases pairs
  | cons settled others =>
      rw [found] at pairs
      cases pairs with
      | cons received _ => exact received

theorem moduleScope_mem : model.moduleScope ∈ model.scopes := by
  obtain ⟨first, rest, all, _⟩ := (recorded path tree).head
  have lengths := settles.scopes.length_eq
  rw [all] at lengths
  unfold moduleScope
  cases found : model.scopes with
  | nil =>
      rw [found] at lengths
      cases lengths
  | cons settled others => exact List.mem_cons_self

include wellFormed in
/-- A name bound in a scope is looked up in the scope it belongs to, and found there. -/
theorem lookup_eq_owner (meet : NonlocalsMeet (recordedScopes path tree)) {scope settled : Scope}
    {name : String} (member : scope ∈ recordedScopes path tree) (isSettled : settled ∈ model.scopes)
    (received : Scope.Received (moduleDeposits (recordedScopes path tree)) scope settled)
    (binds : scope.bindings.contains name = true) :
    ∃ owner ∈ recordedScopes path tree, ∃ final ∈ model.scopes, ∃ symbol,
      Scope.Received (moduleDeposits (recordedScopes path tree)) owner final ∧
      ownerOf? (recordedScopes path tree) scope name = some owner.key ∧
      model.lookup settled name = some symbol ∧ final.symbol? name = some symbol := by
  obtain ⟨owner, isOwner, owned⟩ := exists_owner meet name member
  obtain ⟨final, isFinal, ownerReceived⟩ := exists_settled settles isOwner
  have present := (symbol_iff isOwner ownerReceived).mpr ⟨scope, member, binds, owned⟩
  obtain ⟨symbol, found⟩ := Option.isSome_iff_exists.mp present
  -- The scopes that settling and look-up find have one number.
  have same : ∀ {other : Scope}, other ∈ model.scopes → other.key = owner.key → other = final := by
    intro other isOther key
    exact List.inj_on_of_nodup_map (settled_keys_nodup settles wellFormed) isOther isFinal
      (key.trans ownerReceived.key.symm)
  refine ⟨owner, isOwner, final, isFinal, symbol, ownerReceived, owned, ?_, found⟩
  unfold lookup
  rw [received.kind, received.globals, received.nonlocals]
  rcases ownerOf?_cases owned with ⟨kind, isGlobal, head⟩ | ⟨plain, isNonlocal, nearest⟩ |
    ⟨plain, notNonlocal, key⟩
  · obtain ⟨first, _, isHead, firstReceived⟩ := moduleScope_settled settles
    have isModule : model.moduleScope = final := by
      apply same (moduleScope_mem settles)
      rw [firstReceived.key]
      rw [isHead] at head
      exact Option.some.inj head
    simp [kind, isGlobal, lookupModule, isModule, found]
  · obtain ⟨other, last, isFound, isLast, lastReceived, looked⟩ :=
      lookupAround_of_meets wellFormed model (meet scope member name isNonlocal)
        (around_settled settles received) (fun _ around => mem_of_mem_around around)
    have key : last.key = owner.key := by
      rw [nonlocalOwner?, isFound] at nearest
      rw [lastReceived.key]
      exact Option.some.inj nearest
    rw [if_neg (not_global plain), if_pos (by simpa using isNonlocal), looked,
      same (mem_of_mem_around isLast) key, found]
  · have isSelf : settled = final := by
      apply same isSettled
      rw [received.key]
      exact key.symm
    rw [if_neg (not_global plain), if_neg (by simpa using notNonlocal), isSelf, found]

include wellFormed in
theorem find_of_nested {opener : Node} {rest : List Node} (nested : Nested tree (opener :: rest)) :
    ∃ scope ∈ recordedScopes path tree, ∃ settled ∈ model.scopes,
      Scope.Received (moduleDeposits (recordedScopes path tree)) scope settled ∧
        scope.node = opener ∧ scope.outer = rest.map Node.id ∧
        findScope? model.scopes opener.id = some settled := by
  obtain ⟨kind, name, opens⟩ := Event.opens_of_nested wellFormed nested
  obtain ⟨scope, member, header⟩ := (recorded path tree).exists_of_opens opens
  obtain ⟨settled, isSettled, received⟩ := exists_settled settles member
  have node : scope.node = opener := congrArg Scope.Header.node header
  refine ⟨scope, member, settled, isSettled, received, node,
    congrArg Scope.Header.outer header, ?_⟩
  apply (findScope?_eq_some (settled_keys_nodup settles wellFormed)).mpr
  exact ⟨isSettled, by rw [received.key, Scope.key, node]⟩

include wellFormed in
/-- A node that no callable has as a parameter is evaluated in the scope in which it is visited. -/
theorem scopeOf_of_not_isParameter {node : Node} {spot : Spot}
    (visited : Spot.Visited tree spot node) (other : ¬ tree.IsParameter node) :
    ∃ scope ∈ recordedScopes path tree,
      Scope.Received (moduleDeposits (recordedScopes path tree)) scope (model.scopeOf node) ∧
        model.scopeOf node ∈ model.scopes ∧ scope.key = spot.place.scope := by
  obtain ⟨opener, rest, nested, key⟩ := visited.scope_opened wellFormed
  obtain ⟨scope, member, settled, isSettled, received, isNode, _, found⟩ :=
    find_of_nested settles wellFormed nested
  have placed : model.placement[node.id]? = some spot.place.scope := by
    rw [settles.placement]
    apply placements_get
    · exact (Event.places_iff_of_not_isParameter wellFormed visited other).mpr rfl
    · intro scope
      exact (Event.places_iff_of_not_isParameter wellFormed visited other).mp
  have same : model.scopeOf node = settled := by
    rw [scopeOf, placed, Option.bind_some, ← key, found]
    rfl
  rw [same]
  refine ⟨scope, member, received, isSettled, ?_⟩
  rw [Scope.key, isNode, key]

include wellFormed in
theorem scopeOf_visited {node : Node} {spot : Spot} (visited : Spot.Visited tree spot node)
    (other : ∀ name hint, node.form ≠ .parameter name hint) :
    ∃ scope ∈ recordedScopes path tree,
      Scope.Received (moduleDeposits (recordedScopes path tree)) scope (model.scopeOf node) ∧
        model.scopeOf node ∈ model.scopes ∧ scope.key = spot.place.scope :=
  scopeOf_of_not_isParameter settles wellFormed visited (wellFormed.not_isParameter other)

/-- The bindings of a symbol of a scope are those of its name there. -/
theorem bindingsOf_symbol {scope : Scope} {name : String} {symbol : Symbol}
    (member : scope ∈ model.scopes) (found : scope.symbol? name = some symbol) :
    symbol.name = name ∧ symbol.scopeId = scope.id ∧ symbol.kind ≠ .builtin ∧
      model.bindingsOf symbol = scope.bindingsOf name ∧
      ∃ first ∈ scope.bindingsOf name, first.start = ⟨symbol.line, symbol.column⟩ ∧
        ∀ binding ∈ scope.bindingsOf name, first.start ≤ binding.start := by
  obtain ⟨origin, isOrigin, received⟩ := exists_recorded settles member
  have blank : ∀ name symbol, origin.symbol? name = some symbol → origin.Declares name symbol := by
    intro name symbol present
    rw [Scope.symbol?, ((recorded path tree).records origin isOrigin).symbols] at present
    cases present
  obtain ⟨setting, _, id, made⟩ := received.declares blank name symbol found
  obtain ⟨isNamed, scopeId, kind⟩ := Setting.name_of_symbolOf made
  have isScope : model.scopeById? symbol.scopeId = some scope := by
    rw [scopeId, id, scopeById?]
    cases isFound : model.scopes.find? (fun other => other.id = scope.id) with
    | none =>
        have none := List.find?_eq_none.mp isFound scope member
        simp at none
    | some other =>
        have same := List.find?_some isFound
        simp only [decide_eq_true_eq] at same
        rw [List.inj_on_of_nodup_map (settled_ids_nodup settles)
          (List.mem_of_find?_eq_some isFound) member same]
  refine ⟨isNamed, scopeId.trans id, kind, ?_, Setting.position_of_symbolOf made⟩
  rw [Model.bindingsOf, isScope, isNamed]

variable (meet : NonlocalsMeet (recordedScopes path tree))

include wellFormed meet in
/-- A binding told of a scope is among the bindings of the symbol that its name means there. -/
theorem mem_bindingsOf_lookup {scope settled : Scope} {name : String} {binding : Binding}
    (member : scope ∈ recordedScopes path tree) (isSettled : settled ∈ model.scopes)
    (received : Scope.Received (moduleDeposits (recordedScopes path tree)) scope settled)
    (binds : .binds scope.key name binding ∈ Event.ofModule tree) :
    ∃ symbol, model.lookup settled name = some symbol ∧ binding ∈ model.bindingsOf symbol ∧
      symbol.kind ≠ .builtin := by
  have records := (recorded path tree).records scope member
  have contains : scope.bindings.contains name = true :=
    (Scope.contains_iff records name).mpr ⟨binding, (records.bindings name binding).mpr binds⟩
  obtain ⟨owner, isOwner, final, isFinal, symbol, ownerReceived, owned, looked, found⟩ :=
    lookup_eq_owner settles wellFormed meet member isSettled received contains
  obtain ⟨_, _, kind, all, _⟩ := bindingsOf_symbol settles isFinal found
  refine ⟨symbol, looked, ?_, kind⟩
  rw [all, mem_settled_bindings isOwner ownerReceived]
  by_cases same : scope.key = owner.key
  · rw [← same]
    exact Or.inl binds
  · exact Or.inr ⟨scope, member, same, owned, binds⟩

include wellFormed meet in
/-- A binding of a symbol was told of a scope in which its name means that symbol. -/
theorem lookup_of_mem_bindingsOf {owner final : Scope} {name : String} {symbol : Symbol}
    {binding : Binding} (isOwner : owner ∈ recordedScopes path tree)
    (isFinal : final ∈ model.scopes)
    (received : Scope.Received (moduleDeposits (recordedScopes path tree)) owner final)
    (found : final.symbol? name = some symbol) (bound : binding ∈ model.bindingsOf symbol) :
    ∃ scope ∈ recordedScopes path tree, .binds scope.key name binding ∈ Event.ofModule tree ∧
      ∀ settled ∈ model.scopes,
        Scope.Received (moduleDeposits (recordedScopes path tree)) scope settled →
          model.lookup settled name = some symbol := by
  obtain ⟨_, _, _, all, _⟩ := bindingsOf_symbol settles isFinal found
  rw [all, mem_settled_bindings isOwner received] at bound
  -- Either way the binding comes from a scope whose name belongs to the owner.
  have source : ∃ scope ∈ recordedScopes path tree,
      .binds scope.key name binding ∈ Event.ofModule tree ∧
        ownerOf? (recordedScopes path tree) scope name = some owner.key := by
    rcases bound with own | ⟨scope, member, _, owned, binds⟩
    · have present : (final.symbol? name).isSome := by
        rw [found]
        rfl
      obtain ⟨other, isOther, _, owned⟩ := (symbol_iff isOwner received).mp present
      obtain ⟨plain, notNonlocal⟩ := undeclared_of_owner wellFormed meet isOther isOwner owned
      exact ⟨owner, isOwner, own, ownerOf?_self plain notNonlocal⟩
    · exact ⟨scope, member, binds, owned⟩
  obtain ⟨scope, member, binds, owned⟩ := source
  refine ⟨scope, member, binds, ?_⟩
  intro settled isSettled settledReceived
  have records := (recorded path tree).records scope member
  have contains : scope.bindings.contains name = true :=
    (Scope.contains_iff records name).mpr ⟨binding, (records.bindings name binding).mpr binds⟩
  obtain ⟨other, isOther, last, isLast, target, lastReceived, otherOwned, looked, isTarget⟩ :=
    lookup_eq_owner settles wellFormed meet member isSettled settledReceived contains
  have key : last.key = final.key := by
    rw [owned] at otherOwned
    rw [lastReceived.key, received.key]
    exact (Option.some.inj otherOwned).symm
  have same : last = final :=
    List.inj_on_of_nodup_map (settled_keys_nodup settles wellFormed) isLast isFinal key
  rw [same, found] at isTarget
  rw [looked, isTarget]

include wellFormed in
theorem exists_of_binds {key : NodeId} {name : String} {binding : Binding}
    (binds : .binds key name binding ∈ Event.ofModule tree) :
    ∃ scope ∈ recordedScopes path tree, ∃ settled ∈ model.scopes,
      Scope.Received (moduleDeposits (recordedScopes path tree)) scope settled ∧
        scope.key = key := by
  have opened : ∃ opener rest, Nested tree (opener :: rest) ∧ opener.id = key := by
    rcases (Event.binds_iff wellFormed).mp binds with ⟨spot, visited, _, rfl, _⟩ |
      ⟨callable, inside, isCallable, _, rfl, _⟩
    · exact visited.scope_opened wellFormed
    · obtain ⟨spot, visited⟩ := Spot.Visited.exists_of_mem inside
      have kind : ∃ kind, callable.form.scopeKind? = some kind := by
        generalize callable.form = form at isCallable
        cases form with
        | functionDef | lambda => exact ⟨_, rfl⟩
        | _ => cases isCallable
      obtain ⟨kind, opens⟩ := kind
      obtain ⟨rest, nested, _⟩ := visited.nested wellFormed opens
      exact ⟨callable, rest, nested, rfl⟩
  obtain ⟨opener, rest, nested, rfl⟩ := opened
  obtain ⟨scope, member, settled, isSettled, received, node, _⟩ :=
    find_of_nested settles wellFormed nested
  exact ⟨scope, member, settled, isSettled, received, by rw [Scope.key, node]⟩

end

/-- A name occurrence that stores or deletes. -/
def IsBindingName (node : Node) : Prop :=
  ∃ id, node.form = .name id .store ∨ node.form = .name id .del

theorem IsBindingName.not_parameter {node : Node} (binding : IsBindingName node) (name : String)
    (hint : Option Printed) : node.form ≠ .parameter name hint := by
  obtain ⟨id, form | form⟩ := binding
  · rw [form]
    exact nofun
  · rw [form]
    exact nofun

/-- A binding of a name by a name occurrence is visited in the scope that it is told of. -/
theorem name_of_binds {tree : Node} {key : NodeId} {name : String} {binding : Binding}
    (wellFormed : tree.WellFormed) (binds : .binds key name binding ∈ Event.ofModule tree)
    (named : binding.node.identifier?.isSome) :
    ∃ spot, Spot.Visited tree spot binding.node ∧ spot.place.scope = key ∧
      IsBindingName binding.node ∧ binding.node.identifier? = some name := by
  rcases (Event.binds_iff wellFormed).mp binds with ⟨spot, visited, bound, rfl, _⟩ |
    ⟨callable, inside, isCallable, member, _⟩
  · refine ⟨spot, visited, rfl, ?_⟩
    unfold Node.identifier? IsBindingName at *
    generalize binding.node.form = form at *
    cases form with
    | name id context =>
        cases context with
        | load => cases bound
        | store => exact ⟨⟨id, Or.inl rfl⟩, bound⟩
        | del => exact ⟨⟨id, Or.inr rfl⟩, bound⟩
    | _ => cases named
  · obtain ⟨_, name, hint, form⟩ := wellFormed.parameter_form inside isCallable member
    rw [Node.identifier?, form] at named
    cases named

private theorem binds_of_name {tree node : Node} {spot : Spot} (wellFormed : tree.WellFormed)
    (visited : Spot.Visited tree spot node) (binding : IsBindingName node) :
    ∃ name, node.identifier? = some name ∧
      .binds spot.place.scope name ⟨node, spot.place.parent⟩ ∈ Event.ofModule tree := by
  obtain ⟨id, form⟩ := binding
  refine ⟨id, ?_, (Event.binds_iff wellFormed).mpr (Or.inl ⟨spot, visited, ?_, rfl, rfl⟩)⟩
  · rcases form with form | form <;> rw [Node.identifier?, form]
  · rcases form with form | form <;> simp only [form, Form.boundName?]

theorem mem_referencesOf {model : Model} {symbol : Symbol} {node : Node} :
    node ∈ model.referencesOf symbol ↔
      node ∈ model.tree.nodes ∧ node.identifier? = some symbol.name ∧
        model.resolve node = some symbol := by
  simp only [referencesOf, names, List.mem_filter, Node.mem_walk, Bool.and_eq_true,
    decide_eq_true_eq, and_assoc]
  apply and_congr_right
  intro _
  unfold Node.isNamed Node.identifier?
  generalize node.form = form
  cases form <;> simp

/-- The name occurrences that bind a symbol are its references that store or delete. -/
theorem binding_iff_reference {path : String} {tree : Node} {model : Model}
    (settles : model.Settles path tree) (wellFormed : tree.WellFormed)
    (meet : NonlocalsMeet (recordedScopes path tree)) {final : Scope} {name : String}
    {symbol : Symbol} (isFinal : final ∈ model.scopes) (found : final.symbol? name = some symbol)
    (node : Node) :
    (∃ binding ∈ model.bindingsOf symbol, binding.node = node ∧ node.identifier?.isSome) ↔
      node ∈ model.referencesOf symbol ∧ IsBindingName node := by
  obtain ⟨owner, isOwner, received⟩ := exists_recorded settles isFinal
  have named := (bindingsOf_symbol settles isFinal found).1
  rw [mem_referencesOf, settles.source]
  constructor
  · rintro ⟨binding, bound, rfl, isName⟩
    obtain ⟨scope, member, binds, looked⟩ :=
      lookup_of_mem_bindingsOf settles wellFormed meet isOwner isFinal received found bound
    obtain ⟨spot, visited, key, isBinding, identifier⟩ := name_of_binds wellFormed binds isName
    refine ⟨⟨visited.mem, by rw [identifier, named], ?_⟩, isBinding⟩
    obtain ⟨place, isPlace, placeReceived, isPlaced, placeKey⟩ :=
      scopeOf_visited settles wellFormed visited isBinding.not_parameter
    have same : place = scope := eq_of_key wellFormed isPlace member (placeKey.trans key)
    rw [same] at placeReceived
    rw [resolve, identifier]
    exact looked _ isPlaced placeReceived
  · rintro ⟨⟨inside, identifier, resolved⟩, isBinding⟩
    obtain ⟨spot, visited⟩ := Spot.Visited.exists_of_mem inside
    obtain ⟨id, isName, binds⟩ := binds_of_name wellFormed visited isBinding
    obtain ⟨place, isPlace, placeReceived, isPlaced, placeKey⟩ :=
      scopeOf_visited settles wellFormed visited isBinding.not_parameter
    rw [← placeKey] at binds
    obtain ⟨target, looked, bound, _⟩ :=
      mem_bindingsOf_lookup settles wellFormed meet isPlace isPlaced placeReceived binds
    have same : target = symbol := by
      rw [resolve, isName, Option.getD_some, looked] at resolved
      exact Option.some.inj resolved
    rw [same] at bound
    exact ⟨_, bound, rfl, by rw [isName]; rfl⟩

/-- Binding, look-up and the index of references agree. -/
theorem bindings_agree {path : String} {tree : Node} {model : Model} (wellFormed : tree.WellFormed)
    (built : build path tree = .ok model) (meet : NonlocalsMeet (recordedScopes path tree)) :
    (∀ key name binding, .binds key name binding ∈ Event.ofModule tree →
      ∃ scope ∈ model.scopes, scope.key = key ∧ ∃ symbol, model.lookup scope name = some symbol ∧
        binding ∈ model.bindingsOf symbol ∧ symbol.kind ≠ .builtin) ∧
    ∀ scope ∈ model.scopes, ∀ name symbol, scope.symbol? name = some symbol →
      (∀ node, (∃ binding ∈ model.bindingsOf symbol, binding.node = node ∧
          node.identifier?.isSome) ↔
        node ∈ model.referencesOf symbol ∧ IsBindingName node) ∧
      ∃ first ∈ model.bindingsOf symbol, first.start = ⟨symbol.line, symbol.column⟩ ∧
        ∀ binding ∈ model.bindingsOf symbol, first.start ≤ binding.start := by
  have settles := settles_of_build built
  refine ⟨?_, ?_⟩
  · intro key name binding binds
    obtain ⟨scope, member, settled, isSettled, received, rfl⟩ :=
      exists_of_binds settles wellFormed binds
    refine ⟨settled, isSettled, received.key, ?_⟩
    exact mem_bindingsOf_lookup settles wellFormed meet member isSettled received binds
  · intro scope member name symbol found
    refine ⟨binding_iff_reference settles wellFormed meet member found, ?_⟩
    obtain ⟨_, _, _, all, least⟩ := bindingsOf_symbol settles member found
    rw [all]
    exact least

theorem exists_of_check {path : String} {tree : Node} {check : Model → Bool}
    (holds : (build path tree).toOption.any check = true) :
    ∃ model, build path tree = .ok model ∧ check model = true := by
  cases built : build path tree with
  | error fault =>
      rw [built] at holds
      cases holds
  | ok model =>
      rw [built] at holds
      exact ⟨model, rfl, holds⟩

/-- A function that assigns a variable of the function around it. -/
def nonlocalModule : Node :=
  .mk .module ⟨0, .root, none⟩ [
    .mk (.functionDef false "f" none) ⟨1, .body, some ⟨⟨1, 0⟩, ⟨5, 13⟩⟩⟩ [
      .mk (.parameters []) ⟨2, .parameters, none⟩ [],
      .mk .assign ⟨3, .body, some ⟨⟨2, 4⟩, ⟨2, 9⟩⟩⟩ [
        .mk (.name "x" .store) ⟨4, .target, some ⟨⟨2, 4⟩, ⟨2, 5⟩⟩⟩ [],
        .mk (.constant .int "1") ⟨5, .value, some ⟨⟨2, 8⟩, ⟨2, 9⟩⟩⟩ []],
      .mk (.functionDef false "g" none) ⟨6, .body, some ⟨⟨3, 4⟩, ⟨5, 13⟩⟩⟩ [
        .mk (.parameters []) ⟨7, .parameters, none⟩ [],
        .mk (.nonlocalStmt ["x"]) ⟨8, .body, some ⟨⟨4, 8⟩, ⟨4, 18⟩⟩⟩ [],
        .mk .assign ⟨9, .body, some ⟨⟨5, 8⟩, ⟨5, 13⟩⟩⟩ [
          .mk (.name "x" .store) ⟨10, .target, some ⟨⟨5, 8⟩, ⟨5, 9⟩⟩⟩ [],
          .mk (.constant .int "2") ⟨11, .value, some ⟨⟨5, 12⟩, ⟨5, 13⟩⟩⟩ []]]]]

private theorem wellFormed_nonlocalModule : nonlocalModule.WellFormed :=
  ⟨by decide, by decide⟩

/-- The assignment in the inner function is a binding of the variable of the outer one. -/
theorem bindings_agree_nonlocal :
    ∃ model, build "m.py" nonlocalModule = .ok model ∧
      ∀ binding, .binds 6 "x" binding ∈ Event.ofModule nonlocalModule →
        ∃ scope ∈ model.scopes, scope.key = 6 ∧ ∃ symbol, model.lookup scope "x" = some symbol ∧
          binding ∈ model.bindingsOf symbol ∧ symbol.kind ≠ .builtin := by
  have meet : NonlocalsMeet (recordedScopes "m.py" nonlocalModule) := by
    apply of_decide_eq_true
    cbv
  have checked : (build "m.py" nonlocalModule).toOption.any (fun _ => true) = true := by cbv
  obtain ⟨model, built, _⟩ := exists_of_check checked
  exact ⟨model, built, (bindings_agree wellFormed_nonlocalModule built meet).1 6 "x"⟩

end Model

end SafeRefactor
