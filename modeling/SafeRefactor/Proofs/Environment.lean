import SafeRefactor.Proofs.Resolution

/-!
# Names by environments

The scoping rule of the language, told from the module inwards: a scope inherits what
names mean outside, and hands on to the scopes inside it what they mean there.  Looking a
name up by climbing from a scope outwards finds the meaning that the rule gives it.
-/

namespace SafeRefactor

/-- What each name means at some place. -/
abbrev Environment := String → Option Symbol

namespace Environment

/-- The meanings that a table of symbols gives, and other ones where it gives none. -/
def overriddenBy (inherited : Environment) (scope : Scope) : Environment :=
  fun name => (scope.symbol? name).or (inherited name)

end Environment

namespace Model

/-- What names mean at module level. -/
def moduleLevel (model : Model) : Environment :=
  Environment.overriddenBy builtinSymbol? model.moduleScope

/-- What names mean to the scopes directly inside a scope that inherits an environment. -/
def handedOn (model : Model) (scope : Scope) (inherited : Environment) : Environment :=
  match scope.kind with
  | .module => model.moduleLevel
  | .classBody => inherited
  | .function | .lambda | .comprehension => fun name =>
      if name ∈ scope.globals then model.moduleLevel name
      else if name ∈ scope.nonlocals then inherited name
      else inherited.overriddenBy scope name

/-- What names mean in a scope itself. -/
def seenIn (model : Model) (scope : Scope) (inherited : Environment) : Environment := fun name =>
  if scope.kind ≠ .module ∧ name ∈ scope.globals then model.moduleLevel name
  else if name ∈ scope.nonlocals then inherited name
  else inherited.overriddenBy scope name

/-- The environment that a scope inherits, from the module inwards. -/
inductive Inherits (model : Model) : Scope → Environment → Prop where
  | module : Inherits model model.moduleScope builtinSymbol?
  | inner {scope child : Scope} {inherited : Environment} :
      Inherits model scope inherited → child ∈ model.childrenOf scope →
      Inherits model child (model.handedOn scope inherited)

/-- One step of the climb outwards finds what the scope hands on. -/
theorem lookupAround_cons (model : Model) (scope : Scope) (rest : List Scope) (name : String) :
    model.lookupAround name (scope :: rest) =
      model.handedOn scope (fun other => model.lookupAround other rest) name := by
  rw [lookupAround, handedOn]
  cases kind : scope.kind with
  | module => rfl
  | classBody => rfl
  | function | lambda | comprehension =>
      simp only [List.contains_eq_mem]
      by_cases isGlobal : name ∈ scope.globals
      · simp [isGlobal, lookupModule, moduleLevel, Environment.overriddenBy]
      · by_cases isNonlocal : name ∈ scope.nonlocals
        · simp [isGlobal, isNonlocal]
        · cases found : scope.symbol? name with
          | none => simp [isGlobal, isNonlocal, Environment.overriddenBy, found]
          | some symbol => simp [isGlobal, isNonlocal, Environment.overriddenBy, found]

theorem lookup_eq_seenIn (model : Model) (scope : Scope) (name : String) :
    model.lookup scope name =
      model.seenIn scope (fun other => model.lookupAround other (model.around scope)) name := by
  unfold lookup seenIn
  by_cases isGlobal : scope.kind ≠ .module ∧ name ∈ scope.globals
  · simp [isGlobal, lookupModule, moduleLevel, Environment.overriddenBy]
  · rw [if_neg isGlobal, if_neg (by simpa using isGlobal)]
    by_cases isNonlocal : name ∈ scope.nonlocals
    · simp [isNonlocal]
    · cases found : scope.symbol? name with
      | none => simp [isNonlocal, Environment.overriddenBy, found]
      | some symbol => simp [isNonlocal, Environment.overriddenBy, found]

section

variable {path : String} {tree : Node} {model : Model} (settles : model.Settles path tree)
  (wellFormed : tree.WellFormed)

include settles

include wellFormed in
theorem moduleScope_header : model.moduleScope.node = tree ∧ model.moduleScope.kind = .module ∧
    model.moduleScope.outer = [] := by
  obtain ⟨first, rest, all, node, kind, outer⟩ := (recorded path tree).head
  obtain ⟨origin, isOrigin, head, received⟩ := moduleScope_settled settles
  have isFirst : first ∈ recordedScopes path tree := by
    rw [all]
    exact List.mem_cons_self
  have same : origin = first := by
    apply eq_of_key wellFormed isOrigin isFirst
    rw [all] at head
    exact (Option.some.inj head).symm
  rw [received.node, received.kind, received.outer, same]
  exact ⟨node, kind, outer⟩

include wellFormed in
theorem exists_nested {scope : Scope} (member : scope ∈ model.scopes) :
    ∃ rest, Nested tree (scope.node :: rest) ∧ scope.outer = rest.map Node.id := by
  obtain ⟨origin, isOrigin, received⟩ := exists_recorded settles member
  have opens := ((recorded path tree).records origin isOrigin).opens
  rw [received.node, received.outer]
  exact Event.nested_of_opens wellFormed opens

include wellFormed in
private theorem around_child {scope child : Scope} (member : scope ∈ model.scopes)
    (isChild : child ∈ model.childrenOf scope) :
    model.around child = scope :: model.around scope := by
  obtain ⟨isScope, parent⟩ := List.mem_filter.mp isChild
  rw [decide_eq_true_eq, Scope.parentKey?] at parent
  obtain ⟨openers, nested, outer⟩ := exists_nested settles wellFormed isScope
  rw [outer] at parent
  cases nested with
  | module => cases parent
  | inside visited form opens nested chain =>
      cases openers with
      | nil => cases parent
      | cons opener others =>
          obtain ⟨origin, isOrigin, settled, isSettled, received, node, around, found⟩ :=
            find_of_nested settles wellFormed nested
          have same : settled = scope := by
            apply List.inj_on_of_nodup_map (settled_keys_nodup settles wellFormed) isSettled member
            rw [received.key, Scope.key, node]
            exact Option.some.inj parent
          unfold Model.around scopesAround
          rw [outer, List.map_cons, List.filterMap_cons, found, same, ← same,
            received.outer, around]

include wellFormed in
/-- The environment that a scope inherits is what climbing outwards from it finds. -/
theorem Inherits.eq_lookupAround {scope : Scope} {inherited : Environment}
    (inherits : Inherits model scope inherited) :
    scope ∈ model.scopes ∧
      inherited = fun name => model.lookupAround name (model.around scope) := by
  induction inherits with
  | module =>
      refine ⟨moduleScope_mem settles, ?_⟩
      unfold Model.around scopesAround
      rw [(moduleScope_header settles wellFormed).2.2]
      rfl
  | inner _ isChild induction =>
      obtain ⟨member, same⟩ := induction
      refine ⟨(List.mem_filter.mp isChild).1, ?_⟩
      funext name
      rw [around_child settles wellFormed member isChild, lookupAround_cons, ← same]

include wellFormed in
theorem inherits_of_nested {openers : List Node} (nested : Nested tree openers) {scope : Scope}
    (member : scope ∈ model.scopes) (opened : openers.head? = some scope.node)
    (outer : scope.outer = openers.tail.map Node.id) :
    ∃ inherited, Inherits model scope inherited := by
  induction nested generalizing scope with
  | module =>
      have same : scope = model.moduleScope := by
        apply List.inj_on_of_nodup_map (settled_keys_nodup settles wellFormed) member
          (moduleScope_mem settles)
        rw [Scope.key, Scope.key, (moduleScope_header settles wellFormed).1,
          ← Option.some.inj opened]
      rw [same]
      exact ⟨_, .module⟩
  | @inside spot _ openers visited form opens nested chain induction =>
      cases openers with
      | nil => cases nested
      | cons opener others =>
          obtain ⟨origin, isOrigin, parent, isParent, received, node, around, found⟩ :=
            find_of_nested settles wellFormed nested
          have parentNode : parent.node = opener := received.node.trans node
          obtain ⟨inherited, inherits⟩ :=
            induction isParent (congrArg some parentNode.symm) (received.outer.trans around)
          have isChild : scope ∈ model.childrenOf parent := by
            apply List.mem_filter.mpr
            refine ⟨member, ?_⟩
            rw [decide_eq_true_eq, Scope.parentKey?, outer, Scope.key, parentNode]
            rfl
          exact ⟨_, .inner inherits isChild⟩

end

/-- Whether the meanings of an environment are built-in symbols and symbols of scopes that are not
class bodies. -/
def Shares (model : Model) (environment : Environment) : Prop :=
  ∀ name symbol, environment name = some symbol → symbol.kind = .builtin ∨
    ∃ owner ∈ model.scopes, owner.kind ≠ .classBody ∧ owner.symbol? name = some symbol

private theorem shares_builtins (model : Model) : model.Shares builtinSymbol? := by
  intro name symbol found
  unfold builtinSymbol? at found
  split at found
  · cases found
    exact Or.inl rfl
  · cases found

theorem Shares.overriddenBy {model : Model} {environment : Environment} {scope : Scope}
    (shares : model.Shares environment) (member : scope ∈ model.scopes)
    (kind : scope.kind ≠ .classBody) : model.Shares (environment.overriddenBy scope) := by
  intro name symbol found
  rcases Option.or_eq_some_iff.mp found with own | ⟨_, inherited⟩
  · exact Or.inr ⟨scope, member, kind, own⟩
  · exact shares name symbol inherited

section

variable {path : String} {tree : Node} {model : Model} (settles : model.Settles path tree)
  (wellFormed : tree.WellFormed)

include settles wellFormed

private theorem shares_moduleLevel : model.Shares model.moduleLevel := by
  apply (shares_builtins model).overriddenBy (moduleScope_mem settles)
  simp [(moduleScope_header settles wellFormed).2.1]

/-- No scope hands on the symbols of a class body. -/
theorem Shares.handedOn {inherited : Environment} {scope : Scope} (shares : model.Shares inherited)
    (member : scope ∈ model.scopes) : model.Shares (model.handedOn scope inherited) := by
  unfold Model.handedOn
  split
  · exact shares_moduleLevel settles wellFormed
  · exact shares
  all_goals
    rename_i kind
    have own := shares.overriddenBy member (by simp [kind])
    intro name symbol found
    simp only at found
    split at found
    · exact shares_moduleLevel settles wellFormed name symbol found
    · split at found
      · exact shares name symbol found
      · exact own name symbol found

theorem Inherits.shares {scope : Scope} {inherited : Environment}
    (inherits : Inherits model scope inherited) : model.Shares inherited := by
  induction inherits with
  | module => exact shares_builtins model
  | inner inherits _ induction =>
      exact induction.handedOn settles wellFormed (inherits.eq_lookupAround settles wellFormed).1

theorem owner_of_seenIn {scope : Scope} {inherited : Environment} {name : String} {symbol : Symbol}
    (shares : model.Shares inherited) (seen : model.seenIn scope inherited name = some symbol) :
    scope.symbol? name = some symbol ∨ symbol.kind = .builtin ∨
      ∃ owner ∈ model.scopes, owner.kind ≠ .classBody ∧ owner.symbol? name = some symbol := by
  unfold seenIn at seen
  split at seen
  · exact Or.inr (shares_moduleLevel settles wellFormed name symbol seen)
  · split at seen
    · exact Or.inr (shares name symbol seen)
    · rcases Option.or_eq_some_iff.mp seen with own | ⟨_, found⟩
      · exact Or.inl own
      · exact Or.inr (shares name symbol found)

end

/-- Looking a name up climbs to the meaning that the rule told inwards gives it; the symbols of a
class body are seen from the class body only. -/
theorem lookup_follows_environments {path : String} {tree : Node} {model : Model}
    (wellFormed : tree.WellFormed) (built : build path tree = .ok model) {scope : Scope}
    (member : scope ∈ model.scopes) :
    (∃! inherited, Inherits model scope inherited) ∧
      (∀ inherited, Inherits model scope inherited →
        ∀ name, model.lookup scope name = model.seenIn scope inherited name) ∧
      ∀ body ∈ model.scopes, body.kind = .classBody → scope ≠ body →
        ∀ name symbol, model.lookup scope name = some symbol →
          ∀ other, body.symbol? other ≠ some symbol := by
  have settles := settles_of_build built
  have follows : ∀ inherited, Inherits model scope inherited →
      ∀ name, model.lookup scope name = model.seenIn scope inherited name := by
    intro inherited inherits name
    rw [lookup_eq_seenIn, ← (inherits.eq_lookupAround settles wellFormed).2]
  obtain ⟨openers, nested, outer⟩ := exists_nested settles wellFormed member
  obtain ⟨inherited, inherits⟩ := inherits_of_nested settles wellFormed nested member rfl outer
  have only : ∀ other, Inherits model scope other → other = inherited := by
    intro other inheritsToo
    rw [(inheritsToo.eq_lookupAround settles wellFormed).2,
      (inherits.eq_lookupAround settles wellFormed).2]
  refine ⟨⟨inherited, inherits, only⟩, follows, ?_⟩
  intro body isBody kind different name symbol found other isOwn
  obtain ⟨_, scopeId, notBuiltin, _⟩ := bindingsOf_symbol settles isBody isOwn
  -- A symbol names its scope, and scopes have different names.
  have unique : ∀ owner ∈ model.scopes, owner.symbol? name = some symbol → owner = body := by
    intro owner isOwner owned
    apply List.inj_on_of_nodup_map (settled_ids_nodup settles) isOwner isBody
    rw [← (bindingsOf_symbol settles isOwner owned).2.1, scopeId]
  rw [follows inherited inherits] at found
  rcases owner_of_seenIn settles wellFormed (inherits.shares settles wellFormed) found with
    own | builtin | ⟨owner, isOwner, notBody, owned⟩
  · exact different (unique scope member own)
  · exact notBuiltin builtin
  · rw [unique owner isOwner owned] at notBody
    exact notBody kind

/-- A method in a class in a function; the function and the class both bind one name. -/
def methodModule : Node :=
  .mk .module ⟨0, .root, none⟩ [
    .mk (.functionDef false "f" none) ⟨1, .body, some ⟨⟨1, 0⟩, ⟨6, 20⟩⟩⟩ [
      .mk (.parameters []) ⟨2, .parameters, none⟩ [],
      .mk .assign ⟨3, .body, some ⟨⟨2, 4⟩, ⟨2, 9⟩⟩⟩ [
        .mk (.name "x" .store) ⟨4, .target, some ⟨⟨2, 4⟩, ⟨2, 5⟩⟩⟩ [],
        .mk (.constant .int "1") ⟨5, .value, some ⟨⟨2, 8⟩, ⟨2, 9⟩⟩⟩ []],
      .mk (.classDef "C") ⟨6, .body, some ⟨⟨3, 4⟩, ⟨6, 20⟩⟩⟩ [
        .mk .assign ⟨7, .body, some ⟨⟨4, 8⟩, ⟨4, 13⟩⟩⟩ [
          .mk (.name "x" .store) ⟨8, .target, some ⟨⟨4, 8⟩, ⟨4, 9⟩⟩⟩ [],
          .mk (.constant .int "2") ⟨9, .value, some ⟨⟨4, 12⟩, ⟨4, 13⟩⟩⟩ []],
        .mk (.functionDef false "m" none) ⟨10, .body, some ⟨⟨5, 8⟩, ⟨6, 20⟩⟩⟩ [
          .mk (.parameters []) ⟨11, .parameters, none⟩ [],
          .mk .returnStmt ⟨12, .body, some ⟨⟨6, 12⟩, ⟨6, 20⟩⟩⟩ [
            .mk (.name "x" .load) ⟨13, .value, some ⟨⟨6, 19⟩, ⟨6, 20⟩⟩⟩ []]]]]]

/-- The method sees the variable of the function, by the rule as by climbing, and no symbol of the
class. -/
theorem lookup_follows_environments_method :
    ∃ model, build "m.py" methodModule = .ok model ∧
      ∃ method ∈ model.scopes, ∃ body ∈ model.scopes, method.name = "m" ∧ body.name = "C" ∧
        ∃ inherited symbol, Inherits model method inherited ∧
          model.seenIn method inherited "x" = some symbol ∧ symbol.scopeId = "m.py::f" ∧
          ∀ other, body.symbol? other ≠ some symbol := by
  have checked : (build "m.py" methodModule).toOption.any (fun model =>
      (findScope? model.scopes 10).any
        (fun method => method.name = "m" && method.kind = .function &&
        (model.lookup method "x").any (fun symbol => symbol.scopeId = "m.py::f")) &&
      (findScope? model.scopes 6).any (fun body => body.name = "C" && body.kind = .classBody)) =
        true := by cbv
  obtain ⟨model, built, known⟩ := exists_of_check checked
  simp only [Bool.and_eq_true, Option.any_eq_true, decide_eq_true_eq] at known
  obtain ⟨⟨method, foundMethod, ⟨named, function⟩, symbol, looked, scopeId⟩, body, foundBody,
    bodyNamed, bodyKind⟩ := known
  have isMethod : method ∈ model.scopes := List.mem_of_find?_eq_some foundMethod
  have isBody : body ∈ model.scopes := List.mem_of_find?_eq_some foundBody
  have wellFormed : methodModule.WellFormed := ⟨by decide, by decide⟩
  obtain ⟨⟨inherited, inherits, _⟩, follows, hidden⟩ :=
    lookup_follows_environments wellFormed built isMethod
  have different : method ≠ body := by
    rintro rfl
    rw [function] at bodyKind
    cases bodyKind
  have seen := follows inherited inherits "x"
  rw [looked] at seen
  exact ⟨model, built, method, isMethod, body, isBody, named, bodyNamed, inherited, symbol,
    inherits, seen.symm, scopeId, hidden body isBody bodyKind different "x" symbol looked⟩

end Model

end SafeRefactor
