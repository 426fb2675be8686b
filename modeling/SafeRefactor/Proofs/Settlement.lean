import Mathlib.Data.List.Forall2
import SafeRefactor.Proofs.Recording

/-!
# Settling names in the scopes they belong to

Each deposit adds bindings to one name of one scope and makes the symbol of that name
anew.  After all deposits a scope holds the bindings it recorded itself followed by
those deposited with it, and each symbol is made of all bindings of its name.
-/

namespace SafeRefactor

/-- A list made by a function that can fail, member by member. -/
theorem forall₂_of_mapM {α β ε : Type} {make : α → Except ε β} {items : List α} {made : List β}
    (ok : items.mapM make = .ok made) :
    List.Forall₂ (fun item out => make item = .ok out) items made := by
  induction items generalizing made with
  | nil =>
      obtain rfl := Except.ok.inj ok
      exact .nil
  | cons item rest induction =>
      rw [List.mapM_cons] at ok
      cases first : make item with
      | error fault =>
          rw [first] at ok
          cases ok
      | ok out =>
          cases later : rest.mapM make with
          | error fault =>
              rw [first, later] at ok
              cases ok
          | ok outs =>
              rw [first, later] at ok
              obtain rfl := Except.ok.inj ok
              exact .cons first (induction later)

theorem exists_of_forall₂_left {α β : Type} {related : α → β → Prop} {left : List α}
    {right : List β}
    (all : List.Forall₂ related left right) {item : α} (member : item ∈ left) :
    ∃ other ∈ right, related item other := by
  induction all with
  | nil => cases member
  | cons first _ induction =>
      rcases List.mem_cons.mp member with rfl | later
      · exact ⟨_, List.mem_cons_self, first⟩
      · obtain ⟨other, isMember, holds⟩ := induction later
        exact ⟨other, List.mem_cons_of_mem _ isMember, holds⟩

theorem exists_of_forall₂_right {α β : Type} {related : α → β → Prop} {left : List α}
    {right : List β} (all : List.Forall₂ related left right) {other : β} (member : other ∈ right) :
    ∃ item ∈ left, related item other :=
  exists_of_forall₂_left (List.Forall₂.flip all) member

namespace Deposit

/-- The bindings that deposits add to a name of a scope. -/
def addedTo (owner : NodeId) (name : String) (deposits : List Deposit) : List Binding :=
  (deposits.filter (fun deposit => deposit.owner = owner ∧ deposit.name = name)).flatMap
    Deposit.bindings

theorem mem_addedTo {owner : NodeId} {name : String} {deposits : List Deposit} {binding : Binding} :
    binding ∈ addedTo owner name deposits ↔
      ∃ deposit ∈ deposits, deposit.owner = owner ∧ deposit.name = name ∧
        binding ∈ deposit.bindings := by
  simp [addedTo, and_assoc]

end Deposit

namespace Scope

/-- A symbol of the scope is made of all bindings of its name. -/
def Declares (scope : Scope) (name : String) (symbol : Symbol) : Prop :=
  ∃ setting : Setting, setting.scope.header = scope.header ∧ setting.scope.id = scope.id ∧
    setting.symbolOf name (scope.bindingsOf name) = .ok symbol

/-- What deposits make of a scope. -/
structure Received (deposits : List Deposit) (scope settled : Scope) : Prop where
  header : settled.header = scope.header
  id : settled.id = scope.id
  globals : settled.globals = scope.globals
  nonlocals : settled.nonlocals = scope.nonlocals
  bindings : ∀ name, settled.bindingsOf name =
    scope.bindingsOf name ++ Deposit.addedTo scope.key name deposits
  present : ∀ name, (settled.symbol? name).isSome ↔ (scope.symbol? name).isSome ∨
    ∃ deposit ∈ deposits, deposit.owner = scope.key ∧ deposit.name = name
  declares : (∀ name symbol, scope.symbol? name = some symbol → scope.Declares name symbol) →
    ∀ name symbol, settled.symbol? name = some symbol → settled.Declares name symbol
  distinct : scope.symbols.Distinct → settled.symbols.Distinct

theorem Received.key {deposits : List Deposit} {scope settled : Scope}
    (received : Received deposits scope settled) : settled.key = scope.key :=
  congrArg (fun header => header.node.id) received.header

theorem Received.kind {deposits : List Deposit} {scope settled : Scope}
    (received : Received deposits scope settled) : settled.kind = scope.kind :=
  congrArg Header.kind received.header

theorem Received.outer {deposits : List Deposit} {scope settled : Scope}
    (received : Received deposits scope settled) : settled.outer = scope.outer :=
  congrArg Header.outer received.header

theorem Received.node {deposits : List Deposit} {scope settled : Scope}
    (received : Received deposits scope settled) : settled.node = scope.node :=
  congrArg Header.node received.header

theorem Received.refl (scope : Scope) : Received [] scope scope := by
  refine ⟨rfl, rfl, rfl, rfl, ?_, ?_, fun declares => declares, fun distinct => distinct⟩
  · intro name
    simp [Deposit.addedTo]
  · intro name
    simp

theorem Received.trans {first later : List Deposit} {scope middle settled : Scope}
    (left : Received first scope middle) (right : Received later middle settled) :
    Received (first ++ later) scope settled := by
  refine ⟨right.header.trans left.header, right.id.trans left.id,
    right.globals.trans left.globals, right.nonlocals.trans left.nonlocals, ?_, ?_,
    fun declares => right.declares (left.declares declares),
    fun distinct => right.distinct (left.distinct distinct)⟩
  · intro name
    rw [right.bindings, left.bindings, left.key]
    simp [Deposit.addedTo]
  · intro name
    rw [right.present, left.present, left.key]
    simp only [List.mem_append, or_and_right, exists_or, or_assoc]

/-- One deposit is received by the scope that owns it and leaves all others alone. -/
theorem received_of_receive {classes : List String} {scopes : List Scope} {deposit : Deposit}
    {scope settled : Scope} (ok : scope.receive classes scopes deposit = .ok settled) :
    Received [deposit] scope settled := by
  unfold receive at ok
  split at ok
  · next same =>
      simp only at ok
      cases made : Setting.symbolOf ⟨scope, scope.parentKey?.bind (findScope? scopes), classes⟩
          deposit.name (scope.bindingsOf deposit.name ++ deposit.bindings) with
      | error fault =>
          rw [made] at ok
          cases ok
      | ok symbol =>
          rw [made] at ok
          obtain rfl := Except.ok.inj ok
          have bindings : ∀ name, Scope.bindingsOf { scope with
                bindings := scope.bindings.insert deposit.name
                  (scope.bindingsOf deposit.name ++ deposit.bindings)
                symbols := scope.symbols.insert deposit.name symbol } name =
              scope.bindingsOf name ++ Deposit.addedTo scope.key name [deposit] := by
            intro name
            by_cases named : deposit.name = name
            · simp [bindingsOf, Table.get?_insert, Deposit.addedTo, same, named]
            · simp [bindingsOf, Table.get?_insert, Deposit.addedTo, named]
          refine ⟨rfl, rfl, rfl, rfl, bindings, ?_, ?_, fun distinct => distinct.insert _ _⟩
          · intro name
            by_cases named : deposit.name = name
            · simp [symbol?, Table.get?_insert, named, same]
            · simp [symbol?, Table.get?_insert, named]
          · intro declares name found isFound
            by_cases named : deposit.name = name
            · subst named
              have equal : symbol = found := by
                simpa [symbol?, Table.get?_insert] using isFound
              subst equal
              have added : Deposit.addedTo scope.key deposit.name [deposit] = deposit.bindings := by
                simp [Deposit.addedTo, same]
              refine ⟨⟨scope, scope.parentKey?.bind (findScope? scopes), classes⟩, rfl, rfl, ?_⟩
              rw [bindings, added]
              exact made
            · have kept : scope.symbol? name = some found := by
                simpa [symbol?, Table.get?_insert, named] using isFound
              obtain ⟨setting, header, id, maker⟩ := declares name found kept
              refine ⟨setting, header, id, ?_⟩
              rw [bindings]
              simpa [Deposit.addedTo, named] using maker
  · next different =>
      obtain rfl := Except.ok.inj ok
      refine ⟨rfl, rfl, rfl, rfl, ?_, ?_, fun declares => declares, fun distinct => distinct⟩
      · intro name
        have other : ¬ deposit.owner = scope.key := fun equal => different equal.symm
        simp [Deposit.addedTo, other]
      · intro name
        have other : ¬ deposit.owner = scope.key := fun equal => different equal.symm
        simp [other]

theorem received_of_settle {classes : List String} {scopes settled : List Scope}
    {deposits : List Deposit} (ok : settle classes scopes deposits = .ok settled) :
    List.Forall₂ (Received deposits) scopes settled := by
  induction deposits generalizing scopes with
  | nil =>
      obtain rfl := Except.ok.inj ok
      exact List.forall₂_same.mpr (fun scope _ => .refl scope)
  | cons deposit rest induction =>
      unfold settle at ok
      cases step : scopes.mapM (receive classes scopes deposit) with
      | error fault =>
          rw [step] at ok
          cases ok
      | ok updated =>
          rw [step] at ok
          have first : List.Forall₂ (Received [deposit]) scopes updated :=
            (forall₂_of_mapM step).imp (fun _ _ received => received_of_receive received)
          have later := induction ok
          clear ok step induction
          induction first generalizing settled with
          | nil =>
              cases later
              exact .nil
          | cons received _ hypothesis =>
              cases later with
              | cons further others => exact .cons (received.trans further) (hypothesis others)

end Scope

namespace Binding

theorem mem_inOrder {bindings : List Binding} {binding : Binding} :
    binding ∈ inOrder bindings ↔ binding ∈ bindings :=
  List.mem_mergeSort

theorem start_le_of_inOrder {bindings rest : List Binding} {first : Binding}
    (ordered : inOrder bindings = first :: rest) :
    ∀ binding ∈ bindings, first.start ≤ binding.start := by
  have transitive : ∀ one two three : Binding, decide (one.start ≤ two.start) = true →
      decide (two.start ≤ three.start) = true → decide (one.start ≤ three.start) = true := by
    intro one two three
    simp only [decide_eq_true_eq, Position.le_iff]
    omega
  have total : ∀ one two : Binding,
      (decide (one.start ≤ two.start) || decide (two.start ≤ one.start)) = true := by
    intro one two
    simp only [Bool.or_eq_true, decide_eq_true_eq, Position.le_iff]
    omega
  have sorted := List.pairwise_mergeSort transitive total bindings
  intro binding member
  have listed : binding ∈ first :: rest := by
    rw [← ordered]
    exact mem_inOrder.mpr member
  rcases List.mem_cons.mp listed with rfl | later
  · rw [Position.le_iff]
    omega
  · have whole : inOrder bindings = first :: rest := ordered
    rw [inOrder] at whole
    rw [whole] at sorted
    simpa using List.rel_of_pairwise_cons sorted later

end Binding

namespace Setting

private theorem kindOf_ne_builtin (setting : Setting) (first : Node) :
    setting.kindOf first ≠ .builtin := by
  unfold kindOf
  split
  all_goals first
    | (split <;> exact SymbolKind.noConfusion)
    | exact SymbolKind.noConfusion

theorem name_of_symbolOf {setting : Setting} {name : String} {bindings : List Binding}
    {symbol : Symbol} (made : setting.symbolOf name bindings = .ok symbol) :
    symbol.name = name ∧ symbol.scopeId = setting.scope.id ∧ symbol.kind ≠ .builtin := by
  unfold symbolOf at made
  split at made
  · cases made
  · split at made
    · cases made
    · obtain rfl := Except.ok.inj made
      exact ⟨rfl, rfl, setting.kindOf_ne_builtin _⟩

theorem position_of_symbolOf {setting : Setting} {name : String} {bindings : List Binding}
    {symbol : Symbol} (made : setting.symbolOf name bindings = .ok symbol) :
    ∃ first ∈ bindings, first.start = ⟨symbol.line, symbol.column⟩ ∧
      ∀ binding ∈ bindings, first.start ≤ binding.start := by
  unfold symbolOf at made
  split at made
  · cases made
  · next first rest ordered =>
      have member : first ∈ bindings := by
        apply Binding.mem_inOrder.mp
        rw [ordered]
        exact List.mem_cons_self
      refine ⟨first, member, ?_, Binding.start_le_of_inOrder ordered⟩
      split at made
      · cases made
      · obtain rfl := Except.ok.inj made
        rfl

end Setting

end SafeRefactor
