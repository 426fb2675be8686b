import Mathlib.Data.List.Perm.Subperm
import SafeRefactor.Proofs.Opening
import Std.Data.String.ToNat

/-!
# What scopes record

Each scope that a module opens is recorded once, under a number and an identification
of its own.  It holds exactly the bindings and declarations that the events of the
module tell about it.
-/

namespace SafeRefactor

namespace Text

theorem firstFree_not_mem {taken : List String} {candidate : Nat → String}
    (different : Function.Injective candidate) : firstFree taken candidate ∉ taken := by
  have free : ∃ name ∈ (List.range (taken.length + 1)).map candidate, name ∉ taken := by
    by_contra none
    push Not at none
    have nodup : ((List.range (taken.length + 1)).map candidate).Nodup :=
      List.nodup_range.map different
    have bound := (nodup.subperm none).length_le
    simp only [List.length_map, List.length_range] at bound
    omega
  cases found : ((List.range (taken.length + 1)).map candidate).find?
      (fun name => !taken.contains name) with
  | none =>
      obtain ⟨name, member, notTaken⟩ := free
      have taken := List.find?_eq_none.mp found name member
      simp only [List.contains_eq_mem, Bool.not_eq_true, Bool.not_eq_false', decide_eq_true_eq]
        at taken
      exact absurd taken notTaken
  | some name =>
      have notTaken := List.find?_some found
      simp only [firstFree, found, Option.getD_some]
      simpa using notTaken

end Text

private theorem Scope.candidateId_injective (base : String) :
    Function.Injective (Scope.candidateId base) := by
  intro first second same
  unfold Scope.candidateId at same
  have numbered : ∀ number, base ≠ base ++ "#" ++ toString (number + 1) := by
    intro number equal
    have lengths := congrArg String.length equal
    have hash : "#".length = 1 := rfl
    simp only [String.length_append, hash] at lengths
    omega
  split at same
  · next zero =>
      split at same
      · next other => rw [zero, other]
      · exact absurd same (numbered second)
  · split at same
    · exact absurd same.symm (numbered first)
    · have tail := (String.append_right_inj _).mp same
      have next : first + 1 = second + 1 := Nat.repr_injective tail
      omega

namespace Table

/-- The keys of a table are different from each other. -/
def Distinct {α : Type} (table : Table α) : Prop :=
  table.keys.Nodup

theorem keys_store {α : Type} (key : String) (value : α) (entries : List (String × α)) :
    (store key value entries).map (·.1) =
      if key ∈ entries.map (·.1) then entries.map (·.1) else entries.map (·.1) ++ [key] := by
  induction entries with
  | nil => simp [store]
  | cons entry rest induction =>
      obtain ⟨other, old⟩ := entry
      by_cases same : other = key
      · simp [store, same]
      · have different : key ≠ other := fun equal => same equal.symm
        simp only [store, same, if_false, List.map_cons, induction, List.mem_cons, different,
          false_or]
        split <;> rfl

theorem Distinct.insert {α : Type} {table : Table α} (distinct : table.Distinct) (key : String)
    (value : α) : (table.insert key value).Distinct := by
  unfold Distinct keys Table.insert
  rw [keys_store]
  split
  · exact distinct
  · next absent =>
      apply List.Nodup.append distinct (List.nodup_singleton key)
      intro other present single
      rw [List.mem_singleton.mp single] at present
      exact absent present

theorem Distinct.mem_entries {α : Type} {table : Table α} (distinct : table.Distinct)
    {key : String} {value : α} :
    (key, value) ∈ table.entries ↔ table.get? key = some value := by
  obtain ⟨entries⟩ := table
  unfold Distinct keys at distinct
  unfold get?
  induction entries with
  | nil => simp [lookup]
  | cons entry rest induction =>
      obtain ⟨other, old⟩ := entry
      simp only [List.map_cons, List.nodup_cons] at distinct
      by_cases same : other = key
      · subst same
        have absent : (other, value) ∉ rest :=
          fun present => distinct.1 (List.mem_map.mpr ⟨_, present, rfl⟩)
        simp [lookup, absent, eq_comm]
      · have different : key ≠ other := fun equal => same equal.symm
        simp only [lookup, same, if_false, List.mem_cons, Prod.mk.injEq, different, false_and,
          false_or]
        exact induction distinct.2

theorem get?_insert {α : Type} (table : Table α) (key wanted : String) (value : α) :
    (table.insert key value).get? wanted =
      if key = wanted then some value else table.get? wanted := by
  split
  · next same =>
      subst same
      exact get?_insert_self table key value
  · next different => exact get?_insert_of_ne table different value

end Table

namespace Scope

/-- The part of a scope that is known when it opens. -/
structure Header where
  node : Node
  kind : ScopeKind
  name : String
  outer : List NodeId

def header (scope : Scope) : Header :=
  ⟨scope.node, scope.kind, scope.name, scope.outer⟩

/-- What an event tells about the scope it opens. -/
def opening? : Event → Option Header
  | .opens node kind name outer => some ⟨node, kind, name, outer⟩
  | _ => none

private theorem mem_openings {events : List Event} {header : Header} :
    header ∈ events.filterMap opening? ↔
      .opens header.node header.kind header.name header.outer ∈ events := by
  rw [List.mem_filterMap]
  constructor
  · rintro ⟨event, member, opening⟩
    cases event with
    | opens =>
        obtain rfl := Option.some.inj opening
        exact member
    | _ => cases opening
  · intro member
    exact ⟨_, member, rfl⟩

/-- A scope of which nothing was noted yet. -/
structure Blank (scope : Scope) : Prop where
  globals : scope.globals = []
  nonlocals : scope.nonlocals = []
  bindings : scope.bindings = {}
  symbols : scope.symbols = {}

/-- The scopes opened so far: one for each opening, each blank, with different identifications. -/
structure Opened (openings : List Header) (scopes : List Scope) : Prop where
  headers : scopes.map header = openings
  ids : (scopes.map Scope.id).Nodup
  blank : ∀ scope ∈ scopes, scope.Blank

theorem Opened.next (path : String) {openings : List Header} {scopes : List Scope}
    (opened : Opened openings scopes) (event : Event) :
    Opened (openings ++ (opening? event).toList) (openNext path scopes event) := by
  cases event with
  | opens node kind name outer =>
      refine ⟨?_, ?_, ?_⟩
      · simp [openNext, opening?, opened.headers, header]
      · simp only [openNext, List.map_append, List.map_cons, List.map_nil]
        apply List.Nodup.append opened.ids (List.nodup_singleton _)
        intro id present single
        rw [List.mem_singleton.mp single] at present
        exact Text.firstFree_not_mem (candidateId_injective _) present
      · intro scope member
        rcases List.mem_append.mp member with earlier | last
        · exact opened.blank scope earlier
        · rw [List.mem_singleton.mp last]
          exact ⟨rfl, rfl, rfl, rfl⟩
  | _ => simpa [openNext, opening?] using opened

theorem opened_foldl (path : String) (events : List Event) {openings : List Header}
    {scopes : List Scope} (opened : Opened openings scopes) :
    Opened (openings ++ events.filterMap opening?) (events.foldl (openNext path) scopes) := by
  induction events generalizing openings scopes with
  | nil => simpa using opened
  | cons event rest induction =>
      have all := induction (opened.next path event)
      have same : openings ++ (event :: rest).filterMap opening? =
          openings ++ (opening? event).toList ++ rest.filterMap opening? := by
        cases opening : opening? event <;> simp [opening]
      rw [same]
      exact all

@[simp]
theorem header_note (scope : Scope) (event : Event) : (scope.note event).header = scope.header := by
  cases event <;> simp only [note] <;> split <;> rfl

@[simp]
theorem key_note (scope : Scope) (event : Event) : (scope.note event).key = scope.key :=
  congrArg (fun header => header.node.id) (header_note scope event)

@[simp]
theorem id_note (scope : Scope) (event : Event) : (scope.note event).id = scope.id := by
  cases event <;> simp only [note] <;> split <;> rfl

@[simp]
theorem symbols_note (scope : Scope) (event : Event) :
    (scope.note event).symbols = scope.symbols := by
  cases event <;> simp only [note] <;> split <;> rfl

end Scope

namespace Event

/-- The binding of a name in a scope that an event tells. -/
def boundIn (scope : NodeId) (name : String) : Event → List Binding
  | .binds owner other binding => if owner = scope ∧ other = name then [binding] else []
  | _ => []

def globalsIn (scope : NodeId) : Event → List String
  | .declaresGlobal owner names => if owner = scope then names else []
  | _ => []

def nonlocalsIn (scope : NodeId) : Event → List String
  | .declaresNonlocal owner names => if owner = scope then names else []
  | _ => []

end Event

namespace Scope

private theorem bindingsOf_note (scope : Scope) (event : Event) (name : String) :
    (scope.note event).bindingsOf name =
      scope.bindingsOf name ++ event.boundIn scope.key name := by
  cases event with
  | binds owner other binding =>
      by_cases same : owner = scope.key
      · by_cases named : other = name
        · simp [note, Event.boundIn, bindingsOf, Table.extend, Table.get?_insert, same, named]
        · simp [note, Event.boundIn, bindingsOf, Table.extend, Table.get?_insert, same, named]
      · simp [note, Event.boundIn, same]
  | _ => simp only [note, Event.boundIn, List.append_nil] <;> split <;> rfl

private theorem globals_note (scope : Scope) (event : Event) :
    (scope.note event).globals = scope.globals ++ event.globalsIn scope.key := by
  cases event <;> simp only [note, Event.globalsIn, List.append_nil] <;> split <;> simp

private theorem nonlocals_note (scope : Scope) (event : Event) :
    (scope.note event).nonlocals = scope.nonlocals ++ event.nonlocalsIn scope.key := by
  cases event <;> simp only [note, Event.nonlocalsIn, List.append_nil] <;> split <;> simp

/-- The names in the table of bindings are different, and each has a binding. -/
structure Tidy (bindings : Table (List Binding)) : Prop where
  distinct : bindings.Distinct
  nonempty : ∀ name found, bindings.get? name = some found → found ≠ []

theorem Tidy.note {scope : Scope} (tidy : Tidy scope.bindings) (event : Event) :
    Tidy (scope.note event).bindings := by
  cases event with
  | binds owner name binding =>
      simp only [Scope.note]
      split
      · refine ⟨tidy.distinct.insert _ _, ?_⟩
        intro other found same
        simp only [Table.extend, Table.get?_insert] at same
        split at same
        · obtain rfl := Option.some.inj same
          simp
        · exact tidy.nonempty other found same
      · exact tidy
  | declaresGlobal | declaresNonlocal =>
      simp only [Scope.note]
      split
      · exact tidy
      · exact tidy
  | opens | places => exact tidy

/-- What the events tell of a scope that was blank. -/
structure Noted (events : List Event) (blank scope : Scope) : Prop where
  header : scope.header = blank.header
  id : scope.id = blank.id
  symbols : scope.symbols = {}
  tidy : Tidy scope.bindings
  bindings : ∀ name, scope.bindingsOf name = events.flatMap (Event.boundIn blank.key name)
  globals : scope.globals = events.flatMap (Event.globalsIn blank.key)
  nonlocals : scope.nonlocals = events.flatMap (Event.nonlocalsIn blank.key)

theorem Noted.next {events : List Event} {blank scope : Scope} (noted : Noted events blank scope)
    (event : Event) : Noted (events ++ [event]) blank (scope.note event) := by
  have key : scope.key = blank.key := congrArg (fun header => header.node.id) noted.header
  refine ⟨?_, ?_, ?_, noted.tidy.note event, ?_, ?_, ?_⟩
  · rw [header_note, noted.header]
  · rw [id_note, noted.id]
  · rw [symbols_note, noted.symbols]
  · intro name
    rw [bindingsOf_note, noted.bindings, key, List.flatMap_append, List.flatMap_singleton]
  · rw [globals_note, noted.globals, key, List.flatMap_append, List.flatMap_singleton]
  · rw [nonlocals_note, noted.nonlocals, key, List.flatMap_append, List.flatMap_singleton]

theorem Blank.noted {blank : Scope} (isBlank : blank.Blank) : Noted [] blank blank := by
  refine ⟨rfl, rfl, isBlank.symbols, ?_, ?_, isBlank.globals, isBlank.nonlocals⟩
  · rw [isBlank.bindings]
    exact ⟨List.nodup_nil, nofun⟩
  · intro name
    rw [bindingsOf, isBlank.bindings]
    rfl

theorem noted_foldl (events : List Event) {earlier : List Event} {blank scope : Scope}
    (noted : Noted earlier blank scope) :
    Noted (earlier ++ events) blank (events.foldl note scope) := by
  induction events generalizing earlier scope with
  | nil => simpa using noted
  | cons event rest induction => simpa using induction (noted.next event)

/-- The scope records what the events tell of it and has no symbols yet. -/
structure Records (events : List Event) (scope : Scope) : Prop where
  opens : .opens scope.node scope.kind scope.name scope.outer ∈ events
  symbols : scope.symbols = {}
  tidy : Tidy scope.bindings
  bindings : ∀ name binding,
    binding ∈ scope.bindingsOf name ↔ .binds scope.key name binding ∈ events
  globals : ∀ name, name ∈ scope.globals ↔
    ∃ names, .declaresGlobal scope.key names ∈ events ∧ name ∈ names
  nonlocals : ∀ name, name ∈ scope.nonlocals ↔
    ∃ names, .declaresNonlocal scope.key names ∈ events ∧ name ∈ names

theorem Noted.records {events : List Event} {blank scope : Scope}
    (noted : Noted events blank scope)
    (opens : .opens scope.node scope.kind scope.name scope.outer ∈ events) :
    Records events scope := by
  have key : scope.key = blank.key := congrArg (fun header => header.node.id) noted.header
  refine ⟨opens, noted.symbols, noted.tidy, ?_, ?_, ?_⟩
  · intro name binding
    rw [noted.bindings, ← key, List.mem_flatMap]
    constructor
    · rintro ⟨event, member, told⟩
      cases event with
      | binds owner other found =>
          simp only [Event.boundIn] at told
          split at told
          · next same =>
              obtain ⟨rfl, rfl⟩ := same
              obtain rfl := List.mem_singleton.mp told
              exact member
          · cases told
      | _ => cases told
    · intro member
      exact ⟨_, member, by simp [Event.boundIn]⟩
  · intro name
    rw [noted.globals, ← key, List.mem_flatMap]
    constructor
    · rintro ⟨event, member, told⟩
      cases event with
      | declaresGlobal owner names =>
          simp only [Event.globalsIn] at told
          split at told
          · next same =>
              subst same
              exact ⟨names, member, told⟩
          · cases told
      | _ => cases told
    · rintro ⟨names, member, told⟩
      exact ⟨_, member, by simpa [Event.globalsIn] using told⟩
  · intro name
    rw [noted.nonlocals, ← key, List.mem_flatMap]
    constructor
    · rintro ⟨event, member, told⟩
      cases event with
      | declaresNonlocal owner names =>
          simp only [Event.nonlocalsIn] at told
          split at told
          · next same =>
              subst same
              exact ⟨names, member, told⟩
          · cases told
      | _ => cases told
    · rintro ⟨names, member, told⟩
      exact ⟨_, member, by simpa [Event.nonlocalsIn] using told⟩

theorem contains_iff {events : List Event} {scope : Scope} (records : Records events scope)
    (name : String) :
    scope.bindings.contains name = true ↔ ∃ binding, binding ∈ scope.bindingsOf name := by
  unfold Table.contains bindingsOf
  cases found : scope.bindings.get? name with
  | none => simp
  | some bindings =>
      have some := List.exists_mem_of_ne_nil bindings (records.tidy.nonempty name bindings found)
      simpa using some

/-- One scope for each opening, with different identifications, recording what the events tell. -/
structure Recorded (events : List Event) (scopes : List Scope) : Prop where
  headers : scopes.map header = events.filterMap opening?
  ids : (scopes.map Scope.id).Nodup
  records : ∀ scope ∈ scopes, Records events scope

theorem recorded_ofEvents (path : String) (events : List Event) :
    Recorded events (ofEvents path events) := by
  have start : Opened [] [] := ⟨rfl, List.nodup_nil, nofun⟩
  have opened := opened_foldl path events start
  have noted : ∀ blank ∈ events.foldl (openNext path) [],
      Noted events blank (events.foldl note blank) := by
    intro blank member
    exact noted_foldl events (opened.blank blank member).noted
  have headers : (ofEvents path events).map header = events.filterMap opening? := by
    have same : (ofEvents path events).map header =
        (events.foldl (openNext path) []).map header := by
      rw [ofEvents, List.map_map]
      exact List.map_congr_left (fun blank member => (noted blank member).header)
    rw [same, opened.headers, List.nil_append]
  refine ⟨headers, ?_, ?_⟩
  · have same : (ofEvents path events).map Scope.id =
        (events.foldl (openNext path) []).map Scope.id := by
      rw [ofEvents, List.map_map]
      exact List.map_congr_left (fun blank member => (noted blank member).id)
    rw [same]
    exact opened.ids
  · intro scope member
    have listed : scope.header ∈ events.filterMap opening? := by
      rw [← headers]
      exact List.mem_map_of_mem member
    obtain ⟨blank, isBlank, rfl⟩ := List.mem_map.mp member
    exact (noted blank isBlank).records (mem_openings.mp listed)

theorem count_openings (events : List Event) (wanted : NodeId) :
    ((events.filterMap opening?).map (fun header => header.node.id)).count wanted =
      Event.openings wanted events := by
  induction events with
  | nil => rfl
  | cons event rest induction =>
      cases event with
      | opens node kind name outer =>
          have first : (Event.opens node kind name outer :: rest).filterMap opening? =
              ⟨node, kind, name, outer⟩ :: rest.filterMap opening? := rfl
          rw [first, List.map_cons, List.count_cons, induction, Event.openings_opens]
          simp [Node.hit, Nat.add_comm]
      | _ =>
          rw [List.filterMap_cons_none (by rfl), induction]
          rfl

theorem Recorded.keys_nodup {tree : Node} {scopes : List Scope}
    (recorded : Recorded (Event.ofModule tree) scopes) (distinct : tree.Distinct) :
    (scopes.map Scope.key).Nodup := by
  have keys : scopes.map Scope.key =
      ((Event.ofModule tree).filterMap opening?).map (fun header => header.node.id) := by
    rw [← recorded.headers, List.map_map]
    rfl
  rw [keys, List.nodup_iff_count_le_one]
  intro wanted
  rw [count_openings]
  exact Event.openings_ofModule distinct wanted

/-- The module is recorded first. -/
theorem Recorded.head {tree : Node} {scopes : List Scope}
    (recorded : Recorded (Event.ofModule tree) scopes) :
    ∃ first rest, scopes = first :: rest ∧ first.node = tree ∧ first.kind = .module ∧
      first.outer = [] := by
  have headers := recorded.headers
  cases scopes with
  | nil => cases headers
  | cons first rest =>
      have same : first.header = ⟨tree, .module, "<module>", []⟩ := (List.cons.inj headers).1
      exact ⟨first, rest, rfl, congrArg Header.node same, congrArg Header.kind same,
        congrArg Header.outer same⟩

theorem Recorded.exists_of_opens {events : List Event} {scopes : List Scope}
    (recorded : Recorded events scopes) {node : Node} {kind : ScopeKind} {name : String}
    {outer : List NodeId} (opens : .opens node kind name outer ∈ events) :
    ∃ scope ∈ scopes, scope.header = ⟨node, kind, name, outer⟩ := by
  have listed : (⟨node, kind, name, outer⟩ : Header) ∈ scopes.map header := by
    rw [recorded.headers]
    exact mem_openings.mpr opens
  obtain ⟨scope, member, same⟩ := List.mem_map.mp listed
  exact ⟨scope, member, same⟩

end Scope

theorem findScope?_eq_some {scopes : List Scope} (distinct : (scopes.map Scope.key).Nodup)
    {key : NodeId} {scope : Scope} :
    findScope? scopes key = some scope ↔ scope ∈ scopes ∧ scope.key = key := by
  constructor
  · intro found
    have same := List.find?_some found
    simp only [decide_eq_true_eq] at same
    exact ⟨List.mem_of_find?_eq_some found, same⟩
  · rintro ⟨member, rfl⟩
    cases found : findScope? scopes scope.key with
    | none =>
        have other := List.find?_eq_none.mp found scope member
        simp at other
    | some other =>
        have same := List.find?_some found
        simp only [decide_eq_true_eq] at same
        rw [List.inj_on_of_nodup_map distinct (List.mem_of_find?_eq_some found) member same]

end SafeRefactor
