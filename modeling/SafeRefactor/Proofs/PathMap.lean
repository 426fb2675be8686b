import Mathlib.Data.Finset.Card
import SafeRefactor.Proofs.InsertionOrder

/-!
# Snapshots as maps from paths

A snapshot answers as the run of stores that made it: a path has the unit that was stored there
last.  The order in which the paths were stored first is hidden in the snapshot, and it tells
which of several units stands for a module.
-/

namespace SafeRefactor

namespace Table

private theorem store_of_absent {α : Type} {key : String} {value : α} {entries : List (String × α)}
    (absent : key ∉ entries.map (·.1)) : store key value entries = entries ++ [(key, value)] := by
  induction entries with
  | nil => rfl
  | cons entry rest induction =>
      obtain ⟨other, old⟩ := entry
      rw [List.map_cons, List.mem_cons, not_or] at absent
      have different : other ≠ key := fun same => absent.1 same.symm
      rw [store, if_neg different, induction absent.2, List.cons_append]

end Table

/-- Of the items that pass a test, the last is the one that comes latest. -/
theorem getLast?_filter_eq_some_iff {α : Type} {rank : α → Nat} {items : List α}
    (ordered : items.Pairwise (fun one other => rank one < rank other)) {test : α → Bool}
    {item : α} :
    (items.filter test).getLast? = some item ↔
      (item ∈ items ∧ test item = true) ∧
        ∀ other ∈ items, test other = true → rank other ≤ rank item := by
  have keptOrder := ordered.filter test
  constructor
  · intro isLast
    obtain ⟨front, whole⟩ := List.getLast?_eq_some_iff.mp isLast
    refine ⟨List.mem_filter.mp (List.mem_of_getLast? isLast), ?_⟩
    intro other isThere passes
    have kept := List.mem_filter.mpr ⟨isThere, passes⟩
    rw [whole] at kept keptOrder
    rcases List.mem_append.mp kept with earlier | same
    · exact Nat.le_of_lt
        ((List.pairwise_append.mp keptOrder).2.2 other earlier item (List.mem_singleton_self item))
    · rw [List.mem_singleton.mp same]
  · intro ⟨isItem, latest⟩
    have kept := List.mem_filter.mpr isItem
    obtain ⟨last, isLast⟩ := Option.isSome_iff_exists.mp
      (List.getLast?_isSome.mpr (List.ne_nil_of_mem kept))
    obtain ⟨front, whole⟩ := List.getLast?_eq_some_iff.mp isLast
    have lastKept := List.mem_filter.mp (List.mem_of_getLast? isLast)
    rw [whole] at kept keptOrder
    rcases List.mem_append.mp kept with earlier | same
    · have before :=
        (List.pairwise_append.mp keptOrder).2.2 item earlier last (List.mem_singleton_self last)
      exact absurd (latest last lastKept.1 lastKept.2) (Nat.not_le_of_lt before)
    · rw [isLast, List.mem_singleton.mp same]

namespace Snapshot

/-- The unit that a run of stores leaves at a path. -/
def latest? (stored : List SourceUnit) (path : String) : Option SourceUnit :=
  stored.reverse.find? (fun unit => unit.path = path)

/-- When a run of stores comes to a path for the first time. -/
def firstStored (stored : List SourceUnit) (path : String) : Nat :=
  (stored.map SourceUnit.path).idxOf path

section

variable {stored : List SourceUnit}

private theorem latest?_concat (unit : SourceUnit) (path : String) :
    latest? (stored ++ [unit]) path =
      if unit.path = path then some unit else latest? stored path := by
  unfold latest?
  rw [List.reverse_append, List.reverse_singleton, List.singleton_append, List.find?_cons]
  by_cases same : unit.path = path <;> simp [same]

private theorem path_of_latest? {path : String} {unit : SourceUnit}
    (found : latest? stored path = some unit) : unit ∈ stored ∧ unit.path = path := by
  have member := List.mem_of_find?_eq_some found
  have named := List.find?_some found
  exact ⟨List.mem_reverse.mp member, of_decide_eq_true named⟩

theorem isSome_latest? {path : String} :
    (latest? stored path).isSome = true ↔ ∃ unit ∈ stored, unit.path = path := by
  simp [latest?]

end

/-- A snapshot holds what a run of stores left, in the order in which its paths came up. -/
structure Keeps (snapshot : Snapshot) (stored : List SourceUnit) : Prop where
  latest : ∀ path, snapshot.get? path = latest? stored path
  order : snapshot.table.keys.Pairwise
    (fun one other => firstStored stored one < firstStored stored other)

namespace Keeps

variable {snapshot : Snapshot} {stored : List SourceUnit}

theorem initial : empty.Keeps [] where
  latest _ := rfl
  order := List.Pairwise.nil

theorem mem_keys (keeps : snapshot.Keeps stored) {path : String} :
    path ∈ snapshot.table.keys ↔ ∃ unit ∈ stored, unit.path = path := by
  rw [Table.mem_keys, ← isSome_latest?, ← keeps.latest path]
  exact Iff.rfl

theorem distinct (keeps : snapshot.Keeps stored) : snapshot.table.Distinct := by
  apply keeps.order.imp
  intro one other earlier same
  rw [same] at earlier
  exact Nat.lt_irrefl _ earlier

/-- Storing a unit continues the run. -/
theorem withUnit (keeps : snapshot.Keeps stored) (unit : SourceUnit) :
    (snapshot.withUnit unit).Keeps (stored ++ [unit]) where
  latest := by
    intro path
    rw [latest?_concat, ← keeps.latest path]
    exact Table.get?_insert snapshot.table unit.path path unit
  order := by
    -- The paths that are there keep their places in the run, and a new one comes after them.
    have known : ∀ path ∈ snapshot.table.keys,
        firstStored (stored ++ [unit]) path = firstStored stored path ∧
          firstStored stored path < stored.length := by
      intro path listed
      have isThere : path ∈ stored.map SourceUnit.path :=
        List.mem_map.mpr (keeps.mem_keys.mp listed)
      unfold firstStored
      rw [List.map_append, List.idxOf_append_of_mem isThere]
      exact ⟨rfl, by simpa using List.idxOf_lt_length_of_mem isThere⟩
    have kept : snapshot.table.keys.Pairwise (fun one other =>
        firstStored (stored ++ [unit]) one < firstStored (stored ++ [unit]) other) := by
      apply keeps.order.imp_of_mem
      intro one other isOne isOther earlier
      rw [(known one isOne).1, (known other isOther).1]
      exact earlier
    have keys : (snapshot.withUnit unit).table.keys =
        if unit.path ∈ snapshot.table.keys then snapshot.table.keys
        else snapshot.table.keys ++ [unit.path] :=
      Table.keys_store _ _ _
    rw [keys]
    split
    · exact kept
    · next absent =>
        apply List.pairwise_append.mpr
        refine ⟨kept, List.pairwise_singleton _ _, ?_⟩
        intro path listed other single
        obtain rfl := List.mem_singleton.mp single
        have missing : unit.path ∉ stored.map SourceUnit.path := by
          intro isThere
          exact absent (keeps.mem_keys.mpr (List.mem_map.mp isThere))
        have last : stored.length ≤ firstStored (stored ++ [unit]) unit.path := by
          unfold firstStored
          rw [List.map_append, List.idxOf_append_of_notMem missing, List.length_map]
          exact Nat.le_add_right _ _
        rw [(known path listed).1]
        exact Nat.lt_of_lt_of_le (known path listed).2 last

theorem foldl (keeps : snapshot.Keeps stored) (updates : List SourceUnit) :
    (updates.foldl Snapshot.withUnit snapshot).Keeps (stored ++ updates) := by
  induction updates generalizing snapshot stored with
  | nil =>
      rw [List.append_nil]
      exact keeps
  | cons unit rest induction =>
      rw [List.foldl_cons, List.append_cons]
      exact induction (keeps.withUnit unit)

theorem order_values (keeps : snapshot.Keeps stored) :
    snapshot.table.values.Pairwise
      (fun one other => firstStored stored one.path < firstStored stored other.path) := by
  have keyed : snapshot.table.values.map SourceUnit.path = snapshot.table.keys := by
    unfold Table.values Table.keys
    rw [List.map_map]
    apply List.map_congr_left
    intro entry isEntry
    exact snapshot.keyed (keeps.distinct.mem_entries.mp isEntry)
  have order := keeps.order
  rw [← keyed, List.pairwise_map] at order
  exact order

theorem mem_values (keeps : snapshot.Keeps stored) {unit : SourceUnit} :
    unit ∈ snapshot.table.values ↔ latest? stored unit.path = some unit := by
  rw [Snapshot.mem_values keeps.distinct, keeps.latest]

end Keeps

/-- A snapshot answers as a run of stores says. -/
structure Refines (snapshot : Snapshot) (stored : List SourceUnit) : Prop where
  unit_eq : ∀ path, snapshot.get? path = latest? stored path
  increasing : snapshot.paths.Pairwise (· < ·)
  mem_paths : ∀ path, path ∈ snapshot.paths ↔ ∃ unit ∈ stored, unit.path = path
  units_eq : snapshot.units.map some = snapshot.paths.map (latest? stored)
  size_eq : snapshot.size = (stored.map SourceUnit.path).toFinset.card
  module_none : ∀ name, snapshot.moduleUnit? name = none ↔
    ∀ unit ∈ stored, moduleName unit.path ≠ name
  module_some : ∀ name unit, snapshot.moduleUnit? name = some unit ↔
    (latest? stored unit.path = some unit ∧ moduleName unit.path = name) ∧
      ∀ other ∈ stored, moduleName other.path = name →
        firstStored stored other.path ≤ firstStored stored unit.path

namespace Keeps

variable {snapshot : Snapshot} {stored : List SourceUnit}

theorem mem_paths (keeps : snapshot.Keeps stored) {path : String} :
    path ∈ snapshot.paths ↔ ∃ unit ∈ stored, unit.path = path := by
  rw [paths, Text.mem_sortedNames, keeps.mem_keys]

theorem units_eq (keeps : snapshot.Keeps stored) :
    snapshot.units.map some = snapshot.paths.map (latest? stored) := by
  have found : ∀ path ∈ snapshot.paths, (snapshot.get? path).isSome = true := by
    intro path listed
    rw [keeps.latest, isSome_latest?]
    exact keeps.mem_paths.mp listed
  rw [← funext keeps.latest, units]
  generalize snapshot.paths = paths at found
  induction paths with
  | nil => rfl
  | cons path rest induction =>
      obtain ⟨here, later⟩ := List.forall_mem_cons.mp found
      obtain ⟨unit, stored⟩ := Option.isSome_iff_exists.mp here
      rw [List.filterMap_cons_some stored, List.map_cons, List.map_cons, stored, induction later]

theorem size_eq (keeps : snapshot.Keeps stored) :
    snapshot.size = (stored.map SourceUnit.path).toFinset.card := by
  have same : snapshot.table.keys.toFinset = (stored.map SourceUnit.path).toFinset := by
    ext path
    rw [List.mem_toFinset, List.mem_toFinset, keeps.mem_keys, List.mem_map]
  calc
    snapshot.size = snapshot.table.keys.length := (List.length_map _).symm
    _ = snapshot.table.keys.toFinset.card := (List.toFinset_card_of_nodup keeps.distinct).symm
    _ = (stored.map SourceUnit.path).toFinset.card := by rw [same]

private theorem module_some (keeps : snapshot.Keeps stored) (name : String) (unit : SourceUnit) :
    snapshot.moduleUnit? name = some unit ↔
      (latest? stored unit.path = some unit ∧ moduleName unit.path = name) ∧
        ∀ other ∈ stored, moduleName other.path = name →
          firstStored stored other.path ≤ firstStored stored unit.path := by
  rw [moduleUnit?, getLast?_filter_eq_some_iff keeps.order_values, keeps.mem_values,
    decide_eq_true_eq]
  apply and_congr_right
  intro _
  -- A path counts with the unit that is there now, whichever unit was stored there.
  constructor
  · intro latest other isStored named
    obtain ⟨current, found⟩ := Option.isSome_iff_exists.mp
      (isSome_latest?.mpr ⟨other, isStored, rfl⟩)
    obtain ⟨_, samePath⟩ := path_of_latest? found
    rw [← samePath] at found named ⊢
    exact latest current (keeps.mem_values.mpr found) (decide_eq_true named)
  · intro latest other listed named
    obtain ⟨isStored, _⟩ := path_of_latest? (keeps.mem_values.mp listed)
    exact latest other isStored (of_decide_eq_true named)

private theorem module_none (keeps : snapshot.Keeps stored) (name : String) :
    snapshot.moduleUnit? name = none ↔ ∀ unit ∈ stored, moduleName unit.path ≠ name := by
  rw [← not_iff_not, ← ne_eq, Option.ne_none_iff_isSome, isSome_moduleUnit? keeps.distinct]
  constructor
  · intro ⟨unit, found, named⟩ absent
    rw [keeps.latest] at found
    exact absent unit (path_of_latest? found).1 named
  · intro present
    obtain ⟨unit, isStored, named⟩ : ∃ unit ∈ stored, moduleName unit.path = name := by
      simpa using present
    obtain ⟨current, found⟩ := Option.isSome_iff_exists.mp
      (isSome_latest?.mpr ⟨unit, isStored, rfl⟩)
    obtain ⟨_, samePath⟩ := path_of_latest? found
    rw [← samePath] at found named
    exact ⟨current, (keeps.latest _).trans found, named⟩

theorem refines (keeps : snapshot.Keeps stored) : snapshot.Refines stored where
  unit_eq := keeps.latest
  increasing := Text.pairwise_sortedNames _
  mem_paths _ := keeps.mem_paths
  units_eq := keeps.units_eq
  size_eq := keeps.size_eq
  module_none := keeps.module_none
  module_some := keeps.module_some

end Keeps

theorem values_foldl {units : List SourceUnit} {snapshot : Snapshot}
    (apart : (snapshot.table.keys ++ units.map SourceUnit.path).Nodup) :
    (units.foldl withUnit snapshot).table.values = snapshot.table.values ++ units := by
  induction units generalizing snapshot with
  | nil => exact (List.append_nil _).symm
  | cons unit rest induction =>
      have absent : unit.path ∉ snapshot.table.keys := by
        intro listed
        exact (List.nodup_append.mp apart).2.2 _ listed _ List.mem_cons_self rfl
      have entries : (snapshot.withUnit unit).table.entries =
          snapshot.table.entries ++ [(unit.path, unit)] :=
        Table.store_of_absent absent
      have keys : (snapshot.withUnit unit).table.keys = snapshot.table.keys ++ [unit.path] := by
        rw [Table.keys, entries, List.map_append]
        rfl
      have values : (snapshot.withUnit unit).table.values = snapshot.table.values ++ [unit] := by
        rw [Table.values, entries, List.map_append]
        rfl
      rw [List.foldl_cons, induction, values, List.append_assoc, List.singleton_append]
      rw [keys, List.append_assoc, List.singleton_append, ← List.map_cons]
      exact apart

/-- A program is made by storing its units at their paths with slashes. -/
theorem ofProgram_eq {sources : List SourceUnit} (apart : (sources.map SourceUnit.path).Nodup) :
    ofProgram sources = ofUnits (sources.map slashed) := by
  have kept : (ofUnits sources).table.values = sources := values_foldl apart
  rw [ofProgram, kept]

/-- A program that was built from sources and updated any number of times is the map that its run
of stores describes: at each path the unit stored there last, for each module the path that came up
last. -/
theorem updates_refine (sources updates : List SourceUnit)
    (apart : (sources.map SourceUnit.path).Nodup) :
    (updates.foldl withUnit (ofProgram sources)).Refines (sources.map slashed ++ updates) := by
  rw [ofProgram_eq apart]
  exact ((Keeps.initial.foldl (sources.map slashed)).foldl updates).refines

/-- Two files with one path as written with slashes, and a package of the same module name. -/
def overlappingSources : List SourceUnit :=
  [assigningUnit "p\\m.py" "x", assigningUnit "p/m.py" "y", assigningUnit "p/m/__init__.py" "z"]

/-- The package came up last, so it stands for the module even after the file is stored again. -/
theorem updates_refine_overlapping :
    (overlappingSources.map SourceUnit.path).Nodup ∧
      ([assigningUnit "p/m.py" "w"].foldl withUnit
        (ofProgram overlappingSources)).moduleUnit? "p.m" =
        some (assigningUnit "p/m/__init__.py" "z") := by
  have apart : (overlappingSources.map SourceUnit.path).Nodup := by decide
  refine ⟨apart, ?_⟩
  apply ((updates_refine overlappingSources [assigningUnit "p/m.py" "w"] apart).module_some _ _).mpr
  exact ⟨⟨rfl, by decide⟩, by decide⟩

end Snapshot

end SafeRefactor
