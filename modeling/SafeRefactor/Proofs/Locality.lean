import SafeRefactor.Proofs.Acceptance
import SafeRefactor.Proofs.Recording

/-!
# Edits are felt locally

An edit of one unit changes the table of modules at one module name only, and of the
searches for findings only the one for missing names looks at other units.  So an error
that an edit adds is found in the edited unit, or it is a name missing from its module,
and whatever else was found in another unit is found again, in the same order.
-/

namespace SafeRefactor

section Sorting

variable {α : Type} {le : α → α → Bool}

/-- A list falls in one way into a part where a test holds and a part where it fails. -/
theorem append_split_unique {test : α → Bool} {front back left right : List α}
    (same : front ++ back = left ++ right)
    (holds : ∀ item ∈ front, test item = true) (fails : ∀ item ∈ back, test item = false)
    (holdsLeft : ∀ item ∈ left, test item = true) (failsRight : ∀ item ∈ right, test item = false) :
    front = left ∧ back = right := by
  have kept : ∀ {first second : List α}, (∀ item ∈ first, test item = true) →
      (∀ item ∈ second, test item = false) → (first ++ second).filter test = first := by
    intro first second yes no
    rw [List.filter_append, List.filter_eq_self.mpr yes,
      List.filter_eq_nil_iff.mpr (fun item member => by simp [no item member]), List.append_nil]
  have equal : front = left := by
    rw [← kept holds fails, same, kept holdsLeft failsRight]
  subst equal
  exact ⟨rfl, List.append_cancel_left same⟩

/-- Sorting is stable: leaving items out before sorting or after it gives the same list. -/
theorem filter_mergeSort
    (transitive : ∀ one two three, le one two = true → le two three = true → le one three = true)
    (total : ∀ one two, (le one two || le two one) = true) (keep : α → Bool) (items : List α) :
    (items.mergeSort le).filter keep = (items.filter keep).mergeSort le := by
  induction items with
  | nil => simp
  | cons item rest induction =>
      obtain ⟨before, after, sorted, others, smaller⟩ :=
        List.mergeSort_cons transitive total item rest
      have larger : ∀ other ∈ after, le item other = true := by
        have ordered := List.pairwise_mergeSort transitive total (item :: rest)
        rw [sorted] at ordered
        exact fun other => List.rel_of_pairwise_cons (List.pairwise_append.mp ordered).2.1
      cases kept : keep item with
      | false =>
          rw [sorted, List.filter_cons_of_neg (by simp [kept]), ← induction, others]
          simp [kept]
      | true =>
          obtain ⟨front, back, again, remaining, below⟩ :=
            List.mergeSort_cons transitive total item (rest.filter keep)
          have above : ∀ other ∈ back, le item other = true := by
            have ordered := List.pairwise_mergeSort transitive total (item :: rest.filter keep)
            rw [again] at ordered
            exact fun other => List.rel_of_pairwise_cons (List.pairwise_append.mp ordered).2.1
          -- Both lists put the item between what is smaller and what is not.
          have whole : before.filter keep ++ after.filter keep = front ++ back := by
            rw [← List.filter_append, ← others, induction, remaining]
          have smallerKept : ∀ other ∈ before.filter keep,
              (fun other => !le item other) other = true :=
            fun other member => smaller other (List.mem_filter.mp member).1
          obtain ⟨first, second⟩ := append_split_unique whole smallerKept
            (fun other member => by simp [larger other (List.mem_filter.mp member).1])
            below (fun other member => by simp [above other member])
          rw [sorted, List.filter_cons_of_pos kept, again, List.filter_append,
            List.filter_cons_of_pos kept, first, second]

end Sorting

namespace Table

/-- Storing under a key that is present replaces the value in its place. -/
theorem store_splits {α : Type} {key : String} {old : α} {entries : List (String × α)}
    (found : lookup key entries = some old) :
    ∃ front back, entries = front ++ (key, old) :: back ∧
      ∀ value, store key value entries = front ++ (key, value) :: back := by
  induction entries with
  | nil => cases found
  | cons entry rest induction =>
      obtain ⟨other, stored⟩ := entry
      by_cases same : other = key
      · subst same
        rw [lookup, if_pos rfl] at found
        refine ⟨[], rest, by rw [Option.some.inj found, List.nil_append], ?_⟩
        intro value
        simp [store]
      · rw [lookup, if_neg same] at found
        obtain ⟨front, back, whole, stores⟩ := induction found
        refine ⟨(other, stored) :: front, back, by rw [whole, List.cons_append], ?_⟩
        intro value
        rw [store, if_neg same, stores, List.cons_append]

end Table

namespace Diagnostic

theorem notAfter_trans (one two three : Diagnostic) (first : one.notAfter two = true)
    (second : two.notAfter three = true) : one.notAfter three = true := by
  simp only [notAfter, Bool.or_eq_true, Bool.and_eq_true, decide_eq_true_eq, Bool.not_eq_true',
    decide_eq_false_iff_not, String.not_lt] at *
  rcases first with first | ⟨line, first | ⟨column, first⟩⟩
  · omega
  · omega
  · rcases second with second | ⟨sameLine, second | ⟨sameColumn, second⟩⟩
    · omega
    · omega
    · exact Or.inr ⟨line.trans sameLine,
        Or.inr ⟨column.trans sameColumn, String.le_trans first second⟩⟩

theorem notAfter_total (one two : Diagnostic) : (one.notAfter two || two.notAfter one) = true := by
  simp only [notAfter, Bool.or_eq_true, Bool.and_eq_true, decide_eq_true_eq, Bool.not_eq_true',
    decide_eq_false_iff_not, String.not_lt]
  have labels := String.le_total one.code.label two.code.label
  grind

end Diagnostic

namespace Snapshot

section

variable {snapshot : Snapshot} {edit : SourceUnit}

/-- The unit that takes the place of a unit when another one is stored. -/
def replacement (edit unit : SourceUnit) : SourceUnit :=
  if unit.path = edit.path then edit else unit

theorem get?_withUnit (isThere : snapshot.contains edit.path = true) (path : String) :
    (snapshot.withUnit edit).get? path = (snapshot.get? path).map (replacement edit) := by
  by_cases same : edit.path = path
  · subst same
    obtain ⟨unit, found⟩ := Option.isSome_iff_exists.mp isThere
    have here : snapshot.get? edit.path = some unit := found
    rw [here, Option.map_some, replacement, if_pos (snapshot.keyed found)]
    exact Table.get?_insert_self _ _ _
  · have kept : (snapshot.withUnit edit).get? path = snapshot.get? path :=
      Table.get?_insert_of_ne _ same _
    rw [kept]
    cases found : snapshot.get? path with
    | none => rfl
    | some unit =>
        have other : unit.path ≠ edit.path := by
          rw [snapshot.keyed found]
          exact fun equal => same equal.symm
        rw [Option.map_some, replacement, if_neg other]

/-- Storing a unit at a path of the program puts it in the place of the one there. -/
theorem units_withUnit (isThere : snapshot.contains edit.path = true) :
    (snapshot.withUnit edit).units = snapshot.units.map (replacement edit) := by
  have keys : (snapshot.withUnit edit).paths = snapshot.paths := by
    obtain ⟨unit, found⟩ := Option.isSome_iff_exists.mp isThere
    obtain ⟨front, back, whole, stores⟩ := Table.store_splits found
    have entries : (snapshot.withUnit edit).table.entries = front ++ (edit.path, edit) :: back :=
      stores edit
    unfold paths Table.keys
    rw [entries, whole]
    simp only [List.map_append, List.map_cons]
  unfold units
  rw [keys, List.map_filterMap]
  exact List.filterMap_congr fun path _ => get?_withUnit isThere path

theorem values_withUnit (isThere : snapshot.contains edit.path = true) :
    ∃ front old back, snapshot.table.values = front ++ old :: back ∧
      old.moduleName = edit.moduleName ∧
      (snapshot.withUnit edit).table.values = front ++ edit :: back := by
  obtain ⟨old, found⟩ := Option.isSome_iff_exists.mp isThere
  obtain ⟨front, back, whole, stores⟩ := Table.store_splits found
  refine ⟨front.map (·.2), old, back.map (·.2), ?_, ?_, ?_⟩
  · simp [Table.values, whole]
  · rw [SourceUnit.moduleName, SourceUnit.moduleName, snapshot.keyed found]
  · simp [Table.values, withUnit, Table.insert, stores]

theorem moduleUnit?_withUnit_of_ne (isThere : snapshot.contains edit.path = true) {name : String}
    (different : name ≠ edit.moduleName) :
    (snapshot.withUnit edit).moduleUnit? name = snapshot.moduleUnit? name := by
  obtain ⟨front, old, back, before, sameName, after⟩ := values_withUnit isThere
  unfold moduleUnit?
  rw [before, after]
  simp [List.filter_append, sameName, Ne.symm different]

theorem isSome_moduleUnit?_withUnit (isThere : snapshot.contains edit.path = true)
    (name : String) :
    ((snapshot.withUnit edit).moduleUnit? name).isSome = (snapshot.moduleUnit? name).isSome := by
  obtain ⟨front, old, back, before, sameName, after⟩ := values_withUnit isThere
  unfold moduleUnit?
  rw [before, after, Bool.eq_iff_iff]
  by_cases named : edit.moduleName = name
  · simp [List.filter_append, sameName, named]
  · simp [List.filter_append, sameName, named]

end

end Snapshot

namespace Diagnostic

/-- The finding is a name that a module does not have. -/
def Blames (module : String) (found : Diagnostic) : Prop :=
  found.code = .missingName ∧
    ∃ name, found.message = "No name '" ++ name ++ "' in module '" ++ module ++ "'"

def isOwn (found : Diagnostic) : Bool :=
  found.code != .missingName

theorem Blames.not_isOwn {module : String} {found : Diagnostic} (blames : found.Blames module) :
    found.isOwn = false := by
  rw [isOwn, blames.1]
  rfl

/-- Two lists of findings are the same but for names that modules of some names do not have: they
are equal once such findings are left out, whatever else is left out with them. -/
def SameBut (differs : String → Prop) (before after : List Diagnostic) : Prop :=
  ∀ keep : Diagnostic → Bool,
    (∀ found module, differs module → found.Blames module → keep found = false) →
      before.filter keep = after.filter keep

namespace SameBut

variable {differs : String → Prop} {before after : List Diagnostic}

theorem refl (differs : String → Prop) (findings : List Diagnostic) :
    SameBut differs findings findings :=
  fun _ _ => rfl

theorem symm (same : SameBut differs before after) : SameBut differs after before :=
  fun keep drops => (same keep drops).symm

theorem append {front back : List Diagnostic} (same : SameBut differs before after)
    (others : SameBut differs front back) : SameBut differs (before ++ front) (after ++ back) := by
  intro keep drops
  rw [List.filter_append, List.filter_append, same keep drops, others keep drops]

theorem mergeSort (same : SameBut differs before after) :
    SameBut differs (before.mergeSort notAfter) (after.mergeSort notAfter) := by
  intro keep drops
  rw [filter_mergeSort notAfter_trans notAfter_total, same keep drops,
    filter_mergeSort notAfter_trans notAfter_total]

private theorem of_blamed {module : String} (differing : differs module)
    (first : ∀ found ∈ before, found.Blames module)
    (second : ∀ found ∈ after, found.Blames module) : SameBut differs before after := by
  intro keep drops
  have none : ∀ {findings : List Diagnostic}, (∀ found ∈ findings, found.Blames module) →
      findings.filter keep = [] := by
    intro findings blamed
    apply List.filter_eq_nil_iff.mpr
    intro found member
    simp [drops found module differing (blamed found member)]
  rw [none first, none second]

theorem mem (same : SameBut differs before after) {found : Diagnostic} (member : found ∈ after) :
    found ∈ before ∨ ∃ module, differs module ∧ found.Blames module := by
  by_contra apart
  push Not at apart
  obtain ⟨absent, blameless⟩ := apart
  -- What is kept is the finding itself.
  have kept : before.filter (fun other => decide (other = found)) =
      after.filter (fun other => decide (other = found)) := by
    apply same
    intro other module differing blames
    apply decide_eq_false
    rintro rfl
    exact blameless module differing blames
  have here : found ∈ after.filter (fun other => decide (other = found)) :=
    List.mem_filter.mpr ⟨member, decide_eq_true rfl⟩
  rw [← kept] at here
  exact absent (List.mem_filter.mp here).1

end SameBut

end Diagnostic

namespace Model

section

variable {model : Model} {settings : Settings} {found : Diagnostic}

theorem mem_undefinedNames (member : found ∈ model.undefinedNames) :
    found.path = model.path ∧ found.code = .undefinedName := by
  unfold undefinedNames at member
  split at member
  · cases member
  · obtain ⟨node, _, rfl⟩ := List.mem_map.mp member
    exact ⟨rfl, rfl⟩

theorem mem_unusedVariables (member : found ∈ model.unusedVariables) :
    found.path = model.path ∧ found.code = .unusedVariable := by
  obtain ⟨scope, _, inScope⟩ := List.mem_flatMap.mp member
  split at inScope
  · cases inScope
  · obtain ⟨symbol, _, rfl⟩ := List.mem_map.mp inScope
    exact ⟨rfl, rfl⟩

theorem mem_unusedImports (member : found ∈ model.unusedImports) :
    found.path = model.path ∧ found.code = .unusedImport := by
  unfold unusedImports at member
  split at member
  · cases member
  · obtain ⟨scope, _, inScope⟩ := List.mem_flatMap.mp member
    split at inScope
    · obtain ⟨symbol, _, rfl⟩ := List.mem_map.mp inScope
      exact ⟨rfl, rfl⟩
    · cases inScope

end

private theorem path_of_build {path : String} {tree : Node} {model : Model}
    (built : build path tree = .ok model) : model.path = path := by
  unfold build at built
  simp only at built
  split at built
  · cases built
  · obtain rfl := Except.ok.inj built
    rfl

end Model

namespace Snapshot

section

variable {snapshot : Snapshot} {edit : SourceUnit} {settings : Settings} {path : String}
  {before after : List Diagnostic}

private theorem mem_missingFrom {module : String} {target : Model} {statement : Node}
    {found : Diagnostic}
    (member : found ∈ snapshot.missingFrom path module target statement) :
    found.path = path ∧ found.Blames module := by
  unfold missingFrom at member
  simp only at member
  split at member
  · cases member
  · obtain ⟨item, _, isFound⟩ := List.mem_filterMap.mp member
    split at isFound
    · split at isFound
      · cases isFound
      · obtain rfl := Option.some.inj isFound
        exact ⟨rfl, rfl, _, rfl⟩
    · cases isFound

/-- The module that a statement imports names from. -/
def importedModule? (path : String) (statement : Node) : Option String :=
  match statement.form with
  | .importFrom module level => resolveImport path module level
  | _ => none

theorem mem_missingNamesOf {statement : Node} {missing : List Diagnostic} {found : Diagnostic}
    (ok : snapshot.missingNamesOf path statement = .ok missing) (member : found ∈ missing) :
    ∃ module, importedModule? path statement = some module ∧ found.path = path ∧
      found.Blames module := by
  unfold missingNamesOf at ok
  split at ok
  · next module level form =>
      split at ok
      · obtain rfl := Except.ok.inj ok
        cases member
      · next name resolved =>
          refine ⟨name, by rw [importedModule?, form]; exact resolved, ?_⟩
          split at ok
          · obtain rfl := Except.ok.inj ok
            cases member
          · split at ok
            · cases ok
            · obtain rfl := Except.ok.inj ok
              cases member
            · obtain rfl := Except.ok.inj ok
              exact mem_missingFrom member
  · obtain rfl := Except.ok.inj ok
    cases member

private theorem missingNames_cons {node : Node} {rest : List Node} {missing : List Diagnostic}
    (ok : snapshot.missingNames path (node :: rest) = .ok missing) :
    ∃ here later, snapshot.missingNamesOf path node = .ok here ∧
      snapshot.missingNames path rest = .ok later ∧ missing = here ++ later := by
  unfold missingNames at ok
  split at ok
  · cases ok
  · next here isHere =>
      split at ok
      · cases ok
      · next later isLater => exact ⟨here, later, isHere, isLater, (Except.ok.inj ok).symm⟩

theorem mem_missingNames {nodes : List Node} {missing : List Diagnostic} {found : Diagnostic}
    (ok : snapshot.missingNames path nodes = .ok missing) (member : found ∈ missing) :
    found.path = path ∧ found.code = .missingName := by
  induction nodes generalizing missing with
  | nil =>
      obtain rfl := Except.ok.inj ok
      cases member
  | cons node rest induction =>
      obtain ⟨here, later, isHere, isLater, rfl⟩ := missingNames_cons ok
      rcases List.mem_append.mp member with fromHere | fromLater
      · obtain ⟨module, _, isPath, blames⟩ := mem_missingNamesOf isHere fromHere
        exact ⟨isPath, blames.1⟩
      · exact induction isLater fromLater

theorem path_of_modelDiagnostics {model : Model} {found : List Diagnostic}
    (ok : snapshot.modelDiagnostics settings model = .ok found) :
    ∀ one ∈ found, one.path = model.path := by
  unfold modelDiagnostics at ok
  split at ok
  · cases ok
  · next missing isMissing =>
      obtain rfl := Except.ok.inj ok
      intro one member
      simp only [List.mem_mergeSort, List.mem_append] at member
      rcases member with ((undefined | lacking) | unused) | unused
      · exact (Model.mem_undefinedNames undefined).1
      · exact (mem_missingNames isMissing lacking).1
      · split at unused
        · exact (Model.mem_unusedVariables unused).1
        · cases unused
      · split at unused
        · exact (Model.mem_unusedImports unused).1
        · cases unused

/-- The findings of a unit that can be searched: one error of the parser or compiler, whatever the
program around it, or those of its model in the program. -/
theorem unitDiagnostics_cases {unit : SourceUnit} {found : List Diagnostic}
    (ok : snapshot.unitDiagnostics settings unit = .ok found) :
    (∃ fault, found = [.ofParseFault unit.path fault] ∧
      ∀ other : Snapshot, other.unitDiagnostics settings unit = .ok found) ∨
    ∃ model : Model, model.path = unit.path ∧
      ∀ other : Snapshot, other.unitDiagnostics settings unit =
        other.modelDiagnostics settings model := by
  unfold unitDiagnostics at ok ⊢
  cases content : unit.content with
  | unreadable kind reason =>
      rw [content] at ok
      cases ok
  | rejected fault =>
      rw [content] at ok
      exact Or.inl ⟨fault, (Except.ok.inj ok).symm, fun _ => ok⟩
  | parsed tree compileFault =>
      rw [content] at ok
      cases compileFault with
      | some fault => exact Or.inl ⟨fault, (Except.ok.inj ok).symm, fun _ => ok⟩
      | none =>
          simp only at ok ⊢
          cases built : Model.build unit.path tree with
          | error fault =>
              rw [built] at ok
              cases ok
          | ok model => exact Or.inr ⟨model, Model.path_of_build built, fun _ => rfl⟩

theorem path_of_unitDiagnostics {unit : SourceUnit} {found : List Diagnostic}
    (ok : snapshot.unitDiagnostics settings unit = .ok found) :
    ∀ one ∈ found, one.path = unit.path := by
  rcases unitDiagnostics_cases ok with ⟨fault, rfl, _⟩ | ⟨model, path, searched⟩
  · intro one member
    rw [List.mem_singleton.mp member]
    rfl
  · rw [searched] at ok
    rw [← path]
    exact path_of_modelDiagnostics ok

/-- Two programs have modules of the same names, and the same ones but for some names. -/
structure Agree (differs : String → Prop) (first second : Snapshot) : Prop where
  named : ∀ name, (first.moduleUnit? name).isSome = (second.moduleUnit? name).isSome
  same : ∀ name, ¬ differs name → first.moduleUnit? name = second.moduleUnit? name

section Agree

variable {differs : String → Prop} {first second : Snapshot}

/-- Which names a module lacks does not depend on the texts of other modules. -/
theorem missingFrom_of_agree (agree : Agree differs first second) (module : String)
    (target : Model) (statement : Node) :
    first.missingFrom path module target statement =
      second.missingFrom path module target statement := by
  unfold missingFrom
  simp only [agree.named]

theorem missingNamesOf_of_agree (agree : Agree differs first second) {statement : Node}
    (apart : ∀ module, importedModule? path statement = some module → ¬ differs module) :
    first.missingNamesOf path statement = second.missingNamesOf path statement := by
  unfold missingNamesOf
  split
  · next module level form =>
      rw [importedModule?, form] at apart
      cases resolved : resolveImport path module level with
      | none => rfl
      | some name =>
          simp only [agree.same name (apart name resolved), missingFrom_of_agree agree]
  · rfl

/-- One import statement: it imports from a module that both programs have, or blames it. -/
theorem sameBut_missingNamesOf (agree : Agree differs first second) {statement : Node}
    (ok : first.missingNamesOf path statement = .ok before)
    (okToo : second.missingNamesOf path statement = .ok after) :
    Diagnostic.SameBut differs before after := by
  by_cases apart : ∀ module, importedModule? path statement = some module → ¬ differs module
  · rw [missingNamesOf_of_agree agree apart, okToo] at ok
    rw [Except.ok.inj ok]
    exact .refl _ _
  · push Not at apart
    obtain ⟨module, imported, differing⟩ := apart
    apply Diagnostic.SameBut.of_blamed differing
    · intro found member
      obtain ⟨other, isImported, _, blames⟩ := mem_missingNamesOf ok member
      rw [imported] at isImported
      rw [Option.some.inj isImported]
      exact blames
    · intro found member
      obtain ⟨other, isImported, _, blames⟩ := mem_missingNamesOf okToo member
      rw [imported] at isImported
      rw [Option.some.inj isImported]
      exact blames

theorem sameBut_missingNames (agree : Agree differs first second) {nodes : List Node}
    (ok : first.missingNames path nodes = .ok before)
    (okToo : second.missingNames path nodes = .ok after) :
    Diagnostic.SameBut differs before after := by
  induction nodes generalizing before after with
  | nil =>
      obtain rfl := Except.ok.inj ok
      obtain rfl := Except.ok.inj okToo
      exact .refl _ _
  | cons node rest induction =>
      obtain ⟨here, later, isHere, isLater, rfl⟩ := missingNames_cons ok
      obtain ⟨hereToo, laterToo, isHereToo, isLaterToo, rfl⟩ := missingNames_cons okToo
      exact (sameBut_missingNamesOf agree isHere isHereToo).append (induction isLater isLaterToo)

/-- What is found in a unit of two such programs is the same but for names missing from modules
that differ. -/
theorem sameBut_unitDiagnostics (agree : Agree differs first second) {unit : SourceUnit}
    (ok : first.unitDiagnostics settings unit = .ok before)
    (okToo : second.unitDiagnostics settings unit = .ok after) :
    Diagnostic.SameBut differs before after := by
  rcases unitDiagnostics_cases ok with ⟨_, _, same⟩ | ⟨model, _, searched⟩
  · rw [same] at okToo
    rw [Except.ok.inj okToo]
    exact .refl _ _
  · rw [searched] at ok okToo
    unfold modelDiagnostics at ok okToo
    split at ok
    · cases ok
    · next missing isMissing =>
        split at okToo
        · cases okToo
        · next missingToo isMissingToo =>
            obtain rfl := Except.ok.inj ok
            obtain rfl := Except.ok.inj okToo
            apply Diagnostic.SameBut.mergeSort
            have lacking := sameBut_missingNames agree isMissing isMissingToo
            exact (((Diagnostic.SameBut.refl _ _).append lacking).append (.refl _ _)).append
              (.refl _ _)

end Agree

theorem agree_withUnit (isThere : snapshot.contains edit.path = true) :
    Agree (fun name => name = edit.moduleName) snapshot (snapshot.withUnit edit) where
  named := fun name => (isSome_moduleUnit?_withUnit isThere name).symm
  same := fun _ different => (moduleUnit?_withUnit_of_ne isThere different).symm

/-- The findings of a unit that is not edited: those made without a look at other units stay as
they are, and new ones are names missing from the edited module. -/
theorem unitDiagnostics_withUnit (isThere : snapshot.contains edit.path = true) {unit : SourceUnit}
    (first : snapshot.unitDiagnostics settings unit = .ok before)
    (second : (snapshot.withUnit edit).unitDiagnostics settings unit = .ok after) :
    before.filter Diagnostic.isOwn = after.filter Diagnostic.isOwn ∧
      ∀ found ∈ after, found ∈ before ∨ found.Blames edit.moduleName := by
  have same := sameBut_unitDiagnostics (agree_withUnit isThere) first second
  refine ⟨same _ fun found module _ blames => blames.not_isOwn, ?_⟩
  intro found member
  rcases same.mem member with old | ⟨module, rfl, blames⟩
  · exact Or.inl old
  · exact Or.inr blames

/-- The findings of a program are those of its units, one unit after the other. -/
theorem parts_of_diagnosticsOf {units : List SourceUnit} {found : List Diagnostic}
    {signal : CancelSignal}
    (ok : snapshot.diagnosticsOf settings none units = .ok (found, signal)) :
    ∃ parts, List.Forall₂ (fun unit part => snapshot.unitDiagnostics settings unit = .ok part)
      units parts ∧ found = parts.flatten := by
  induction units generalizing found with
  | nil =>
      cases ok
      exact ⟨[], .nil, rfl⟩
  | cons unit rest induction =>
      simp only [diagnosticsOf, CancelSignal.poll] at ok
      split at ok
      · cases ok
      · next part isPart =>
          split at ok
          · cases ok
          · next others last isRest =>
              cases ok
              obtain ⟨parts, each, rfl⟩ := induction isRest
              exact ⟨part :: parts, .cons isPart each, rfl⟩

theorem parts_of_findings {found : List Diagnostic} (ok : snapshot.findings settings = .ok found) :
    ∃ parts, List.Forall₂ (fun unit part => snapshot.unitDiagnostics settings unit = .ok part)
      snapshot.units parts ∧ found = parts.flatten :=
  parts_of_diagnosticsOf (diagnostics_of_findings ok)

/-- What was found in the unit at a path without a look at other units. -/
def ownAt (path : String) (findings : List Diagnostic) : List Diagnostic :=
  findings.filter (fun found => decide (found.path = path) && found.isOwn)

private theorem ownAt_append (path : String) (front back : List Diagnostic) :
    ownAt path (front ++ back) = ownAt path front ++ ownAt path back :=
  List.filter_append ..

/-- What an edit leaves as it was, and where the rest comes from. -/
structure Local (edit : SourceUnit) (before after : List Diagnostic) : Prop where
  elsewhere : ∀ path, path ≠ edit.path → ownAt path before = ownAt path after
  added : ∀ found ∈ after, found ∈ before ∨ found.path = edit.path ∨ found.Blames edit.moduleName

theorem local_of_unit (isThere : snapshot.contains edit.path = true) {unit : SourceUnit}
    (first : snapshot.unitDiagnostics settings unit = .ok before)
    (second :
      (snapshot.withUnit edit).unitDiagnostics settings (replacement edit unit) = .ok after) :
    Local edit before after := by
  by_cases edited : unit.path = edit.path
  · rw [replacement, if_pos edited] at second
    -- Nothing in either list is at another path.
    have none : ∀ {findings : List Diagnostic}, (∀ found ∈ findings, found.path = edit.path) →
        ∀ path, path ≠ edit.path → ownAt path findings = [] := by
      intro findings here path different
      apply List.filter_eq_nil_iff.mpr
      intro found member
      simp [here found member, Ne.symm different]
    have old : ∀ found ∈ before, found.path = edit.path := by
      intro found member
      rw [path_of_unitDiagnostics first found member, edited]
    have new := path_of_unitDiagnostics second
    constructor
    · intro path different
      rw [none old path different, none new path different]
    · intro found member
      exact Or.inr (Or.inl (new found member))
  · rw [replacement, if_neg edited] at second
    obtain ⟨own, added⟩ := unitDiagnostics_withUnit isThere first second
    constructor
    · intro path _
      simp only [ownAt, ← List.filter_filter, own]
    · intro found member
      exact (added found member).imp_right Or.inr

/-- The whole program before and after an edit. -/
theorem local_of_findings (isThere : snapshot.contains edit.path = true)
    (first : snapshot.findings settings = .ok before)
    (second : (snapshot.withUnit edit).findings settings = .ok after) :
    Local edit before after := by
  obtain ⟨parts, each, rfl⟩ := parts_of_findings first
  obtain ⟨partsAfter, eachAfter, rfl⟩ := parts_of_findings second
  rw [units_withUnit isThere, List.forall₂_map_left_iff] at eachAfter
  clear first second
  generalize snapshot.units = units at each eachAfter
  induction each generalizing partsAfter with
  | nil =>
      cases eachAfter
      exact ⟨fun _ _ => rfl, nofun⟩
  | cons isPart _ induction =>
      cases eachAfter with
      | cons isPartAfter others =>
          have here := local_of_unit isThere isPart isPartAfter
          have later := induction _ others
          constructor
          · intro path different
            rw [List.flatten_cons, List.flatten_cons, ownAt_append, ownAt_append,
              here.elsewhere path different, later.elsewhere path different]
          · intro found member
            rw [List.flatten_cons] at member ⊢
            rcases List.mem_append.mp member with fromHere | fromLater
            · exact (here.added found fromHere).imp_left (List.mem_append_left _)
            · exact (later.added found fromLater).imp_left (List.mem_append_right _)

end

/-- An error that an edit adds is found in the edited unit or is a name that its module does not
have; and what was found in another unit without a look at its program is found again. -/
theorem regressions_are_local (snapshot : Snapshot) (settings : Settings) (edit : SourceUnit)
    (before after : List Diagnostic) (isThere : snapshot.contains edit.path = true)
    (first : snapshot.findings settings = .ok before)
    (second : (snapshot.withUnit edit).findings settings = .ok after) :
    (∀ text ∈ (snapshot.validate settings none edit).errors,
      ∃ found ∈ after, found.isError = true ∧ found ∉ before ∧ text = found.render ∧
        (found.path = edit.path ∨
          found.code.label = "E0611" ∧ ∃ name,
            found.message =
              "No name '" ++ name ++ "' in module '" ++ moduleName edit.path ++ "'")) ∧
      ∀ path, path ≠ edit.path →
        before.filter (fun found => found.path = path &&
            ["E0001", "E0602", "W0612", "W0611"].contains found.code.label) =
          after.filter (fun found => found.path = path &&
            ["E0001", "E0602", "W0612", "W0611"].contains found.code.label) := by
  have kept := local_of_findings isThere first second
  constructor
  · intro text member
    rw [validate_of_findings isThere first second] at member
    obtain ⟨found, isAdded, rfl⟩ := List.mem_map.mp member
    obtain ⟨inAfter, new⟩ := List.mem_filter.mp isAdded
    simp only [Bool.and_eq_true, Bool.not_eq_true', List.contains_eq_mem, decide_eq_false_iff_not,
      List.mem_filter, not_and] at new
    obtain ⟨isError, absent⟩ := new
    have notBefore : found ∉ before := fun old => absent old isError
    refine ⟨found, inAfter, isError, notBefore, rfl, ?_⟩
    rcases kept.added found inAfter with old | here | ⟨code, name, message⟩
    · exact absurd old notBefore
    · exact Or.inl here
    · exact Or.inr ⟨by rw [code]; rfl, name, message⟩
  · intro path different
    have own : ∀ found : Diagnostic,
        ["E0001", "E0602", "W0612", "W0611"].contains found.code.label = found.isOwn := by
      intro found
      unfold Diagnostic.isOwn
      cases found.code <;> rfl
    simp only [own]
    exact kept.elsewhere path different

def assigningUnit (path name : String) : SourceUnit where
  path := path
  source := name ++ " = 1\n"
  content := .parsed
    (.mk .module ⟨0, .root, none⟩ [
      .mk .assign ⟨1, .body, some ⟨⟨1, 0⟩, ⟨1, 5⟩⟩⟩ [
        .mk (.name name .store) ⟨2, .target, some ⟨⟨1, 0⟩, ⟨1, 1⟩⟩⟩ [],
        .mk (.constant .int "1") ⟨3, .value, some ⟨⟨1, 4⟩, ⟨1, 5⟩⟩⟩ []]]) none

def importingUnit (path module name : String) : SourceUnit where
  path := path
  source := "from " ++ module ++ " import " ++ name ++ "\n"
  content := .parsed
    (.mk .module ⟨0, .root, none⟩ [
      .mk (.importFrom (some module) 0) ⟨1, .body, some ⟨⟨1, 0⟩, ⟨1, 15⟩⟩⟩ [
        .mk (.alias name none) ⟨2, .imported, some ⟨⟨1, 14⟩, ⟨1, 15⟩⟩⟩ []]]) none

/-- A program in which one unit imports what another one assigns. -/
def importingProgram : Snapshot :=
  ofUnits [assigningUnit "a.py" "x", importingUnit "b.py" "a" "x"]

/-- The assigned name is changed: what is found in the importing unit by itself stays, and whatever
error is added is found in the edited unit or names its module. -/
theorem regressions_are_local_import :
    ∃ before after, importingProgram.findings {} = .ok before ∧
      (importingProgram.withUnit (assigningUnit "a.py" "y")).findings {} = .ok after ∧
      (∀ text ∈ (importingProgram.validate {} none (assigningUnit "a.py" "y")).errors,
        ∃ found ∈ after, found.isError = true ∧ found ∉ before ∧ text = found.render ∧
          (found.path = "a.py" ∨
            found.code.label = "E0611" ∧ ∃ name,
              found.message = "No name '" ++ name ++ "' in module '" ++ moduleName "a.py" ++ "'")) ∧
      before.filter (fun found => found.path = "b.py" &&
          ["E0001", "E0602", "W0612", "W0611"].contains found.code.label) =
        after.filter (fun found => found.path = "b.py" &&
          ["E0001", "E0602", "W0612", "W0611"].contains found.code.label) := by
  have isThere : importingProgram.contains (assigningUnit "a.py" "y").path = true := by decide
  have first : (importingProgram.findings {}).isOk = true := by decide +kernel
  have second :
      ((importingProgram.withUnit (assigningUnit "a.py" "y")).findings {}).isOk = true := by
    decide +kernel
  obtain ⟨before, known⟩ := exists_ok_iff.mpr first
  obtain ⟨after, knownAfter⟩ := exists_ok_iff.mpr second
  obtain ⟨added, kept⟩ :=
    regressions_are_local importingProgram {} _ before after isThere known knownAfter
  exact ⟨before, after, known, knownAfter, added, kept "b.py" (by decide)⟩

end Snapshot

end SafeRefactor
