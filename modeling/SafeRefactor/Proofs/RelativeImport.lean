import SafeRefactor.Program.ModuleName

/-!
# Relative imports

The package of a unit is the module itself for a package file and what is around the module for
any other file.  A relative import of level one starts there, and each further level goes one
package outwards.  The search allows one level too many: from just outside the outermost package
it takes the module as it is written.
-/

namespace SafeRefactor

namespace Text

private theorem splitChars_eq (separator : Char) (chars : List Char) :
    splitChars separator chars = chars.splitOn separator := by
  induction chars with
  | nil => rfl
  | cons c rest induction =>
      rw [splitChars, induction, List.splitOn, List.splitOn, List.splitOnP_cons_eq_if_modifyHead]
      by_cases same : c = separator
      · simp [same]
      · cases pieces : rest.splitOnP (· == separator) with
        | nil => exact absurd pieces (List.splitOnP_ne_nil _ _)
        | cons piece others => simp [same]

theorem split_join {separator : Char} {pieces : List String} (nonempty : pieces ≠ [])
    (free : ∀ piece ∈ pieces, separator ∉ piece.toList) :
    split separator (join (String.singleton separator) pieces) = pieces := by
  have apart : ∀ chars ∈ pieces.map String.toList, separator ∉ chars := by
    intro chars member
    obtain ⟨piece, isPiece, rfl⟩ := List.mem_map.mp member
    exact free piece isPiece
  unfold split join
  rw [splitChars_eq, String.toList_intercalate, String.toList_singleton,
    List.splitOn_intercalate separator apart (by simpa using nonempty), List.map_map]
  exact List.map_id'' (fun piece => String.ofList_toList) pieces

private theorem join_eq_empty {separator : String} {pieces : List String}
    (nonempty : ∀ piece ∈ pieces, piece ≠ "") : join separator pieces = "" ↔ pieces = [] := by
  constructor
  · intro empty
    cases pieces with
    | nil => rfl
    | cons first rest =>
        have isEmpty : first = "" := by
          rw [join] at empty
          cases rest with
          | nil => rwa [String.intercalate_singleton] at empty
          | cons second others =>
              rw [String.intercalate_cons_cons, String.append_eq_empty_iff,
                String.append_eq_empty_iff] at empty
              exact empty.1.1
        exact absurd isEmpty (nonempty first List.mem_cons_self)
  · intro none
    rw [none]
    rfl

end Text

/-- The name of a file without its ending. -/
def fileStem (file : String) : String :=
  if Text.endsWith file ".py" then Text.dropEnd file 3 else file

/-- No directory of a path has a dot in its name, and the file has none but that of its ending. -/
def HasPlainParts (path : String) : Prop :=
  (∀ part ∈ (pathParts path).dropLast, '.' ∉ part.toList) ∧
    ∀ file ∈ (pathParts path).getLast?, '.' ∉ (fileStem file).toList

instance (path : String) : Decidable (HasPlainParts path) :=
  inferInstanceAs (Decidable (_ ∧ ∀ file ∈ (pathParts path).getLast?, '.' ∉ (fileStem file).toList))

/-- The package that the unit at a path belongs to. -/
def enclosingPackage (path : String) : List String :=
  if (pathParts path).getLast? = some "__init__.py" then moduleParts path
  else (moduleParts path).dropLast

/-- The module that a relative import of a unit in a package means: none when the levels lead out of
the outermost package. -/
def relativeModule (package : List String) (module : Option String) (level : Nat) :
    Option String :=
  if package.length < level then none
  else some (Text.join "." (package.take (package.length - (level - 1)) ++ module.toList))

theorem dropFileEnding_eq {parts : List String} {file : String}
    (isLast : parts.getLast? = some file) :
    dropFileEnding parts =
      if fileStem file = "__init__" then parts.dropLast else parts.dropLast ++ [fileStem file] := by
  rw [dropFileEnding, isLast]
  rfl

section

variable {path : String}

private theorem ne_empty_of_pathParts {part : String} (member : part ∈ pathParts path) :
    part ≠ "" := by
  have kept := (List.mem_filter.mp member).2
  simp only [Bool.and_eq_true, Bool.not_eq_true', String.isEmpty_eq_false_iff] at kept
  exact kept.1

/-- Leaving out a source directory leaves the other parts and the file. -/
theorem dropSourceRoot_cases (parts : List String) :
    dropSourceRoot parts = parts ∨ parts = "src" :: dropSourceRoot parts := by
  unfold dropSourceRoot
  split
  · exact Or.inr rfl
  · exact Or.inl rfl

private theorem getLast?_dropSourceRoot {parts : List String} {file : String}
    (isLast : (dropSourceRoot parts).getLast? = some file) : parts.getLast? = some file := by
  rcases dropSourceRoot_cases parts with same | whole
  · rw [← same]
    exact isLast
  · rw [whole, List.getLast?_cons, isLast]
    rfl

private theorem dropLast_dropSourceRoot_subset (parts : List String) :
    (dropSourceRoot parts).dropLast ⊆ parts.dropLast := by
  intro part member
  rcases dropSourceRoot_cases parts with same | whole
  · rw [← same]
    exact member
  · rw [whole, List.dropLast_cons_of_ne_nil
      (List.ne_nil_of_mem ((List.dropLast_sublist _).mem member))]
    exact List.mem_cons_of_mem _ member

private theorem free_moduleParts (plain : HasPlainParts path) :
    ∀ part ∈ moduleParts path, '.' ∉ part.toList := by
  intro part member
  have directory : ∀ part ∈ (dropSourceRoot (pathParts path)).dropLast, '.' ∉ part.toList := by
    intro part member
    exact plain.1 part (dropLast_dropSourceRoot_subset _ member)
  unfold moduleParts at member
  cases isLast : (dropSourceRoot (pathParts path)).getLast? with
  | none =>
      rw [List.getLast?_eq_none_iff] at isLast
      rw [isLast] at member
      cases member
  | some file =>
      rw [dropFileEnding_eq isLast] at member
      split at member
      · exact directory part member
      · rcases List.mem_append.mp member with inside | single
        · exact directory part inside
        · rw [List.mem_singleton.mp single]
          exact plain.2 file (getLast?_dropSourceRoot isLast)

theorem enclosingPackage_subset : enclosingPackage path ⊆ pathParts path := by
  have directories : (dropSourceRoot (pathParts path)).dropLast ⊆ pathParts path := by
    intro part member
    exact (List.dropLast_sublist _).mem (dropLast_dropSourceRoot_subset _ member)
  intro part member
  unfold enclosingPackage moduleParts at member
  cases isLast : (dropSourceRoot (pathParts path)).getLast? with
  | none =>
      rw [List.getLast?_eq_none_iff] at isLast
      rw [isLast] at member
      split at member <;> cases member
  | some file =>
      rw [getLast?_dropSourceRoot isLast, dropFileEnding_eq isLast] at member
      split at member
      · next isPackage =>
          obtain rfl := Option.some.inj isPackage
          exact directories member
      · split at member
        · exact directories ((List.dropLast_sublist _).mem member)
        · rw [List.dropLast_concat] at member
          exact directories member

theorem packageParts_eq (plain : HasPlainParts path)
    (file : isPackageFile path = true ↔ (pathParts path).getLast? = some "__init__.py") :
    packageParts path = enclosingPackage path ∨
      packageParts path = [""] ∧ enclosingPackage path = [] := by
  have pieces : moduleParts path ≠ [] →
      Text.split '.' (moduleName path) = moduleParts path :=
    fun nonempty => Text.split_join nonempty (free_moduleParts plain)
  have isEmpty : moduleParts path = [] → Text.split '.' (moduleName path) = [""] := by
    intro none
    rw [moduleName, none]
    rfl
  unfold packageParts enclosingPackage
  by_cases nonempty : moduleParts path = []
  · rw [isEmpty nonempty, nonempty]
    by_cases isPackage : isPackageFile path = true
    · rw [if_pos isPackage, if_pos (file.mp isPackage)]
      exact Or.inr ⟨rfl, rfl⟩
    · rw [if_neg isPackage, if_neg (fun same => isPackage (file.mpr same))]
      exact Or.inl rfl
  · rw [pieces nonempty]
    by_cases isPackage : isPackageFile path = true
    · rw [if_pos isPackage, if_pos (file.mp isPackage)]
      exact Or.inl rfl
    · rw [if_neg isPackage, if_neg (fun same => isPackage (file.mpr same))]
      exact Or.inl rfl

/-- The parts that are written out are those of a package around and the module. -/
theorem filter_packageParts (plain : HasPlainParts path)
    (file : isPackageFile path = true ↔ (pathParts path).getLast? = some "__init__.py")
    {module : Option String} (named : module ≠ some "") (outwards : Nat) :
    ((packageParts path).take ((packageParts path).length - outwards) ++ module.toList).filter
        (fun part => !part.isEmpty) =
      (enclosingPackage path).take ((enclosingPackage path).length - outwards) ++
        module.toList := by
  have moduleKept : module.toList.filter (fun part => !part.isEmpty) = module.toList := by
    apply List.filter_eq_self.mpr
    intro part isModule
    have nonempty : part ≠ "" := by
      intro empty
      rw [empty] at isModule
      exact named (Option.mem_toList.mp isModule)
    simpa using nonempty
  rw [List.filter_append, moduleKept]
  apply congrArg (· ++ module.toList)
  rcases packageParts_eq plain file with same | ⟨blank, none⟩
  · rw [same]
    apply List.filter_eq_self.mpr
    intro part member
    simpa using ne_empty_of_pathParts (enclosingPackage_subset (List.mem_of_mem_take member))
  · rw [blank, none, List.take_nil]
    apply List.filter_eq_nil_iff.mpr
    intro part member
    rw [List.mem_singleton.mp (List.mem_of_mem_take member)]
    decide

/-- A relative import is let out while the levels do not exceed the pieces of the package's name by
more than one, and then it means the package that it arrives at with the module. -/
theorem resolveImport_eq (plain : HasPlainParts path)
    (file : isPackageFile path = true ↔ (pathParts path).getLast? = some "__init__.py")
    {module : Option String} (named : module ≠ some "") {level : Nat} (relative : 1 ≤ level) :
    resolveImport path module level =
      if (packageParts path).length + 1 < level then none
      else
        let parts := (enclosingPackage path).take ((enclosingPackage path).length - (level - 1)) ++
          module.toList
        if parts = [] then none else some (Text.join "." parts) := by
  have absolute : ¬ (level : Int) = 0 := by omega
  have steps : ((level : Int) - 1).toNat = level - 1 := by omega
  have tooFar : (packageParts path).length < level - 1 ↔
      (packageParts path).length + 1 < level := by
    omega
  have nonempty : ∀ part ∈ (enclosingPackage path).take
      ((enclosingPackage path).length - (level - 1)) ++ module.toList, part ≠ "" := by
    intro part member
    rw [← filter_packageParts plain file named] at member
    simpa using (List.mem_filter.mp member).2
  simp only [resolveImport, if_neg absolute, steps, tooFar, filter_packageParts plain file named,
    String.isEmpty_iff, Text.join_eq_empty nonempty]

end

/-- A relative import of a unit at a plain path means the module that its level leads to, except
that from just outside the outermost package the module is taken as it is written. -/
theorem relative_import_resolves (path : String) (module : Option String) (level : Nat)
    (plain : HasPlainParts path)
    (file : isPackageFile path = true ↔ (pathParts path).getLast? = some "__init__.py")
    (named : module ≠ some "") (relative : 1 ≤ level) :
    resolveImport path module level =
      if (enclosingPackage path).length < level ∧ level ≤ (packageParts path).length + 1 then module
      else relativeModule (enclosingPackage path) module level := by
  have reach : (enclosingPackage path).length ≤ (packageParts path).length := by
    rcases packageParts_eq plain file with same | ⟨blank, none⟩
    · exact Nat.le_of_eq (congrArg List.length same.symm)
    · rw [none]
      exact Nat.zero_le _
  rw [resolveImport_eq plain file named relative, relativeModule]
  by_cases outside : (enclosingPackage path).length < level
  · by_cases tooFar : (packageParts path).length + 1 < level
    · have refused : ¬ ((enclosingPackage path).length < level ∧
          level ≤ (packageParts path).length + 1) := fun both => Nat.not_lt_of_le both.2 tooFar
      rw [if_pos tooFar, if_neg refused, if_pos outside]
    · have allowed : (enclosingPackage path).length < level ∧
          level ≤ (packageParts path).length + 1 := ⟨outside, Nat.le_of_not_lt tooFar⟩
      rw [if_neg tooFar, if_pos allowed]
      have steps : (enclosingPackage path).length - (level - 1) = 0 := by omega
      rw [steps, List.take_zero, List.nil_append]
      cases module with
      | none => rfl
      | some name => rfl
  · have near : ¬ (packageParts path).length + 1 < level := by omega
    have inside :
        (enclosingPackage path).take ((enclosingPackage path).length - (level - 1)) ≠ [] := by
      rw [ne_eq, ← List.length_eq_zero_iff, List.length_take]
      omega
    rw [if_neg near, if_neg (fun both : _ ∧ _ => outside both.1), if_neg outside]
    exact if_neg (List.append_ne_nil_of_left_ne_nil inside _)

theorem relative_import_resolves_outwards :
    HasPlainParts "src\\pkg/./sub/mod.py" ∧
      resolveImport "src\\pkg/./sub/mod.py" (some "x.y") 2 = some "pkg.x.y" := by
  have plain : HasPlainParts "src\\pkg/./sub/mod.py" := by decide
  refine ⟨plain, ?_⟩
  exact relative_import_resolves "src\\pkg/./sub/mod.py" (some "x.y") 2 plain
    (by decide) (by decide)
    (by decide)

/-- A module finds its import outside the outermost package, and so does a module whose file name
only ends like that of a package. -/
theorem beyond_top_level_resolved :
    (HasPlainParts "pkg/mod.py" ∧ resolveImport "pkg/mod.py" (some "x") 2 ≠
        relativeModule (enclosingPackage "pkg/mod.py") (some "x") 2) ∧
      HasPlainParts "pkg/my__init__.py" ∧ resolveImport "pkg/my__init__.py" (some "x") 1 ≠
        relativeModule (enclosingPackage "pkg/my__init__.py") (some "x") 1 := by
  decide

end SafeRefactor
