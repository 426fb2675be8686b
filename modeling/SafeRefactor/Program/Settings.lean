import SafeRefactor.Fault
import SafeRefactor.Program.Rounding
import SafeRefactor.Text.Blank
import SafeRefactor.Text.Pieces

/-!
# Settings

What the analyses report, and how settings are read from the value of a settings
file.  Values are read leniently: truth values and numbers may also be written as
texts, and a truth value counts as a number.
-/

namespace SafeRefactor

/-- What the analyses report. -/
structure Settings where
  reportUnusedVariables : Bool := true
  reportUnusedImports : Bool := true
  referenceSearchConcurrency : Int := 8
  verboseExtraction : Bool := false
deriving DecidableEq, Repr

namespace Settings

/-- The value of a settings file. -/
inductive Value where
  | null
  | bool (value : Bool)
  | int (value : Int)
  /-- The number of limited precision nearest to `mantissa / 10 ^ places`. -/
  | decimal (mantissa : Int) (places : Nat)
  | text (value : String)
  | list (items : List Value)
  | mapping (entries : List (String × Value))

namespace Value

instance : Inhabited Value := ⟨.null⟩

/-- Whether a value counts as nothing at all. -/
def isVoid : Value → Bool
  | .null => true
  | .bool value => !value
  | .int value => value = 0
  | .decimal mantissa _ => mantissa = 0
  | .text value => value.isEmpty
  | .list items => items.isEmpty
  | .mapping entries => entries.isEmpty

/-- The least magnitude that a signed word of 64 bits cannot hold on both sides. -/
def wordLimit : Nat :=
  9223372036854775808

/-- The whole number that a number of limited precision equals, if it fits in a word. -/
def wholeNumber? (mantissa : Int) (places : Nat) : Option Int :=
  match Rounding.wholeNearest? mantissa.natAbs (Nat.pow 10 places) with
  | some size =>
      if size < wordLimit then some (if mantissa < 0 then -(size : Int) else size) else none
  | none => none

/-- The truth value that a number stands for. -/
def boolOfInt? (value : Int) : Option Bool :=
  if value = 0 then some false else if value = 1 then some true else none

/-- The words for a truth value. -/
def trueWords : List String :=
  ["1", "on", "t", "true", "y", "yes"]

/-- The words for the other truth value. -/
def falseWords : List String :=
  ["0", "off", "f", "false", "n", "no"]

/-- The truth value that a word stands for; case does not matter. -/
def boolOfText? (text : String) : Option Bool :=
  let word := String.ofList (text.toList.map Char.toLower)
  if trueWords.contains word then some true
  else if falseWords.contains word then some false
  else none

/-- The truth value that a value stands for. -/
def toBool? : Value → Option Bool
  | .bool value => some value
  | .int value => boolOfInt? value
  | .decimal mantissa places => (wholeNumber? mantissa places).bind boolOfInt?
  | .text value => boolOfText? value
  | _ => none

/-- Whether a character is white space around a number. -/
def isMargin (c : Char) : Bool :=
  Text.isBlank c && !(28 ≤ c.toNat && c.toNat ≤ 31)

/-- The number that digits with single underscores between them denote, unless there are too
many. -/
def digitGroups? (chars : List Char) : Option Nat :=
  let groups := Text.splitChars '_' chars
  let digits := groups.flatten
  if groups.all (fun group => !group.isEmpty && group.all Char.isDigit) &&
      digits.length ≤ numeralLimit then
    some (digits.foldl (fun number c => 10 * number + (c.toNat - 48)) 0)
  else none

/-- The characters of a number from its first significant digit on.  After a zero in front any
underscores are passed over with the zeros. -/
def significant : List Char → List Char
  | '0' :: rest =>
      match rest.dropWhile (fun c => c = '0' || c = '_') with
      | [] => ['0']
      | c :: others => if c = '.' then '0' :: c :: others else c :: others
  | chars => chars

/-- The number that digits denote, with or without a fraction of zeros. -/
def unsigned? (chars : List Char) : Option Nat :=
  match Text.splitChars '.' (significant chars) with
  | [whole] => digitGroups? whole
  | [whole, fraction] =>
      if !fraction.isEmpty && fraction.all (· = '0') then digitGroups? whole else none
  | _ => none

/-- The number that a text without margins denotes. -/
def signed? : List Char → Option Int
  | '-' :: rest => (unsigned? rest).map (fun number => -(number : Int))
  | '+' :: rest => (unsigned? rest).map (fun number => (number : Int))
  | chars => (unsigned? chars).map (fun number => (number : Int))

/-- The number that a text denotes. -/
def intOfText? (text : String) : Option Int :=
  signed? ((text.toList.dropWhile isMargin).reverse.dropWhile isMargin).reverse

/-- The whole number that a value stands for. -/
def toInt? : Value → Option Int
  | .bool value => some (if value then 1 else 0)
  | .int value => some value
  | .decimal mantissa places => wholeNumber? mantissa places
  | .text value => intOfText? value
  | _ => none

/-- The positive whole number that a value stands for. -/
def toPositive? (value : Value) : Option Int :=
  value.toInt?.filter (fun number => 1 ≤ number)

end Value

inductive File where
  | absent
  | unparsable
  | holds (value : Value)

/-- Why a settings file cannot be used. -/
inductive FileFault where
  | unparsable
  | notMapping
  /-- The settings with unusable values; the empty list stands for the whole section. -/
  | invalid (fields : List (List String))
deriving DecidableEq, Repr

def FileFault.message (path : String) : FileFault → String
  | .unparsable => "Cannot parse settings file " ++ path
  | .notMapping => "Settings file " ++ path ++ " must contain a mapping"
  | .invalid _ => "Invalid settings in " ++ path

/-- A setting: its value if it is given and usable, none if it is given and not usable. -/
def readField (entries : List (String × Value)) (name : String) (fallback : α)
    (read : Value → Option α) : Option α :=
  match entries.lookup name with
  | none => some fallback
  | some value => read value

/-- The settings that a section holds. -/
def ofSection (entries : List (String × Value)) : Except FileFault Settings :=
  let defaults : Settings := {}
  let unusedVariables :=
    readField entries "report_unused_variables" defaults.reportUnusedVariables Value.toBool?
  let unusedImports :=
    readField entries "report_unused_imports" defaults.reportUnusedImports Value.toBool?
  let concurrency :=
    readField entries "reference_search_concurrency" defaults.referenceSearchConcurrency
      Value.toPositive?
  let verbose := readField entries "verbose_extraction" defaults.verboseExtraction Value.toBool?
  match unusedVariables, unusedImports, concurrency, verbose with
  | some reportUnusedVariables, some reportUnusedImports, some referenceSearchConcurrency,
      some verboseExtraction =>
      .ok
        { reportUnusedVariables, reportUnusedImports, referenceSearchConcurrency,
          verboseExtraction }
  | _, _, _, _ =>
      .error <| .invalid <|
        (if unusedVariables.isNone then [["report_unused_variables"]] else []) ++
        (if unusedImports.isNone then [["report_unused_imports"]] else []) ++
        (if concurrency.isNone then [["reference_search_concurrency"]] else []) ++
        (if verbose.isNone then [["verbose_extraction"]] else [])

/-- The settings of a file.  They stand at its top level or in a section of their own. -/
def ofFile : File → Except FileFault Settings
  | .absent => .ok {}
  | .unparsable => .error .unparsable
  | .holds value =>
      if value.isVoid then .ok {}
      else
        match value with
        | .mapping entries =>
            match entries.lookup "refactor_core" with
            | none => ofSection entries
            | some (.mapping inner) => ofSection inner
            | some _ => .error (.invalid [[]])
        | _ => .error .notMapping

end Settings

end SafeRefactor
