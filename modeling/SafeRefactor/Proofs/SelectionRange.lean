import Mathlib.Data.List.Basic
import Mathlib.Data.List.TakeWhile
import SafeRefactor.Region.Selection

/-!
# Selection ranges

A text is read as a selection exactly when it is `A:B-C:D` between blanks, where the letters
are numerals of digits of any scripts that count lines and columns from one.  Every other text
is refused by name, except that a numeral with too many digits to be read is a fault of its
own.  What is written for a span is read as that span.
-/

namespace SafeRefactor

namespace Text

/-- A run of digits of any scripts, of which there is at least one. -/
structure IsNumeral (digits : List Char) : Prop where
  nonempty : digits ≠ []
  all : ∀ c ∈ digits, isDigit c = true

theorem not_isDigit_of_isBlank {c : Char} (blank : isBlank c = true) : isDigit c = false := by
  have tens : ∀ first ∈ digitZeros, ∀ offset < 10,
      isBlank (Char.ofNat (first + offset)) = false := by decide +kernel
  by_contra digit
  rw [Bool.not_eq_false, isDigit, digitValue?, Option.isSome_map, List.find?_isSome] at digit
  obtain ⟨first, listed, within⟩ := digit
  rw [Bool.and_eq_true, decide_eq_true_eq, decide_eq_true_eq] at within
  have other := tens first listed (c.toNat - first) (by omega)
  rw [Nat.add_sub_cancel' within.1, Char.ofNat_toNat, blank] at other
  cases other

private theorem digitValue?_of_isDigit {c : Char} (digit : c.isDigit = true) :
    digitValue? c = some (c.toNat - '0'.toNat) := by
  have bounds : 48 ≤ c.toNat ∧ c.toNat ≤ 57 := by
    simpa [Char.isDigit, UInt32.le_iff_toNat_le] using digit
  have front : digitZeros = 48 :: digitZeros.tail := rfl
  have found :
      digitZeros.find? (fun first => first ≤ c.toNat && c.toNat < first + 10) = some 48 := by
    rw [front, List.find?_cons_of_pos]
    simp only [Bool.and_eq_true, decide_eq_true_eq]
    omega
  rw [digitValue?, found]
  rfl

private theorem isNumeral_of_all {digits : List Char} (nonempty : digits ≠ [])
    (all : digits.all isDigit = true) : IsNumeral digits :=
  ⟨nonempty, List.all_eq_true.mp all⟩

private theorem isNumeral_toDigits (n : Nat) : IsNumeral (Nat.toDigits 10 n) where
  nonempty := Nat.toDigits_ne_nil
  all := by
    intro c member
    have digit := Nat.isDigit_of_mem_toDigits (by decide) (by decide) member
    rw [isDigit, digitValue?_of_isDigit digit]
    rfl

theorem numeralValue_toDigits (n : Nat) : numeralValue (Nat.toDigits 10 n) = n := by
  have same : numeralValue (Nat.toDigits 10 n) = Nat.ofDigitChars 10 (Nat.toDigits 10 n) 0 := by
    apply List.foldl_ext
    intro number c member
    have digit := Nat.isDigit_of_mem_toDigits (by decide) (by decide) member
    rw [digitValue?_of_isDigit digit, Option.getD_some]
  rw [same, Nat.ofDigitChars_toDigits (by decide) (by decide)]

end Text

/-- A span that a selection can stand for: lines count from one and columns from zero, and the span
does not stop before it starts. -/
structure Span.Selectable (span : Span) : Prop where
  startLine : 1 ≤ span.start.line
  startColumn : 0 ≤ span.start.column
  stopLine : 1 ≤ span.stop.line
  stopColumn : 0 ≤ span.stop.column
  ordered : span.start ≤ span.stop

/-- The four numbers by which a selection range names a span, all counted from one. -/
def Span.numbers (span : Span) : List Int :=
  [span.start.line, span.start.column + 1, span.stop.line, span.stop.column + 1]

namespace Selection

/-- The written form of a span. -/
def render (span : Span) : String :=
  toString span.start.line ++ ":" ++ toString (span.start.column + 1) ++ "-" ++
    toString span.stop.line ++ ":" ++ toString (span.stop.column + 1)

/-- The range that four numerals make. -/
def Numerals.chars (numerals : Numerals) : List Char :=
  numerals.startLine ++ ':' :: (numerals.startColumn ++ '-' ::
    (numerals.stopLine ++ ':' :: numerals.stopColumn))

/-- The text is the range of the four numerals between blanks. -/
structure Numerals.Spells (numerals : Numerals) (text : List Char) : Prop where
  numeral : ∀ digits ∈ numerals.toList, Text.IsNumeral digits
  between : ∃ before after, text = before ++ (numerals.chars ++ after) ∧
    (∀ c ∈ before, Text.isBlank c = true) ∧ ∀ c ∈ after, Text.isBlank c = true

/-- The four numerals denote the numbers of a span. -/
def Numerals.Denotes (numerals : Numerals) (span : Span) : Prop :=
  numerals.toList.map (fun digits => (Text.numeralValue digits : Int)) = span.numbers

/-- The text is a selection range for the span. -/
def Ranges (text : String) (span : Span) : Prop :=
  span.Selectable ∧ ∃ numerals : Numerals, numerals.Spells text.toList ∧ numerals.Denotes span

/-- The text is a range of numerals of which one has more digits than are read. -/
def Overlong (text : String) : Prop :=
  ∃ numerals : Numerals, numerals.Spells text.toList ∧
    ∃ digits ∈ numerals.toList, numeralLimit < digits.length

/-- The text does not go on with a digit. -/
def NoDigit (text : List Char) : Prop :=
  ∀ c ∈ text.head?, Text.isDigit c = false

private theorem noDigit_cons {c : Char} {text : List Char} (other : Text.isDigit c = false) :
    NoDigit (c :: text) := by
  intro first member
  obtain rfl := Option.mem_some.mp member
  exact other

private theorem noDigit_of_blank {text : List Char} (blank : ∀ c ∈ text, Text.isBlank c = true) :
    NoDigit text :=
  fun c member => Text.not_isDigit_of_isBlank (blank c (List.mem_of_mem_head? member))

theorem numeral?_eq_some_iff {text digits rest : List Char} :
    numeral? text = some (digits, rest) ↔
      Text.IsNumeral digits ∧ text = digits ++ rest ∧ NoDigit rest := by
  constructor
  · intro found
    unfold numeral? at found
    split at found
    · cases found
    · next nonempty =>
        obtain ⟨rfl, rfl⟩ := Prod.mk.inj (Option.some.inj found)
        refine ⟨⟨nonempty, fun c member => List.mem_takeWhile_imp member⟩,
          List.takeWhile_append_dropWhile.symm, ?_⟩
        intro c member
        have stops := List.head?_dropWhile_not Text.isDigit text
        rw [Option.mem_def.mp member] at stops
        exact stops
  · rintro ⟨numeral, rfl, stops⟩
    have taken : rest.takeWhile Text.isDigit = [] ∧ rest.dropWhile Text.isDigit = rest := by
      cases rest with
      | nil => exact ⟨rfl, rfl⟩
      | cons c rest =>
          have other : ¬ Text.isDigit c = true := by
            rw [stops c rfl]
            exact Bool.false_ne_true
          exact ⟨List.takeWhile_cons_of_neg other, List.dropWhile_cons_of_neg other⟩
    unfold numeral?
    rw [List.takeWhile_append_of_pos numeral.all, List.dropWhile_append_of_pos numeral.all,
      taken.1, taken.2, List.append_nil]
    cases digits with
    | nil => exact absurd rfl numeral.nonempty
    | cons => rfl

theorem after?_eq_some_iff {c : Char} {text rest : List Char} :
    after? c text = some rest ↔ text = c :: rest := by
  cases text with
  | nil => simp [after?]
  | cons first others => simp [after?]

/-- What stands behind the blanks of a range starts with its first numeral. -/
theorem dropWhile_of_spells {numerals : Numerals} {before after : List Char}
    (numeral : Text.IsNumeral numerals.startLine) (blank : ∀ c ∈ before, Text.isBlank c = true) :
    (before ++ (numerals.chars ++ after)).dropWhile Text.isBlank = numerals.chars ++ after := by
  rw [List.dropWhile_append_of_pos blank, Numerals.chars]
  cases digits : numerals.startLine with
  | nil => exact absurd digits numeral.nonempty
  | cons c rest =>
      apply List.dropWhile_cons_of_neg
      intro isBlank
      have digit := numeral.all c (by rw [digits]; exact List.mem_cons_self)
      rw [Text.not_isDigit_of_isBlank isBlank] at digit
      cases digit

/-- A text is split into four numerals exactly when it is their range between blanks. -/
theorem numerals?_eq_some_iff {text : List Char} {numerals : Numerals} :
    numerals? text = some numerals ↔ numerals.Spells text := by
  constructor
  · intro found
    simp only [numerals?, Option.bind_eq_bind, Option.bind_eq_some_iff, Prod.exists,
      numeral?_eq_some_iff, after?_eq_some_iff] at found
    obtain ⟨first, _, ⟨isFirst, behind, _⟩, _, rfl, second, _, ⟨isSecond, rfl, _⟩, _, rfl, third, _,
      ⟨isThird, rfl, _⟩, _, rfl, fourth, after, ⟨isFourth, rfl, _⟩, ended⟩ := found
    split at ended
    · next blank =>
        obtain rfl := Option.some.inj ended
        refine ⟨?_, text.takeWhile Text.isBlank, after, ?_, ?_, List.all_eq_true.mp blank⟩
        · simp [Numerals.toList, isFirst, isSecond, isThird, isFourth]
        · calc
            text = text.takeWhile Text.isBlank ++ text.dropWhile Text.isBlank :=
              List.takeWhile_append_dropWhile.symm
            _ = _ := by simp [behind, Numerals.chars]
        · exact fun c member => List.mem_takeWhile_imp member
    · cases ended
  · rintro ⟨numeral, before, after, rfl, blankBefore, blankAfter⟩
    obtain ⟨isFirst, isSecond, isThird, isFourth⟩ :
        Text.IsNumeral numerals.startLine ∧ Text.IsNumeral numerals.startColumn ∧
          Text.IsNumeral numerals.stopLine ∧ Text.IsNumeral numerals.stopColumn := by
      simpa [Numerals.toList] using numeral
    have colon : Text.isDigit ':' = false := by decide
    have dash : Text.isDigit '-' = false := by decide
    have behind : (before ++ (numerals.chars ++ after)).dropWhile Text.isBlank =
        numerals.startLine ++ ':' :: (numerals.startColumn ++ '-' ::
          (numerals.stopLine ++ ':' :: (numerals.stopColumn ++ after))) := by
      rw [dropWhile_of_spells isFirst blankBefore]
      simp [Numerals.chars]
    have blank : after.all Text.isBlank = true := List.all_eq_true.mpr blankAfter
    simp only [numerals?, Option.bind_eq_bind, behind,
      numeral?_eq_some_iff.mpr ⟨isFirst, rfl, noDigit_cons colon⟩,
      numeral?_eq_some_iff.mpr ⟨isSecond, rfl, noDigit_cons dash⟩,
      numeral?_eq_some_iff.mpr ⟨isThird, rfl, noDigit_cons colon⟩,
      numeral?_eq_some_iff.mpr ⟨isFourth, rfl, noDigit_of_blank blankAfter⟩,
      after?_eq_some_iff.mpr rfl, Option.bind_some, if_pos blank]

theorem denotes_iff {numerals : Numerals} {span : Span} :
    numerals.Denotes span ↔
      (Text.numeralValue numerals.startLine : Int) = span.start.line ∧
      (Text.numeralValue numerals.startColumn : Int) = span.start.column + 1 ∧
      (Text.numeralValue numerals.stopLine : Int) = span.stop.line ∧
      (Text.numeralValue numerals.stopColumn : Int) = span.stop.column + 1 := by
  simp [Numerals.Denotes, Numerals.toList, Span.numbers]

/-- Four numerals have a span exactly when they denote one that a selection can stand for. -/
theorem span?_eq_some_iff {numerals : Numerals} {span : Span} :
    numerals.span? = some span ↔ span.Selectable ∧ numerals.Denotes span := by
  rw [denotes_iff]
  simp only [Numerals.span?]
  constructor
  · intro found
    split at found
    · cases found
    · next counted =>
        simp only [Bool.or_eq_true, decide_eq_true_eq, not_or, Nat.not_lt] at counted
        obtain ⟨⟨⟨one, two⟩, three⟩, four⟩ := counted
        split at found
        · cases found
        · next notBefore =>
            obtain rfl := Option.some.inj found
            have ordered := (Position.lt_or_ge _ _).resolve_left notBefore
            refine ⟨⟨?_, ?_, ?_, ?_, ordered⟩, rfl, ?_, rfl, ?_⟩ <;> simp only <;> omega
  · obtain ⟨⟨startLine, startColumn⟩, ⟨stopLine, stopColumn⟩⟩ := span
    rintro ⟨⟨one, two, three, four, ordered⟩, first, second, third, fourth⟩
    simp only at one two three four first second third fourth
    obtain rfl : startColumn = Text.numeralValue numerals.startColumn - 1 := by omega
    obtain rfl : stopColumn = Text.numeralValue numerals.stopColumn - 1 := by omega
    subst first third
    rw [if_neg, if_neg]
    · rw [Position.lt_iff]
      rw [Position.le_iff] at ordered
      simp only at ordered ⊢
      omega
    · simp only [Bool.or_eq_true, decide_eq_true_eq]
      omega

theorem ranges_iff {text : String} {span : Span} :
    (numerals? text.toList).bind Numerals.span? = some span ↔ Ranges text span := by
  simp only [Option.bind_eq_some_iff, numerals?_eq_some_iff, span?_eq_some_iff, Ranges]
  constructor
  · rintro ⟨numerals, spells, selectable, denotes⟩
    exact ⟨selectable, numerals, spells, denotes⟩
  · rintro ⟨selectable, numerals, spells, denotes⟩
    exact ⟨numerals, spells, selectable, denotes⟩

theorem parse_of_overlong {text : String} (overlong : Overlong text) :
    ∃ length, numeralLimit < length ∧ parse text = .error (.numeralTooLong length) := by
  obtain ⟨numerals, spells, digits, member, long⟩ := overlong
  rw [parse, numerals?_eq_some_iff.mpr spells]
  cases first : numerals.toList.find? (fun digits => numeralLimit < digits.length) with
  | none =>
      have short := List.find?_eq_none.mp first digits member
      exact absurd (decide_eq_true long) short
  | some found =>
      have isLong := List.find?_some first
      refine ⟨found.length, by simpa using isLong, ?_⟩
      simp only [first]

theorem parse_of_short {text : String} (short : ¬ Overlong text) :
    parse text =
      ((numerals? text.toList).bind Numerals.span?).elim (.error (.selection text)) .ok := by
  cases found : numerals? text.toList with
  | none => rw [parse, found, Option.bind_none, Option.elim_none]
  | some numerals =>
      have bounded : numerals.toList.find? (fun digits => numeralLimit < digits.length) = none := by
        apply List.find?_eq_none.mpr
        intro digits member long
        exact short ⟨numerals, numerals?_eq_some_iff.mp found, digits, member, by simpa using long⟩
      rw [parse, found, Option.bind_some]
      simp only [bounded]
      cases numerals.span? with
      | none => rfl
      | some span => rfl

theorem parse_eq_ok_iff {text : String} (short : ¬ Overlong text) {span : Span} :
    parse text = .ok span ↔ Ranges text span := by
  rw [parse_of_short short, ← ranges_iff]
  cases (numerals? text.toList).bind Numerals.span? with
  | none => exact ⟨nofun, nofun⟩
  | some other => simp

theorem parse_of_not_ranges {text : String} (short : ¬ Overlong text)
    (other : ∀ span, ¬ Ranges text span) : parse text = .error (.selection text) := by
  rw [parse_of_short short]
  cases found : (numerals? text.toList).bind Numerals.span? with
  | none => rfl
  | some span => exact absurd (ranges_iff.mp found) (other span)

/-- The decimal numerals of the numbers of a span. -/
def numeralsOf (span : Span) : Numerals where
  startLine := Nat.toDigits 10 span.start.line.toNat
  startColumn := Nat.toDigits 10 (span.start.column + 1).toNat
  stopLine := Nat.toDigits 10 span.stop.line.toNat
  stopColumn := Nat.toDigits 10 (span.stop.column + 1).toNat

private theorem toList_toString {n : Int} (counted : 0 ≤ n) :
    (toString n).toList = Nat.toDigits 10 n.toNat := by
  obtain ⟨number, rfl⟩ := Int.eq_ofNat_of_zero_le counted
  exact Nat.toList_repr

private theorem toList_render {span : Span} (selectable : span.Selectable) :
    (render span).toList = (numeralsOf span).chars := by
  obtain ⟨one, two, three, four, _⟩ := selectable
  rw [render]
  simp only [String.toList_append, toList_toString (show 0 ≤ span.start.line by omega),
    toList_toString (show 0 ≤ span.start.column + 1 by omega),
    toList_toString (show 0 ≤ span.stop.line by omega),
    toList_toString (show 0 ≤ span.stop.column + 1 by omega)]
  simp [numeralsOf, Numerals.chars]

theorem spells_render {span : Span} (selectable : span.Selectable) :
    (numeralsOf span).Spells (render span).toList := by
  refine ⟨?_, [], [], ?_, nofun, nofun⟩
  · simp [numeralsOf, Numerals.toList, Text.isNumeral_toDigits]
  · rw [toList_render selectable, List.nil_append, List.append_nil]

theorem ranges_render {span : Span} (selectable : span.Selectable) : Ranges (render span) span := by
  refine ⟨selectable, numeralsOf span, spells_render selectable, ?_⟩
  obtain ⟨one, two, three, four, _⟩ := selectable
  rw [denotes_iff]
  simp only [numeralsOf, Text.numeralValue_toDigits]
  omega

theorem Numerals.Spells.unique {first second : Numerals} {text : List Char}
    (left : first.Spells text) (right : second.Spells text) : first = second :=
  Option.some.inj ((numerals?_eq_some_iff.mpr left).symm.trans (numerals?_eq_some_iff.mpr right))

theorem not_overlong_of_spells {numerals : Numerals} {text : String}
    (spells : numerals.Spells text.toList)
    (short : ∀ digits ∈ numerals.toList, digits.length ≤ numeralLimit) : ¬ Overlong text := by
  rintro ⟨other, otherSpells, digits, member, long⟩
  rw [otherSpells.unique spells] at member
  have bounded := short digits member
  omega

theorem not_overlong_render {span : Span} (selectable : span.Selectable)
    (short : ∀ number ∈ span.numbers, (toString number).length ≤ numeralLimit) :
    ¬ Overlong (render span) := by
  apply not_overlong_of_spells (spells_render selectable)
  have written : (numeralsOf span).toList =
      span.numbers.map (fun number => (toString number).toList) := by
    obtain ⟨one, two, three, four, _⟩ := selectable
    simp only [numeralsOf, Numerals.toList, Span.numbers, List.map_cons, List.map_nil]
    rw [toList_toString (by omega), toList_toString (by omega), toList_toString (by omega),
      toList_toString (by omega)]
  rw [written]
  intro digits member
  obtain ⟨number, listed, rfl⟩ := List.mem_map.mp member
  exact short number listed

/-- A text without overlong numerals is read if it is a selection range and refused by name if it is
none; an overlong numeral is a fault of its own; what is written for a span is read as it. -/
theorem reads_selection_ranges (text : String) :
    (¬ Overlong text → (∀ span, parse text = .ok span ↔ Ranges text span) ∧
      ((∀ span, ¬ Ranges text span) → parse text = .error (.selection text))) ∧
    (Overlong text →
      ∃ length, numeralLimit < length ∧ parse text = .error (.numeralTooLong length)) ∧
    ∀ span : Span, span.Selectable → text = render span →
      (∀ number ∈ span.numbers, (toString number).length ≤ numeralLimit) →
      parse text = .ok span := by
  refine ⟨?_, parse_of_overlong, ?_⟩
  · intro short
    exact ⟨fun span => parse_eq_ok_iff short, parse_of_not_ranges short⟩
  · rintro span selectable rfl short
    exact (parse_eq_ok_iff (not_overlong_render selectable short)).mpr (ranges_render selectable)

/-- A range with a digit of another script, between blanks, is read, and so is what is written for
its span. -/
theorem reads_selection_ranges_script : ∃ span, Ranges " ٢:1-3:10\n" span ∧
    parse " ٢:1-3:10\n" = .ok span ∧ parse (render span) = .ok span := by
  have selectable : Span.Selectable ⟨⟨2, 0⟩, ⟨3, 9⟩⟩ := by constructor <;> decide
  have spells : Numerals.Spells ⟨['٢'], ['1'], ['3'], ['1', '0']⟩ " ٢:1-3:10\n".toList := by
    refine ⟨?_, [' '], ['\n'], by decide, List.all_eq_true.mp rfl, List.all_eq_true.mp rfl⟩
    simp only [Numerals.toList, List.forall_mem_cons]
    refine ⟨?_, ?_, ?_, ?_, nofun⟩ <;> exact Text.isNumeral_of_all (List.cons_ne_nil _ _) rfl
  have ranges : Ranges " ٢:1-3:10\n" ⟨⟨2, 0⟩, ⟨3, 9⟩⟩ :=
    ⟨selectable, _, spells, denotes_iff.mpr ⟨rfl, rfl, rfl, rfl⟩⟩
  have short : ¬ Overlong " ٢:1-3:10\n" := not_overlong_of_spells spells (by decide)
  obtain ⟨reads, _⟩ := reads_selection_ranges " ٢:1-3:10\n"
  obtain ⟨_, _, written⟩ := reads_selection_ranges (render ⟨⟨2, 0⟩, ⟨3, 9⟩⟩)
  exact ⟨_, ranges, ((reads short).1 _).mpr ranges, written _ selectable rfl (by decide)⟩

/-- The numerals of a range whose first numeral is a long row of zeros. -/
def zeroNumerals : Numerals :=
  ⟨List.replicate (numeralLimit + 1) '0', ['1'], ['1'], ['1']⟩

/-- The range that they make. -/
def zeroRange : String :=
  String.ofList zeroNumerals.chars

private theorem spells_zeroRange : zeroNumerals.Spells zeroRange.toList := by
  refine ⟨?_, [], [], ?_, nofun, nofun⟩
  · simp only [zeroNumerals, Numerals.toList, List.forall_mem_cons]
    refine ⟨⟨List.cons_ne_nil _ _, ?_⟩, ?_, ?_, ?_, nofun⟩
    · intro c member
      rw [List.eq_of_mem_replicate member]
      rfl
    all_goals exact Text.isNumeral_of_all (List.cons_ne_nil _ _) rfl
  · rw [zeroRange, String.toList_ofList, List.nil_append, List.append_nil]

private theorem numeralValue_zeros (count : Nat) : Text.numeralValue
    (List.replicate count '0') = 0 := by
  induction count with
  | zero => rfl
  | succ count induction => exact induction

/-- The row of zeros denotes no line, so the text is no selection range, and still it is not refused
by name. -/
theorem overlong_not_refused : (∀ span, ¬ Ranges zeroRange span) ∧
    parse zeroRange = .error (.numeralTooLong (numeralLimit + 1)) ∧
    parse zeroRange ≠ .error (.selection zeroRange) := by
  have failed : parse zeroRange = .error (.numeralTooLong (numeralLimit + 1)) := by
    rw [parse, numerals?_eq_some_iff.mpr spells_zeroRange]
    have first : zeroNumerals.toList.find? (fun digits => numeralLimit < digits.length) =
        some (List.replicate (numeralLimit + 1) '0') := by
      have long : numeralLimit < zeroNumerals.startLine.length := by
        rw [zeroNumerals, List.length_replicate]
        exact Nat.lt_succ_self _
      exact List.find?_cons_of_pos (decide_eq_true long)
    simp only [first, List.length_replicate]
  refine ⟨?_, failed, ?_⟩
  · rintro span ⟨selectable, numerals, spells, denotes⟩
    obtain rfl := spells.unique spells_zeroRange
    have line := (denotes_iff.mp denotes).1
    have counted := selectable.startLine
    rw [← line, zeroNumerals, numeralValue_zeros] at counted
    omega
  · rw [failed]
    nofun

end Selection
end SafeRefactor
