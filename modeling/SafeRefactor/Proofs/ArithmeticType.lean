import SafeRefactor.Proofs.Subtree
import SafeRefactor.Text.Digit
import SafeRefactor.Tree.Inference

/-!
# Types of arithmetic

Literal numbers and truth values, signs and the four operations have values.  Truth values
count as whole numbers, so no operation gives one; a quotient is always a floating-point
number.  The type that is inferred for such an expression is compared with the type of its
value.  Floating-point arithmetic itself is left open: conversions and operations may fail.
-/

namespace SafeRefactor

/-- A value of arithmetic. -/
inductive Quantity (F : Type) where
  | truth (value : Bool)
  | whole (value : Int)
  | real (value : F)

namespace Quantity

variable {F : Type}

def typeName : Quantity F → String
  | .truth _ => "bool"
  | .whole _ => "int"
  | .real _ => "float"

/-- The whole number that a value counts as. -/
def whole? : Quantity F → Option Int
  | .truth value => some (if value then 1 else 0)
  | .whole value => some value
  | .real _ => none

end Quantity

/-- Whether an operator is one of the four operations of arithmetic. -/
def BinaryOperator.isArithmetic : BinaryOperator → Bool
  | .add | .sub | .mult | .div => true
  | _ => false

/-- Floating-point arithmetic.  Reading a literal, converting a whole number and the operations
may fail. -/
structure FloatingPoint (F : Type) where
  read : String → Option F
  ofInt : Int → Option F
  negate : F → F
  /-- The quotient of two whole numbers. -/
  quotient : Int → Int → Option F
  operate : BinaryOperator → F → F → Option F

namespace FloatingPoint

variable {F : Type} (floats : FloatingPoint F)

def literal (kind : LiteralKind) (text : String) : Option (Quantity F) :=
  match kind with
  | .int => some (.whole (Text.numeralValue text.toList))
  | .float => (floats.read text).map .real
  | .bool => some (.truth (text = "True"))
  | _ => none

/-- The value of a signed operand. -/
def sign (operator : UnaryOperator) (operand : Quantity F) : Option (Quantity F) :=
  match operator, operand with
  | .plus, .real value => some (.real value)
  | .minus, .real value => some (.real (floats.negate value))
  | .plus, other => other.whole?.map .whole
  | .minus, other => other.whole?.map (fun value => .whole (-value))
  | _, _ => none

/-- A value as a floating-point number. -/
def approximate : Quantity F → Option F
  | .real value => some value
  | other => other.whole?.bind floats.ofInt

/-- The value of an operation.  Two whole numbers are divided into a floating-point number. -/
def combine (operator : BinaryOperator) (left right : Quantity F) : Option (Quantity F) :=
  match operator.isArithmetic, left.whole?, right.whole? with
  | false, _, _ => none
  | true, some first, some second =>
      match operator with
      | .add => some (.whole (first + second))
      | .sub => some (.whole (first - second))
      | .mult => some (.whole (first * second))
      | _ => (floats.quotient first second).map .real
  | true, _, _ => do
      let first ← floats.approximate left
      let second ← floats.approximate right
      (floats.operate operator first second).map .real

/-- The values that the evaluation of arithmetic expressions yields. -/
inductive Evaluates : Node → Quantity F → Prop where
  | literal {kind : LiteralKind} {text : String} {info : Info} {value : Quantity F} :
      floats.literal kind text = some value →
      Evaluates (.mk (.constant kind text) info []) value
  | signed {operator : UnaryOperator} {info : Info} {operand : Node} {inner value : Quantity F} :
      operand.role = .operand → Evaluates operand inner →
      floats.sign operator inner = some value →
      Evaluates (.mk (.unaryOp operator) info [operand]) value
  | combined {operator : BinaryOperator} {info : Info} {left right : Node}
      {first second value : Quantity F} :
      left.role = .left → right.role = .right → Evaluates left first → Evaluates right second →
      floats.combine operator first second = some value →
      Evaluates (.mk (.binOp operator) info [left, right]) value

end FloatingPoint

/-- The type of an operation: a quotient and whatever involves a floating-point number is one, and
all else is whole. -/
def resultType (operator : BinaryOperator) (left right : String) : String :=
  if operator = .div ∨ left = "float" ∨ right = "float" then "float" else "int"

namespace Quantity

variable {F : Type} {quantity : Quantity F}

@[simp]
theorem typeName_truth (value : Bool) : (truth value : Quantity F).typeName = "bool" :=
  rfl

@[simp]
theorem typeName_whole (value : Int) : (whole value : Quantity F).typeName = "int" :=
  rfl

@[simp]
theorem typeName_real (value : F) : (real value).typeName = "float" :=
  rfl

private theorem not_float_of_whole? {number : Int} (counts : quantity.whole? = some number) :
    quantity.typeName ≠ "float" := by
  cases quantity with
  | real value => cases counts
  | _ => simp

private theorem float_of_whole? (real : quantity.whole? = none) : quantity.typeName = "float" := by
  cases quantity with
  | real value => rfl
  | _ => cases real

end Quantity

namespace FloatingPoint

variable {F : Type} {floats : FloatingPoint F} {value left right : Quantity F}

theorem typeName_sign {operator : UnaryOperator} (signed : floats.sign operator left = some value) :
    (operator = .plus ∨ operator = .minus) ∧
      value.typeName = if left.typeName = "float" then "float" else "int" := by
  unfold sign at signed
  split at signed
  · obtain rfl := Option.some.inj signed
    exact ⟨Or.inl rfl, rfl⟩
  · obtain rfl := Option.some.inj signed
    exact ⟨Or.inr rfl, rfl⟩
  · obtain ⟨number, counts, rfl⟩ := Option.map_eq_some_iff.mp signed
    exact ⟨Or.inl rfl, (if_neg (Quantity.not_float_of_whole? counts)).symm⟩
  · obtain ⟨number, counts, rfl⟩ := Option.map_eq_some_iff.mp signed
    exact ⟨Or.inr rfl, (if_neg (Quantity.not_float_of_whole? counts)).symm⟩
  · cases signed

theorem typeName_combine {operator : BinaryOperator}
    (combined : floats.combine operator left right = some value) :
    value.typeName = resultType operator left.typeName right.typeName := by
  have real (isReal : left.typeName = "float" ∨ right.typeName = "float")
      (combined : ((floats.approximate left).bind fun first =>
        (floats.approximate right).bind fun second =>
          (floats.operate operator first second).map .real) = some value) :
      value.typeName = resultType operator left.typeName right.typeName := by
    obtain ⟨first, _, combined⟩ := Option.bind_eq_some_iff.mp combined
    obtain ⟨second, _, combined⟩ := Option.bind_eq_some_iff.mp combined
    obtain ⟨result, _, rfl⟩ := Option.map_eq_some_iff.mp combined
    exact (if_pos (Or.inr isReal)).symm
  unfold combine at combined
  cases arithmetic : operator.isArithmetic with
  | false => simp [arithmetic] at combined
  | true =>
      rw [arithmetic] at combined
      cases countsLeft : left.whole? with
      | none =>
          rw [countsLeft] at combined
          exact real (Or.inl (Quantity.float_of_whole? countsLeft)) combined
      | some first =>
          cases countsRight : right.whole? with
          | none =>
              rw [countsLeft, countsRight] at combined
              exact real (Or.inr (Quantity.float_of_whole? countsRight)) combined
          | some second =>
              rw [countsLeft, countsRight] at combined
              have notLeft := Quantity.not_float_of_whole? countsLeft
              have notRight := Quantity.not_float_of_whole? countsRight
              cases operator with
              | add | sub | mult =>
                  obtain rfl := Option.some.inj combined
                  simp [resultType, notLeft, notRight]
              | div =>
                  obtain ⟨quotient, _, rfl⟩ := Option.map_eq_some_iff.mp combined
                  simp [resultType]
              | _ => cases arithmetic

private theorem inferType_signed (known : List String) {operator : UnaryOperator} {info : Info}
    {operand : Node} (sign : operator = .plus ∨ operator = .minus)
    (isOperand : operand.role = .operand) :
    inferType known (.mk (.unaryOp operator) info [operand]) = inferType known operand := by
  rcases sign with rfl | rfl <;> simp [inferType, inferTypesIn, isOperand]

private theorem inferType_combined (known : List String) {operator : BinaryOperator} {info : Info}
    {left right : Node} (isLeft : left.role = .left) (isRight : right.role = .right) :
    inferType known (.mk (.binOp operator) info [left, right]) =
      binaryType operator (inferType known left) (inferType known right) := by
  simp [inferType, inferTypesIn, isLeft, isRight]

end FloatingPoint

namespace Node

def isLiteral (node : Node) : Bool :=
  match node.form with
  | .constant _ _ => true
  | _ => false

def isNumber (node : Node) : Bool :=
  match node.form with
  | .constant .int _ | .constant .float _ => true
  | _ => false

/-- Whether a literal number stands in the expression. -/
def hasNumber (node : Node) : Bool :=
  node.nodes.any isNumber

private theorem hasNumber_mk (form : Form) (info : Info) (children : List Node) :
    (Node.mk form info children).hasNumber =
      ((Node.mk form info children).isNumber || children.any hasNumber) := by
  have parts : (nodesList children).any isNumber = children.any hasNumber := by
    induction children with
    | nil => rfl
    | cons child rest induction => simp [nodesList, hasNumber, induction]
  rw [hasNumber, nodes, List.any_cons, parts]

end Node

private theorem isNumeric_iff {type : String} :
    isNumeric type = true ↔ type = "int" ∨ type = "float" := by
  simp [isNumeric]

private theorem isNumeric_resultType (operator : BinaryOperator) (left right : String) :
    isNumeric (resultType operator left right) = true := by
  unfold resultType
  split <;> rfl

theorem binaryType_of_numbers (operator : BinaryOperator) {left right : String}
    (numberLeft : isNumeric left = true) (numberRight : isNumeric right = true) :
    binaryType operator left right = resultType operator left right := by
  rcases isNumeric_iff.mp numberLeft with rfl | rfl <;>
    rcases isNumeric_iff.mp numberRight with rfl | rfl <;> cases operator <;> rfl

theorem binaryType_of_truths (operator : BinaryOperator) :
    binaryType operator "bool" "bool" = "bool" := by
  cases operator <;> rfl

/-- Nothing is known of operands of different types one of which is no type of numbers. -/
theorem binaryType_of_others (operator : BinaryOperator) {left right : String}
    (other : isNumeric left = false ∨ isNumeric right = false) (notText : left ≠ "str")
    (different : left ≠ right) : binaryType operator left right = anyType := by
  rcases other with other | other <;> simp [binaryType, other, notText, different]

theorem binaryType_of_unknown (operator : BinaryOperator) :
    binaryType operator anyType anyType = anyType := by
  cases operator <;> rfl

private theorem ne_of_isNumeric {left right : String} (number : isNumeric left = true)
    (other : isNumeric right = false) : left ≠ right := by
  rintro rfl
  rw [number] at other
  cases other

/-- What may be inferred for an operand whose value has a given type. -/
inductive Guess (type : String) : String → Prop where
  | unknown : Guess type anyType
  | right : isNumeric type = true → Guess type type
  | truth : Guess type "bool"

/-- Unless both operands are taken for truth values, what is inferred for an operation is right or
nothing. -/
theorem Guess.combine (operator : BinaryOperator) {left right first second : String}
    (ofLeft : Guess first left) (ofRight : Guess second right)
    (number : left ≠ "bool" ∨ right ≠ "bool") :
    binaryType operator left right = anyType ∨
      binaryType operator left right = resultType operator first second := by
  cases ofLeft with
  | unknown =>
      left
      cases ofRight with
      | unknown => exact binaryType_of_unknown operator
      | right isNumber =>
          exact binaryType_of_others operator (Or.inl rfl) (by decide)
            (ne_of_isNumeric isNumber rfl).symm
      | truth => exact binaryType_of_others operator (Or.inl rfl) (by decide) (by decide)
  | right isNumber =>
      cases ofRight with
      | right isNumberRight =>
          right
          exact binaryType_of_numbers operator isNumber isNumberRight
      | unknown | truth =>
          left
          exact binaryType_of_others operator (Or.inr rfl) (ne_of_isNumeric isNumber rfl)
            (ne_of_isNumeric isNumber rfl)
  | truth =>
      left
      cases ofRight with
      | unknown => exact binaryType_of_others operator (Or.inl rfl) (by decide) (by decide)
      | right isNumber =>
          exact binaryType_of_others operator (Or.inl rfl) (by decide)
            (ne_of_isNumeric isNumber rfl).symm
      | truth => exact absurd rfl (number.elim id id)

namespace FloatingPoint

variable {F : Type} {floats : FloatingPoint F} {node : Node} {value : Quantity F}

private theorem isNumeric_sign {operator : UnaryOperator} {operand : Quantity F}
    (signed : floats.sign operator operand = some value) : isNumeric value.typeName = true := by
  rw [(typeName_sign signed).2]
  split <;> rfl

/-- An expression of truth values alone is taken for a truth value, which only a literal is. -/
theorem Evaluates.of_truths (evaluates : floats.Evaluates node value)
    (truths : node.hasNumber = false) (known : List String) :
    inferType known node = "bool" ∧ (node.isLiteral = false → isNumeric value.typeName = true) ∧
      (node.isLiteral = true → value.typeName = "bool") := by
  induction evaluates with
  | @literal kind text info value denotes =>
      rw [Node.hasNumber_mk] at truths
      cases kind with
      | bool =>
          obtain rfl := Option.some.inj denotes
          exact ⟨rfl, nofun, fun _ => rfl⟩
      | int | float => cases truths
      | _ => cases denotes
  | @signed operator info operand inner value isOperand _ denotes induction =>
      have inside : operand.hasNumber = false := by
        simpa [Node.hasNumber_mk, Node.isNumber] using truths
      rw [inferType_signed known (typeName_sign denotes).1 isOperand]
      exact ⟨(induction inside).1, fun _ => isNumeric_sign denotes, nofun⟩
  | @combined operator info left right first second value isLeft isRight _ _ denotes
    ofLeft ofRight =>
      have inside : left.hasNumber = false ∧ right.hasNumber = false := by
        simpa [Node.hasNumber_mk, Node.isNumber] using truths
      rw [inferType_combined known isLeft isRight, (ofLeft inside.1).1, (ofRight inside.2).1,
        typeName_combine denotes]
      exact ⟨binaryType_of_truths operator, fun _ => isNumeric_resultType _ _ _, nofun⟩

theorem Evaluates.of_numbers (evaluates : floats.Evaluates node value)
    (number : node.hasNumber = true) (known : List String) :
    isNumeric value.typeName = true ∧
      (inferType known node = anyType ∨ inferType known node = value.typeName) := by
  induction evaluates with
  | @literal kind text info value denotes =>
      rw [Node.hasNumber_mk] at number
      cases kind with
      | int =>
          obtain rfl := Option.some.inj denotes
          exact ⟨rfl, Or.inr rfl⟩
      | float =>
          obtain ⟨real, _, rfl⟩ := Option.map_eq_some_iff.mp denotes
          exact ⟨rfl, Or.inr rfl⟩
      | _ => cases number
  | @signed operator info operand inner value isOperand _ denotes induction =>
      obtain ⟨sign, type⟩ := typeName_sign denotes
      have inside : operand.hasNumber = true := by
        simpa [Node.hasNumber_mk, Node.isNumber] using number
      obtain ⟨isNumber, inferred⟩ := induction inside
      have kept : value.typeName = inner.typeName := by
        rcases isNumeric_iff.mp isNumber with whole | real
        · rw [type, whole]
          rfl
        · rw [type, real]
          rfl
      rw [inferType_signed known sign isOperand, kept]
      exact ⟨isNumber, inferred⟩
  | @combined operator info left right first second value isLeft isRight evaluatesLeft
    evaluatesRight
      denotes ofLeft ofRight =>
      have inside : left.hasNumber = true ∨ right.hasNumber = true := by
        simpa [Node.hasNumber_mk, Node.isNumber] using number
      have guess {operand : Node} {inner : Quantity F} (evaluates : floats.Evaluates operand inner)
          (induction : operand.hasNumber = true → isNumeric inner.typeName = true ∧
            (inferType known operand = anyType ∨ inferType known operand = inner.typeName)) :
          Guess inner.typeName (inferType known operand) ∧
            (operand.hasNumber = true → inferType known operand ≠ "bool") := by
        cases hasNumber : operand.hasNumber with
        | false =>
            rw [(evaluates.of_truths hasNumber known).1]
            exact ⟨.truth, nofun⟩
        | true =>
            obtain ⟨isNumber, unknown | right⟩ := induction hasNumber
            · rw [unknown]
              exact ⟨.unknown, fun _ => by decide⟩
            · rw [right]
              exact ⟨.right isNumber, fun _ => ne_of_isNumeric isNumber rfl⟩
      obtain ⟨guessLeft, numberLeft⟩ := guess evaluatesLeft ofLeft
      obtain ⟨guessRight, numberRight⟩ := guess evaluatesRight ofRight
      rw [inferType_combined known isLeft isRight, typeName_combine denotes]
      exact ⟨isNumeric_resultType _ _ _,
        guessLeft.combine operator guessRight (inside.imp numberLeft numberRight)⟩

/-- Inferred arithmetic types are right except for operations on truth values alone.  If evaluation
of an arithmetic expression yields a value and a type is inferred for the expression, then it is
the type of the value exactly when the expression is a literal or has a literal number in it; else
`bool` is inferred although the value is a number. -/
theorem inferred_type_is_right_iff (evaluates : floats.Evaluates node value) (known : List String)
    (inferred : inferType known node ≠ anyType) :
    (inferType known node = value.typeName ↔
        node.isLiteral = true ∨ node.hasNumber = true) ∧
      (inferType known node ≠ value.typeName →
        inferType known node = "bool" ∧ isNumeric value.typeName = true) := by
  cases hasNumber : node.hasNumber with
  | true =>
      have right := (evaluates.of_numbers hasNumber known).2.resolve_left inferred
      exact ⟨⟨fun _ => Or.inr rfl, fun _ => right⟩, fun wrong => absurd right wrong⟩
  | false =>
      obtain ⟨truth, operation, literal⟩ := evaluates.of_truths hasNumber known
      rw [truth]
      cases isLiteral : node.isLiteral with
      | true => simp [literal isLiteral]
      | false =>
          have isNumber := operation isLiteral
          have different := (ne_of_isNumeric isNumber (show isNumeric "bool" = false from rfl)).symm
          simp [different, isNumber]

/-- Arithmetic on 64-bit floating-point numbers, for literals in plain decimal notation and whole
numbers in their range.  Division by zero fails. -/
def binary64 : FloatingPoint Float where
  read text :=
    match Text.split '.' text with
    | [whole, decimals] =>
        some (.ofScientific (Text.numeralValue (whole.toList ++ decimals.toList)) true
          decimals.length)
    | _ => none
  ofInt number := some (.ofInt number)
  negate value := -value
  quotient left right := if right = 0 then none else some (.ofInt left / .ofInt right)
  operate operator left right :=
    match operator with
    | .add => some (left + right)
    | .sub => some (left - right)
    | .mult => some (left * right)
    | .div => if right == 0 then none else some (left / right)
    | _ => none

def literalNode (role : Role) (kind : LiteralKind) (text : String) : Node :=
  .mk (.constant kind text) { role } []

/-- The expression `-2 / 4 + 1`. -/
def shiftedQuotient : Node :=
  .mk (.binOp .add) {} [
    .mk (.binOp .div) { role := .left } [
      .mk (.unaryOp .minus) { role := .left } [literalNode .operand .int "2"],
      literalNode .right .int "4"],
    literalNode .right .int "1"]

/-- The type of a quotient to which a whole number is added is inferred. -/
theorem inferred_type_is_right_iff_quotient :
    ∃ value, binary64.Evaluates shiftedQuotient value ∧
      inferType [] shiftedQuotient ≠ anyType ∧ shiftedQuotient.hasNumber = true ∧
        inferType [] shiftedQuotient = value.typeName := by
  have evaluates : binary64.Evaluates shiftedQuotient
      (.real (.ofInt (-2) / .ofInt 4 + .ofInt 1)) :=
    .combined rfl rfl (.combined rfl rfl (.signed rfl (.literal rfl) rfl) (.literal rfl) rfl)
      (.literal rfl) rfl
  have inferred : inferType [] shiftedQuotient ≠ anyType := by decide
  have number : shiftedQuotient.hasNumber = true := by decide
  exact ⟨_, evaluates, inferred, number,
    (inferred_type_is_right_iff evaluates [] inferred).1.mpr (Or.inr number)⟩

def addedTruths : Node :=
  .mk (.binOp .add) {} [literalNode .left .bool "True", literalNode .right .bool "True"]

/-- A sum of truth values is taken for a truth value, and it is a whole number. -/
theorem added_truths_inferred_bool :
    ∃ value, binary64.Evaluates addedTruths value ∧ value.typeName = "int" ∧
      inferType [] addedTruths = "bool" ∧ inferType [] addedTruths ≠ anyType ∧
        inferType [] addedTruths ≠ value.typeName := by
  have evaluates : binary64.Evaluates addedTruths (.whole 2) :=
    .combined rfl rfl (.literal rfl) (.literal rfl) rfl
  exact ⟨_, evaluates, rfl, by decide, by decide, by decide⟩

end FloatingPoint

end SafeRefactor
