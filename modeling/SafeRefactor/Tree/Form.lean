import SafeRefactor.Fault
import SafeRefactor.Text.Pieces

/-!
# Forms of syntax

The forms of Python syntax that the analyses tell apart, and the roles that a
node can play in the construct around it.  A form carries the names and flags of
its construct; everything that is a construct of its own is a child node.
-/

namespace SafeRefactor

/-- How an expression is used: read, bound or deleted. -/
inductive Context where
  | load
  | store
  | del
deriving DecidableEq, Repr

inductive LiteralKind where
  | int
  | float
  | complex
  | str
  | bytes
  | bool
  | none
  | ellipsis
deriving DecidableEq, Repr

/-- Name of the runtime type of a literal; the null literal is its own type name. -/
def LiteralKind.typeName : LiteralKind → String
  | .int => "int"
  | .float => "float"
  | .complex => "complex"
  | .str => "str"
  | .bytes => "bytes"
  | .bool => "bool"
  | .none => "None"
  | .ellipsis => "ellipsis"

inductive BinaryOperator where
  | add
  | sub
  | mult
  | matMult
  | div
  | floorDiv
  | mod
  | pow
  | shiftLeft
  | shiftRight
  | bitOr
  | bitXor
  | bitAnd
deriving DecidableEq, Repr

inductive UnaryOperator where
  | not
  | plus
  | minus
  | invert
deriving DecidableEq, Repr

/-- The four comprehension expressions. -/
inductive ComprehensionKind where
  | list
  | set
  | dict
  | generator
deriving DecidableEq, Repr

/-- An expression written out in normal form, or why it has none: what stands in a replacement field
of a string must do without a backslash. -/
inductive Printed where
  | text (text : String)
  | refused (reason : String)
deriving DecidableEq, Repr

namespace Printed

/-- Why there is no text. -/
def fault? : Printed → Option Fault
  | .text _ => none
  | .refused reason => some (.unprintable reason)

def get : Printed → Except Fault String
  | .text written => .ok written
  | .refused reason => .error (.unprintable reason)

theorem exists_get {printed : Printed} (plain : printed.fault? = none) :
    ∃ written, printed.get = .ok written := by
  cases printed with
  | text written => exact ⟨written, rfl⟩
  | refused => cases plain

end Printed

/-- An annotation written out, and the part in brackets if it is a subscript. -/
structure TypeText where
  text : Printed
  sliceText : Option Printed := none
deriving DecidableEq, Repr

/-- The role a node plays in the construct that directly contains it. -/
inductive Role where
  | root
  | body
  | orelse
  | finalbody
  | handler
  | arm
  | decorator
  | base
  | keyword
  | parameters
  | returns
  | positionalOnly
  | positional
  | variadic
  | keywordOnly
  | keywordVariadic
  | default
  | keywordDefault
  | typeHint
  | target
  | value
  | iterable
  | test
  | item
  | context
  | subject
  | pattern
  | guard
  | cause
  | caught
  | message
  | imported
  | left
  | right
  | operand
  | result
  | alternative
  | key
  | element
  | clause
  | condition
  | callee
  | argument
  | format
  | index
  | lower
  | upper
  | step
  | matchedClass
  | keywordPattern
deriving DecidableEq, Repr

def Role.isParameter : Role → Bool
  | .positionalOnly | .positional | .variadic | .keywordOnly | .keywordVariadic => true
  | _ => false

/-- Whether the role is that of a parameter that is passed by position. -/
def Role.isPositional : Role → Bool
  | .positionalOnly | .positional => true
  | _ => false

/-- Whether the role is that of a statement in one of the statement lists of a construct. -/
def Role.isBlock : Role → Bool
  | .body | .orelse | .finalbody => true
  | _ => false

/-- What kind of construct a node is. -/
inductive Form where
  | module
  | functionDef (isAsync : Bool) (name : String) (returns : Option Printed)
  | classDef (name : String)
  | returnStmt
  | deleteStmt
  | assign
  | augAssign
  | annAssign (hint : TypeText)
  | forLoop (isAsync : Bool)
  | whileLoop
  | ifStmt
  | withStmt (isAsync : Bool)
  | matchStmt
  | raiseStmt
  | tryStmt (isGroup : Bool)
  | assertStmt
  | importStmt
  | importFrom (module : Option String) (level : Nat)
  | globalStmt (names : List String)
  | nonlocalStmt (names : List String)
  | exprStmt
  | passStmt
  | breakStmt
  | continueStmt
  | boolOp
  | namedExpr
  | binOp (operator : BinaryOperator)
  | unaryOp (operator : UnaryOperator)
  | lambda
  | ifExp
  | dict
  | set
  | comprehension (kind : ComprehensionKind)
  | await
  | yield
  | yieldFrom
  | compare
  | call
  | formattedValue
  | joinedStr
  | constant (kind : LiteralKind) (text : String)
  | attribute (name : String) (context : Context)
  | subscript (context : Context)
  | starred (context : Context)
  | name (id : String) (context : Context)
  | list (context : Context)
  | tuple (context : Context)
  | slice
  | clause (isAsync : Bool)
  | handler (name : Option String) (caught : Option Printed)
  | parameters (keywordDefaults : List Bool)
  | parameter (name : String) (hint : Option Printed)
  | keyword (name : Option String)
  | alias (name : String) (asName : Option String)
  | withItem
  | matchCase
  | matchValue
  | matchSingleton
  | matchSequence
  | matchMapping (rest : Option String)
  | matchClass (keywords : List String)
  | matchStar (name : Option String)
  | matchAs (name : Option String)
  | matchOr

namespace Form

/-- The grammar's name for the kind of construct. -/
def label : Form → String
  | .module => "Module"
  | .functionDef false _ _ => "FunctionDef"
  | .functionDef true _ _ => "AsyncFunctionDef"
  | .classDef _ => "ClassDef"
  | .returnStmt => "Return"
  | .deleteStmt => "Delete"
  | .assign => "Assign"
  | .augAssign => "AugAssign"
  | .annAssign _ => "AnnAssign"
  | .forLoop false => "For"
  | .forLoop true => "AsyncFor"
  | .whileLoop => "While"
  | .ifStmt => "If"
  | .withStmt false => "With"
  | .withStmt true => "AsyncWith"
  | .matchStmt => "Match"
  | .raiseStmt => "Raise"
  | .tryStmt false => "Try"
  | .tryStmt true => "TryStar"
  | .assertStmt => "Assert"
  | .importStmt => "Import"
  | .importFrom _ _ => "ImportFrom"
  | .globalStmt _ => "Global"
  | .nonlocalStmt _ => "Nonlocal"
  | .exprStmt => "Expr"
  | .passStmt => "Pass"
  | .breakStmt => "Break"
  | .continueStmt => "Continue"
  | .boolOp => "BoolOp"
  | .namedExpr => "NamedExpr"
  | .binOp _ => "BinOp"
  | .unaryOp _ => "UnaryOp"
  | .lambda => "Lambda"
  | .ifExp => "IfExp"
  | .dict => "Dict"
  | .set => "Set"
  | .comprehension .list => "ListComp"
  | .comprehension .set => "SetComp"
  | .comprehension .dict => "DictComp"
  | .comprehension .generator => "GeneratorExp"
  | .await => "Await"
  | .yield => "Yield"
  | .yieldFrom => "YieldFrom"
  | .compare => "Compare"
  | .call => "Call"
  | .formattedValue => "FormattedValue"
  | .joinedStr => "JoinedStr"
  | .constant _ _ => "Constant"
  | .attribute _ _ => "Attribute"
  | .subscript _ => "Subscript"
  | .starred _ => "Starred"
  | .name _ _ => "Name"
  | .list _ => "List"
  | .tuple _ => "Tuple"
  | .slice => "Slice"
  | .clause _ => "comprehension"
  | .handler _ _ => "ExceptHandler"
  | .parameters _ => "arguments"
  | .parameter _ _ => "arg"
  | .keyword _ => "keyword"
  | .alias _ _ => "alias"
  | .withItem => "withitem"
  | .matchCase => "match_case"
  | .matchValue => "MatchValue"
  | .matchSingleton => "MatchSingleton"
  | .matchSequence => "MatchSequence"
  | .matchMapping _ => "MatchMapping"
  | .matchClass _ => "MatchClass"
  | .matchStar _ => "MatchStar"
  | .matchAs _ => "MatchAs"
  | .matchOr => "MatchOr"

def isStatement : Form → Bool
  | .functionDef .. | .classDef _ | .returnStmt | .deleteStmt | .assign | .augAssign
  | .annAssign _ | .forLoop _ | .whileLoop | .ifStmt | .withStmt _ | .matchStmt | .raiseStmt
  | .tryStmt _ | .assertStmt | .importStmt | .importFrom _ _ | .globalStmt _ | .nonlocalStmt _
  | .exprStmt | .passStmt | .breakStmt | .continueStmt => true
  | _ => false

def isFunction : Form → Bool
  | .functionDef .. => true
  | _ => false

def isClass : Form → Bool
  | .classDef _ => true
  | _ => false

def isLoop : Form → Bool
  | .forLoop _ | .whileLoop => true
  | _ => false

def isTry : Form → Bool
  | .tryStmt _ => true
  | _ => false

def isAlias : Form → Bool
  | .alias _ _ => true
  | _ => false

/-- Whether a list of statements is the body of the construct. -/
def hasBody : Form → Bool
  | .module | .functionDef .. | .classDef _ | .forLoop _ | .whileLoop | .ifStmt | .withStmt _
  | .tryStmt _ | .handler _ _ | .matchCase => true
  | _ => false

/-- Whether control never leaves the construct into the code around it by falling through or
jumping: functions, lambdas, classes and the module. -/
def isBarrier : Form → Bool
  | .functionDef .. | .lambda | .classDef _ | .module => true
  | _ => false

end Form

/-- The name an import statement binds: the alias, or the first component of the dotted name.
An empty alias counts as none. -/
def importedName (name : String) (asName : Option String) : String :=
  match asName with
  | some other => if other.isEmpty then (Text.split '.' name).headD "" else other
  | none => (Text.split '.' name).headD ""

end SafeRefactor
