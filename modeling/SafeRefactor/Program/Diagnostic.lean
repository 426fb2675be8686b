import SafeRefactor.Program.Settings
import SafeRefactor.Program.Snapshot

/-!
# Diagnostics

What is wrong with the units of a program.  Errors are texts that do not parse or
compile, names without a meaning, and imports of names that a module of the
program does not have.  Warnings are variables and imports that nothing uses.
-/

namespace SafeRefactor

/-- The kinds of diagnostics. -/
inductive DiagnosticCode where
  | syntaxError
  | undefinedName
  | missingName
  | unusedVariable
  | unusedImport
deriving DecidableEq, Repr

namespace DiagnosticCode

/-- The number under which a kind is reported. -/
def label : DiagnosticCode → String
  | .syntaxError => "E0001"
  | .undefinedName => "E0602"
  | .missingName => "E0611"
  | .unusedVariable => "W0612"
  | .unusedImport => "W0611"

/-- Whether the kind is an error rather than a warning. -/
def isError : DiagnosticCode → Bool
  | .syntaxError | .undefinedName | .missingName => true
  | .unusedVariable | .unusedImport => false

end DiagnosticCode

/-- One finding at a place of a unit. -/
structure Diagnostic where
  code : DiagnosticCode
  message : String
  path : String
  line : Int
  column : Int
deriving DecidableEq, Repr

namespace Diagnostic

/-- Whether the finding is an error. -/
def isError (diagnostic : Diagnostic) : Bool :=
  diagnostic.code.isError

def render (diagnostic : Diagnostic) : String :=
  diagnostic.code.label ++ ": " ++ diagnostic.message ++ " at " ++ diagnostic.path ++ ":" ++
    toString diagnostic.line ++ ":" ++ toString diagnostic.column

/-- The order in which the findings of a unit are reported. -/
def notAfter (first second : Diagnostic) : Bool :=
  first.line < second.line ||
    (first.line = second.line &&
      (first.column < second.column ||
        (first.column = second.column && !(second.code.label < first.code.label))))

/-- The finding for an error of the parser or compiler. -/
def ofParseFault (path : String) (fault : ParseFault) : Diagnostic where
  code := .syntaxError
  message := "Syntax error: " ++ fault.message
  path := path
  line := match fault.line with
    | some line => if line = 0 then 1 else line
    | none => 1
  column := match fault.offset with
    | some offset => if offset = 0 then 0 else max (offset - 1) 0
    | none => 0

/-- A finding at the start of a node. -/
def atNode (code : DiagnosticCode) (message path : String) (node : Node) : Diagnostic where
  code := code
  message := message
  path := path
  line := node.start.line
  column := node.start.column

/-- A finding at the place of a symbol. -/
def atSymbol (code : DiagnosticCode) (message path : String) (symbol : Symbol) : Diagnostic where
  code := code
  message := message
  path := path
  line := symbol.line
  column := symbol.column

end Diagnostic

/-- Whether a node is a name that is read or deleted. -/
def Node.usesName (node : Node) : Bool :=
  match node.form with
  | .name _ context => context != .store
  | _ => false

/-- Whether a node is a name that is read. -/
def Node.loadsName (node : Node) : Bool :=
  match node.form with
  | .name _ context => context = .load
  | _ => false

namespace Model

/-- Names without a meaning.  A star import may define any name. -/
def undefinedNames (model : Model) : List Diagnostic :=
  if model.hasStarImport then []
  else
    (model.tree.walk.filter (fun node => node.usesName && (model.resolve node).isNone)).map
      fun node =>
        .atNode .undefinedName ("Undefined variable '" ++ node.identifier?.getD "" ++ "'")
          model.path node

/-- Whether a function looks at its variables by name. -/
def inspectsLocals (function : Node) : Bool :=
  function.walk.any fun node =>
    match node.form with
    | .call =>
        (node.only? .callee).any (fun callee => callee.isNamed "locals" || callee.isNamed "vars")
    | _ => false

def isRead (model : Model) (symbol : Symbol) : Bool :=
  (model.referencesOf symbol).any Node.loadsName

/-- Whether an occurrence binds a plain variable: a name or the name of an exception handler. -/
def bindsVariable (node : Node) : Bool :=
  match node.form with
  | .name _ _ | .handler _ _ => true
  | _ => false

/-- Whether a symbol of a function is a variable that nothing reads. -/
def isUnusedVariable (model : Model) (scope : Scope) (symbol : Symbol) : Bool :=
  symbol.kind = .localVariable && !Text.startsWith symbol.name "_" &&
    !scope.globals.contains symbol.name && !scope.nonlocals.contains symbol.name &&
    (model.bindingsOf symbol).all (fun binding => bindsVariable binding.node) &&
    !model.isRead symbol

def unusedVariables (model : Model) : List Diagnostic :=
  model.scopes.flatMap fun scope =>
    if scope.kind != .function || inspectsLocals scope.node then []
    else
      (scope.symbols.values.filter (model.isUnusedVariable scope)).map fun symbol =>
        .atSymbol .unusedVariable ("Unused variable '" ++ symbol.name ++ "'") model.path symbol

/-- The names that a statement adds to the public names of its module. -/
def exportedBy (statement : Node) : List String :=
  match statement.form with
  | .assign | .augAssign | .annAssign _ =>
      if (statement.field .target).any (fun target => target.isNamed "__all__") then
        match statement.only? .value with
        | some value =>
            match value.form with
            | .list _ | .tuple _ =>
                (value.field .element).filterMap fun element =>
                  match element.form with
                  | .constant .str text => some text
                  | _ => none
            | _ => []
        | none => []
      else []
  | _ => []

/-- The public names that a module lists. -/
def exportedNames (tree : Node) : List String :=
  (tree.field .body).flatMap exportedBy

/-- Whether a binding switches on a feature of the language. -/
def isFutureImport (binding : Binding) : Bool :=
  match binding.parent.map Node.form with
  | some (.importFrom (some module) _) => module = "__future__"
  | _ => false

/-- Whether a symbol is bound by imports only and nothing reads or exports it. -/
def isUnusedImport (model : Model) (exported : List String) (symbol : Symbol) : Bool :=
  let bindings := model.bindingsOf symbol
  !bindings.isEmpty && bindings.all (fun binding => binding.node.form.isAlias) &&
    !exported.contains symbol.name && !bindings.head?.any isFutureImport && !model.isRead symbol

/-- Imports that nothing uses.  A package file may import for others. -/
def unusedImports (model : Model) : List Diagnostic :=
  if isPackageFile model.path then []
  else
    let exported := exportedNames model.tree
    model.scopes.flatMap fun scope =>
      if scope.kind = .module || scope.kind = .function then
        (scope.symbols.values.filter (model.isUnusedImport exported)).map fun symbol =>
          .atSymbol .unusedImport ("Unused import '" ++ symbol.name ++ "'") model.path symbol
      else []

end Model

namespace Snapshot

/-- The names that an import statement wants of a module and that the module does not have. -/
def missingFrom (snapshot : Snapshot) (path module : String) (target : Model) (statement : Node) :
    List Diagnostic :=
  let exported := target.moduleScope.symbols
  if target.hasStarImport || exported.contains "__getattr__" then []
  else
    statement.children.filterMap fun item =>
      match item.form with
      | .alias name _ =>
          if name = "*" || exported.contains name ||
              (snapshot.moduleUnit? (module ++ "." ++ name)).isSome then none
          else
            some (.atNode .missingName
              ("No name '" ++ name ++ "' in module '" ++ module ++ "'") path item)
      | _ => none

/-- The missing names of one import statement. -/
def missingNamesOf (snapshot : Snapshot) (path : String) (statement : Node) :
    Except Fault (List Diagnostic) :=
  match statement.form with
  | .importFrom module level =>
      match resolveImport path module level with
      | none => .ok []
      | some name =>
          match snapshot.moduleUnit? name with
          | none => .ok []
          | some target =>
              match target.model? with
              | .error fault => .error fault
              | .ok none => .ok []
              | .ok (some model) => .ok (snapshot.missingFrom path name model statement)
  | _ => .ok []

def missingNames (snapshot : Snapshot) (path : String) : List Node → Except Fault (List Diagnostic)
  | [] => .ok []
  | node :: rest =>
      match snapshot.missingNamesOf path node with
      | .error fault => .error fault
      | .ok found =>
          match snapshot.missingNames path rest with
          | .error fault => .error fault
          | .ok others => .ok (found ++ others)

/-- The findings of a unit that parses and compiles. -/
def modelDiagnostics (snapshot : Snapshot) (settings : Settings) (model : Model) :
    Except Fault (List Diagnostic) :=
  match snapshot.missingNames model.path model.tree.walk with
  | .error fault => .error fault
  | .ok missing =>
      .ok
        ((model.undefinedNames ++ missing ++
          (if settings.reportUnusedVariables then model.unusedVariables else []) ++
          (if settings.reportUnusedImports then model.unusedImports else [])).mergeSort
          Diagnostic.notAfter)

/-- The findings of a unit of a program, by place. -/
def unitDiagnostics (snapshot : Snapshot) (settings : Settings) (unit : SourceUnit) :
    Except Fault (List Diagnostic) :=
  match unit.content with
  | .unreadable kind reason => .error (.unreadable kind reason)
  | .rejected fault => .ok [.ofParseFault unit.path fault]
  | .parsed _ (some fault) => .ok [.ofParseFault unit.path fault]
  | .parsed tree none =>
      match Model.build unit.path tree with
      | .error fault => .error fault
      | .ok model => snapshot.modelDiagnostics settings model

end Snapshot

/-- A signal that cancels an operation after it has been asked a number of times, or never. -/
abbrev CancelSignal := Option Nat

/-- Asks the signal: none when the operation is cancelled, else the signal from now on. -/
def CancelSignal.poll : CancelSignal → Option CancelSignal
  | none => some none
  | some 0 => none
  | some (count + 1) => some (some count)

namespace Snapshot

/-- The findings of units one after the other; the signal is asked before each.  Also the signal
from then on. -/
def diagnosticsOf (snapshot : Snapshot) (settings : Settings) :
    CancelSignal → List SourceUnit → Except Fault (List Diagnostic × CancelSignal)
  | signal, [] => .ok ([], signal)
  | signal, unit :: rest =>
      match signal.poll with
      | none => .error .cancelled
      | some asked =>
          match snapshot.unitDiagnostics settings unit with
          | .error fault => .error fault
          | .ok found =>
              match snapshot.diagnosticsOf settings asked rest with
              | .error fault => .error fault
              | .ok (others, last) => .ok (found ++ others, last)

/-- The findings of all units of a program in the order of their paths. -/
def diagnostics (snapshot : Snapshot) (settings : Settings) (signal : CancelSignal) :
    Except Fault (List Diagnostic × CancelSignal) :=
  snapshot.diagnosticsOf settings signal snapshot.units

end Snapshot

end SafeRefactor
