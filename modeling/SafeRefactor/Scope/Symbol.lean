import SafeRefactor.Tree.Inference

/-!
# Symbols

A symbol is what a name stands for in one scope: its kind, the scope it belongs
to, its declared type and the place of its first binding.
-/

namespace SafeRefactor

inductive ScopeKind where
  | module
  | classBody
  | function
  | lambda
  | comprehension
deriving DecidableEq, Repr

namespace ScopeKind

def label : ScopeKind → String
  | .module => "module"
  | .classBody => "class"
  | .function => "function"
  | .lambda => "lambda"
  | .comprehension => "comprehension"

/-- Whether the names of the scope live in a frame that inner scopes can see. -/
def isFunctionLike : ScopeKind → Bool
  | .function | .lambda | .comprehension => true
  | .module | .classBody => false

end ScopeKind

/-- What a name stands for. -/
inductive SymbolKind where
  | localVariable
  | parameter
  /-- The first parameter of an instance or class method. -/
  | receiver
  | field
  | property
  | method
  | classType
  | function
  | globalVariable
  | imported
  | builtin
deriving DecidableEq, Repr

namespace SymbolKind

def label : SymbolKind → String
  | .localVariable => "local"
  | .parameter => "parameter"
  | .receiver => "self"
  | .field => "field"
  | .property => "property"
  | .method => "method"
  | .classType => "class"
  | .function => "function"
  | .globalVariable => "global"
  | .imported => "import"
  | .builtin => "builtin"

/-- Whether values of the kind live in a function frame and can be passed around. -/
def isVariable : SymbolKind → Bool
  | .localVariable | .parameter => true
  | _ => false

/-- Whether region analysis follows symbols of the kind: variables and the receiver. -/
def isTracked : SymbolKind → Bool
  | .localVariable | .parameter | .receiver => true
  | _ => false

end SymbolKind

/-- The meaning of a name in a scope. -/
structure Symbol where
  name : String
  kind : SymbolKind
  scopeId : String
  declaredType : String := anyType
  line : Int := 0
  column : Int := 0
deriving DecidableEq, Repr

/-- The names that are defined without any binding. -/
def builtinNames : List String :=
  ["ArithmeticError", "AssertionError", "AttributeError", "BaseException", "BaseExceptionGroup",
   "BlockingIOError", "BrokenPipeError", "BufferError", "BytesWarning", "ChildProcessError",
   "ConnectionAbortedError", "ConnectionError", "ConnectionRefusedError", "ConnectionResetError",
   "DeprecationWarning", "EOFError", "Ellipsis", "EncodingWarning", "EnvironmentError",
   "Exception", "ExceptionGroup", "False", "FileExistsError", "FileNotFoundError",
   "FloatingPointError", "FutureWarning", "GeneratorExit", "IOError", "ImportError",
   "ImportWarning", "IndentationError", "IndexError", "InterruptedError", "IsADirectoryError",
   "KeyError", "KeyboardInterrupt", "LookupError", "MemoryError", "ModuleNotFoundError",
   "NameError", "None", "NotADirectoryError", "NotImplemented", "NotImplementedError", "OSError",
   "OverflowError", "PendingDeprecationWarning", "PermissionError", "ProcessLookupError",
   "RecursionError", "ReferenceError", "ResourceWarning", "RuntimeError", "RuntimeWarning",
   "StopAsyncIteration", "StopIteration", "SyntaxError", "SyntaxWarning", "SystemError",
   "SystemExit", "TabError", "TimeoutError", "True", "TypeError", "UnboundLocalError",
   "UnicodeDecodeError", "UnicodeEncodeError", "UnicodeError", "UnicodeTranslateError",
   "UnicodeWarning", "UserWarning", "ValueError", "Warning", "ZeroDivisionError",
   "__build_class__", "__debug__", "__doc__", "__import__", "__loader__", "__name__",
   "__package__", "__spec__", "abs", "aiter", "all", "anext", "any", "ascii", "bin", "bool",
   "breakpoint", "bytearray", "bytes", "callable", "chr", "classmethod", "compile", "complex",
   "copyright", "credits", "delattr", "dict", "dir", "divmod", "enumerate", "eval", "exec", "exit",
   "filter", "float", "format", "frozenset", "getattr", "globals", "hasattr", "hash", "help", "hex",
   "id", "input", "int", "isinstance", "issubclass", "iter", "len", "license", "list", "locals",
   "map", "max", "memoryview", "min", "next", "object", "oct", "open", "ord", "pow", "print",
   "property", "quit", "range", "repr", "reversed", "round", "set", "setattr", "slice", "sorted",
   "staticmethod", "str", "sum", "super", "tuple", "type", "vars", "zip", "__file__",
   "__builtins__", "__path__", "__annotations__", "__qualname__", "__module__", "__class__",
   "__dict__"]

def builtinSymbol? (name : String) : Option Symbol :=
  if builtinNames.contains name then
    some { name := name, kind := .builtin, scopeId := "builtins" }
  else none

end SafeRefactor
