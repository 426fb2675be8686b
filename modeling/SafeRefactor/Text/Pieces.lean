/-!
# Pieces of texts

Cutting a text at a separator and putting pieces together, as functions on lists
of characters.
-/

namespace SafeRefactor.Text

/-- The pieces between separators; there is always at least one. -/
def splitChars (separator : Char) : List Char → List (List Char)
  | [] => [[]]
  | c :: rest =>
      if c = separator then [] :: splitChars separator rest
      else
        match splitChars separator rest with
        | [] => [[c]]
        | piece :: pieces => (c :: piece) :: pieces

def split (separator : Char) (text : String) : List String :=
  (splitChars separator text.toList).map String.ofList

def join (separator : String) (pieces : List String) : String :=
  separator.intercalate pieces

def startsWith (text start : String) : Bool :=
  start.toList.isPrefixOf text.toList

def endsWith (text ending : String) : Bool :=
  ending.toList.isSuffixOf text.toList

/-- The text without its last `count` characters. -/
def dropEnd (text : String) (count : Nat) : String :=
  String.ofList (text.toList.take (text.toList.length - count))

/-- The text with every occurrence of one character replaced by another. -/
def replaceChar (old new : Char) (text : String) : String :=
  String.ofList (text.toList.map (fun c => if c = old then new else c))

end SafeRefactor.Text
