import SafeRefactor.Text.Blank

/-!
# Lines of a text

A line ends at a line feed, a carriage return, both together, or one of the other
characters that separate lines.  Excerpts show one line without its margins.
-/

namespace SafeRefactor.Text

def endsLine (c : Char) : Bool :=
  let code := c.toNat
  (10 ≤ code && code ≤ 13) || (28 ≤ code && code ≤ 30) || code = 0x85 ||
    code = 0x2028 || code = 0x2029

/-- The lines of a text that continues the line `current` (kept reversed).  A final line end
starts no further line. -/
def linesFrom (current : List Char) : List Char → List (List Char)
  | [] => if current.isEmpty then [] else [current.reverse]
  | '\r' :: '\n' :: rest => current.reverse :: linesFrom [] rest
  | c :: rest =>
      if endsLine c then current.reverse :: linesFrom [] rest
      else linesFrom (c :: current) rest

/-- The lines of a text, without the characters that end them. -/
def lines (text : String) : List (List Char) :=
  linesFrom [] text.toList

/-- The first `count` items; a negative count leaves off that many items at the end. -/
def takeSigned (count : Int) (items : List α) : List α :=
  if 0 ≤ count then items.take count.toNat else items.take (items.length - (-count).toNat)

/-- Line number `line` (from one) of a text without its margins, cut to `width` characters;
empty when there is no such line. -/
def excerpt (text : String) (line : Int) (width : Int := 160) : String :=
  if 0 < line then
    match (lines text)[line.toNat - 1]? with
    | some found => String.ofList (takeSigned width (trimBlanks found))
    | none => ""
  else ""

/-- Line ends of all kinds as single line feeds. -/
def normalizeNewlines : List Char → List Char
  | [] => []
  | '\r' :: '\n' :: rest => '\n' :: normalizeNewlines rest
  | '\r' :: rest => '\n' :: normalizeNewlines rest
  | c :: rest => c :: normalizeNewlines rest

end SafeRefactor.Text
