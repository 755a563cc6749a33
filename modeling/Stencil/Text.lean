/-!
Blanks, names and the escapes of the two-brace markers, as functions on lists of
characters with wrappers for strings. `collapse` writes every run of blanks as
one space. `escape` puts a backslash before each pair of a run of equal braces,
so that no bare marker is left, and `unescape` takes these backslashes away.
-/

namespace Stencil

/-- Only these six ASCII characters are blank; other spaces are literal text. -/
def blanks : List Char := ['\t', '\n', '\x0b', '\x0c', '\r', ' ']

def isBlank (c : Char) : Bool := blanks.contains c

def isNameChar (c : Char) : Bool := c.isAlphanum || c == '_'

def isName (name : String) : Bool := !name.isEmpty && name.toList.all isNameChar

def nameChars : List Char := ((List.range 128).map Char.ofNat).filter isNameChar

def spaceRanges : List (Nat × Nat) :=
  [(0x09, 0x0d), (0x20, 0x20), (0x85, 0x85), (0xa0, 0xa0), (0x1680, 0x1680), (0x2000, 0x200a),
    (0x2028, 0x2029), (0x202f, 0x202f), (0x205f, 0x205f), (0x3000, 0x3000)]

def isSpace (c : Char) : Bool :=
  spaceRanges.any fun range => range.1 ≤ c.toNat && c.toNat ≤ range.2

def isBrace (c : Char) : Bool := c == '\x7b' || c == '\x7d'

namespace Text

def runLength (c : Char) (text : List Char) : Nat := (text.takeWhile (· == c)).length

def collapseChars : List Char → List Char
  | [] => []
  | c :: rest =>
      if isBlank c then
        if rest.head?.any isBlank then collapseChars rest else ' ' :: collapseChars rest
      else c :: collapseChars rest

def unescapeChars : List Char → List Char
  | [] => []
  | '\\' :: '\x7b' :: '\x7b' :: rest => '\x7b' :: '\x7b' :: unescapeChars rest
  | '\\' :: '\x7d' :: '\x7d' :: rest => '\x7d' :: '\x7d' :: unescapeChars rest
  | c :: rest => c :: unescapeChars rest

/-- A brace with an odd run of its own kind behind it starts a pair. The first
brace of an odd run is left bare, so the rest of the run falls into pairs. -/
def escapeChars : List Char → List Char
  | [] => []
  | [c] => [c]
  | c :: d :: rest =>
      if isBrace c && runLength c (d :: rest) % 2 == 1 then
        '\\' :: c :: d :: escapeChars rest
      else c :: escapeChars (d :: rest)

def bareCommas : List Char → List Char
  | [] => []
  | '\\' :: ',' :: rest => ',' :: bareCommas rest
  | c :: rest => c :: bareCommas rest

def trim (text : List Char) : List Char :=
  ((text.dropWhile isSpace).reverse.dropWhile isSpace).reverse

def collapse (text : String) : String := String.ofList (collapseChars text.toList)

def unescape (text : String) : String := String.ofList (unescapeChars text.toList)

def escape (text : String) : String := String.ofList (escapeChars text.toList)

end Text

end Stencil
