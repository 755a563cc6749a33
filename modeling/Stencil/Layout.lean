import Stencil.Digit

/-!
How a text is laid out in a field: cut to a limit, then padded to a width. A
written layout is, in this order, an alignment with the fill character before
it, a zero that fills with zeros, the width, a point with the limit and the
letter of a text. Each part may be absent, and nothing else is a layout.
-/

namespace Stencil

inductive Alignment where
  | left
  | right
  | center
  deriving DecidableEq, Repr

def Alignment.ofChar? : Char → Option Alignment
  | '<' => some left
  | '>' => some right
  | '^' => some center
  | _ => none

structure Layout where
  fill : Char := ' '
  alignment : Alignment := .left
  width : Nat := 0
  /-- The largest number of characters that are taken from the text. -/
  limit : Option Nat := none
  deriving DecidableEq, Repr

namespace Layout

def largest : Nat := Nat.pow 2 63 - 1

/-- A character is the fill only if an alignment follows it. -/
def readAlignment : List Char → Option Char × Alignment × List Char
  | [] => (none, .left, [])
  | first :: rest =>
      match rest.head?.bind Alignment.ofChar? with
      | some alignment => (some first, alignment, rest.drop 1)
      | none =>
          match Alignment.ofChar? first with
          | some alignment => (none, alignment, rest)
          | none => (none, .left, first :: rest)

def readFill : Option Char → List Char → Char × List Char
  | some fill, text => (fill, text)
  | none, '0' :: rest => ('0', rest)
  | none, text => (' ', text)

def readLimit? : List Char → Option (Option Nat × List Char)
  | '.' :: rest =>
      match Digit.readNumber rest with
      | (some limit, rest) => some (some limit, rest)
      | (none, _) => none
  | text => some (none, text)

def read? (text : List Char) : Option Layout :=
  let (given, alignment, text) := readAlignment text
  let (fill, text) := readFill given text
  let (width, text) := Digit.readNumber text
  match readLimit? text with
  | none => none
  | some (limit, text) =>
      if (text = [] ∨ text = ['s']) ∧ width.getD 0 ≤ largest ∧ limit.getD 0 ≤ largest then
        some { fill, alignment, width := width.getD 0, limit }
      else none

/-- The characters of the padding that stand before the text; a padding that
does not halve has the odd one behind the text. -/
def before (alignment : Alignment) (padding : Nat) : Nat :=
  match alignment with
  | .left => 0
  | .right => padding
  | .center => padding / 2

def apply (layout : Layout) (text : List Char) : List Char :=
  let kept := match layout.limit with
    | some limit => text.take limit
    | none => text
  let padding := layout.width - kept.length
  let first := before layout.alignment padding
  List.replicate first layout.fill ++ kept ++ List.replicate (padding - first) layout.fill

end Layout

end Stencil
