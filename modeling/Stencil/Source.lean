import Stencil.Fault
import Stencil.Text

/-!
A source text by position, and the searches over a span of it. A span is given
by its first position and by the position behind its last one. A character is
read through `read` alone, which faults behind the end of the source; a search
tests no bound of the source beforehand, so it faults only where it really reads
there. A backslash directly before a character hides it from a search.
-/

namespace Stencil

structure Source where
  chars : Array Char
  deriving DecidableEq, Repr

structure Marker where
  first : Char
  second : Char
  deriving DecidableEq, Repr

namespace Marker

def opening : Marker := ⟨'\x7b', '\x7b'⟩

def closing : Marker := ⟨'\x7d', '\x7d'⟩

end Marker

namespace Source

def ofString (text : String) : Source := ⟨text.toList.toArray⟩

def size (source : Source) : Nat := source.chars.size

def toList (source : Source) : List Char := source.chars.toList

def read (source : Source) (index : Nat) : Except Fault Char :=
  match source.chars[index]? with
  | some c => .ok c
  | none => .error .pastEnd

def slice (source : Source) (start stop : Nat) : List Char :=
  (source.chars.extract start stop).toList

def position (source : Source) (index : Int) : Nat :=
  if index < 0 then (source.size + index).toNat else index.toNat

def between (source : Source) (first last : Int) : List Char :=
  source.slice (source.position first) (source.position (last + 1))

def escaped (source : Source) : Nat → Except Fault Bool
  | 0 => .ok false
  | index + 1 => do
      let before ← source.read index
      pure (before == '\\')

def skipBlanksFor (source : Source) : Nat → Nat → Nat
  | 0, index => index
  | count + 1, index =>
      if source.chars[index]?.any isBlank then skipBlanksFor source count (index + 1) else index

def skipBlanks (source : Source) (index : Nat) : Nat :=
  source.skipBlanksFor (source.size - index) index

def retreatBlanks (source : Source) : Nat → Except Fault Nat
  | 0 => .ok 0
  | index + 1 => do
      let here ← source.read (index + 1)
      if isBlank here then retreatBlanks source index else pure (index + 1)

def findFor (source : Source) (sought : Char) : Nat → Nat → Except Fault (Option Nat)
  | 0, _ => .ok none
  | count + 1, index => do
      let here ← source.read index
      let hidden ← source.escaped index
      if here = sought ∧ hidden = false then pure (some index)
      else findFor source sought count (index + 1)

def find (source : Source) (sought : Char) (start stop : Nat) : Except Fault (Option Nat) :=
  source.findFor sought (stop - start) start

def findMatchingFor (source : Source) (opening closing : Char) :
    Nat → Nat → Nat → Except Fault (Option Nat)
  | 0, _, _ => .ok none
  | count + 1, depth, index => do
      let here ← source.read index
      let hidden ← source.escaped index
      if hidden then findMatchingFor source opening closing count depth (index + 1)
      else if here = opening then
        findMatchingFor source opening closing count (depth + 1) (index + 1)
      else if here = closing then
        match depth with
        | 0 => pure (some index)
        | outer + 1 => findMatchingFor source opening closing count outer (index + 1)
      else findMatchingFor source opening closing count depth (index + 1)

def findMatching (source : Source) (opening closing : Char) (start stop : Nat) :
    Except Fault (Option Nat) :=
  source.findMatchingFor opening closing (stop - start) 0 start

def findSeparatorFor (source : Source) (sought opening closing : Char) :
    Nat → Nat → Nat → Except Fault (Option Nat)
  | 0, _, _ => .ok none
  | count + 1, depth, index => do
      let hidden ← source.escaped index
      if hidden then findSeparatorFor source sought opening closing count depth (index + 1)
      else
        let here ← source.read index
        if here = sought ∧ depth = 0 then pure (some index)
        else if here = opening then
          findSeparatorFor source sought opening closing count (depth + 1) (index + 1)
        else if here = closing then
          findSeparatorFor source sought opening closing count (depth - 1) (index + 1)
        else findSeparatorFor source sought opening closing count depth (index + 1)

/-- The first bare `sought` of the span outside of every nesting; a `closing`
without its `opening` nests nothing. -/
def findSeparator (source : Source) (sought opening closing : Char) (start stop : Nat) :
    Except Fault (Option Nat) :=
  source.findSeparatorFor sought opening closing (stop - start) 0 start

def markerAt (source : Source) (marker : Marker) (index stop : Nat) : Except Fault Bool :=
  if index + 1 < stop then do
    let here ← source.read index
    if here = marker.first then
      let after ← source.read (index + 1)
      let hidden ← source.escaped index
      pure (after == marker.second && !hidden)
    else pure false
  else pure false

/-- The marker is a text, of which the first two characters count. A shorter text faults
where the character that it lacks is compared. -/
def markerTextAt (source : Source) (marker : List Char) (index stop : Nat) :
    Except Fault Bool :=
  match marker with
  | first :: second :: _ => source.markerAt ⟨first, second⟩ index stop
  | [first] =>
      if index + 1 < stop then do
        let here ← source.read index
        if here = first then .error .pastEnd else pure false
      else pure false
  | [] => if index + 1 < stop then .error .pastEnd else pure false

end Source

end Stencil
