import Stencil.Failure
import Stencil.Source
import Stencil.Table

/-!
Property maps: pairs of a key and a value between parentheses. Bare commas
outside of nested parentheses part the pairs, the first bare equal sign of a
pair parts its key from its value, and both sides are trimmed and collapsed. A
value may hold a comma behind a backslash. Of two pairs with one key the later
wins.
-/

namespace Stencil.PropertyMap

def collapsed (source : Source) (first last : Nat) : List Char :=
  Text.collapseChars (source.slice first (last + 1))

def readPair (source : Source) (before after : Nat) : Except Stop (String × String) := do
  match ← Stop.ofScan (source.find '=' (before + 1) after) with
  | none => Stop.fail .mapPairMissing (before + 1)
  | some sign =>
      let keyFirst := source.skipBlanks (before + 1)
      let keyLast ← Stop.ofScan (source.retreatBlanks (sign - 1))
      if keyLast < keyFirst then Stop.fail .mapKeyMissing sign
      else
        let valueFirst := source.skipBlanks (sign + 1)
        let valueLast ← Stop.ofScan (source.retreatBlanks (after - 1))
        if valueLast < valueFirst then Stop.fail .mapValueMissing sign
        else pure (String.ofList (collapsed source keyFirst keyLast),
          String.ofList (Text.bareCommas (collapsed source valueFirst valueLast)))

def readPairs (source : Source) (last : Nat) :
    Nat → Nat → Table String String → Except Stop (Table String String)
  | 0, _, pairs => pure pairs
  | count + 1, before, pairs =>
      if before < last then do
        let separator ← Stop.ofScan (source.findSeparator ',' '(' ')' (before + 1) last)
        let after := separator.getD last
        let pair ← readPair source before after
        readPairs source last count after (pairs.put pair.1 pair.2)
      else pure pairs

def read (source : Source) (start stop : Nat) : Except Stop (Table String String) :=
  let first := source.skipBlanks start
  let beginMissing := Stop.fail .mapBeginMissing (min first (source.size - 1))
  if source.size = 0 then Stop.fail .noTextFound 0
  else if stop = 0 then beginMissing
  else do
    let last ← Stop.ofScan (source.retreatBlanks (stop - 1))
    if last < first then beginMissing
    else
      let opening ← Stop.ofScan (source.read first)
      if opening ≠ '(' then beginMissing
      else if last = first then Stop.fail .mapEndMissing last
      else
        let closing ← Stop.ofScan (source.read last)
        let hidden ← Stop.ofScan (source.escaped last)
        if closing ≠ ')' ∨ hidden = true then Stop.fail .mapEndMissing last
        else if source.skipBlanks (first + 1) = last then pure {}
        else readPairs source last (last - first) first {}

def parse (text : String) (first last : Option Int) :
    Except Fault (Except Failure (Table String String)) :=
  let source := Source.ofString text
  let first := first.getD 0
  let last := last.getD (source.size - 1)
  match read source first.toNat (last + 1).toNat with
  | .ok pairs => .ok (.ok pairs)
  | .error (.failure failure) => .ok (.error failure)
  | .error (.fault fault) => .error fault

end Stencil.PropertyMap
