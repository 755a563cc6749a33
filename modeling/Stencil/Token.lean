import Stencil.Element
import Stencil.PropertyMap

/-!
Tokens: what stands between an opening marker and the closing marker that
balances it. A token begins with a name. A dollar sign behind the name makes it
a variable, anything else a command; the properties of a command follow its name
directly, and the rest up to the closing marker is the body. The body is only
located here and not read.
-/

namespace Stencil

structure Span where
  start : Nat
  stop : Nat
  deriving DecidableEq, Repr

structure Token where
  node : Node
  body : Option Span
  /-- The position behind the closing marker. -/
  stop : Nat
  deriving DecidableEq, Repr

namespace Source

def closingFor (source : Source) (stop : Nat) : Nat → Nat → Nat → Except Fault (Option Nat)
  | 0, _, _ => .ok none
  | count + 1, depth, index =>
      if index < stop then do
        let opens ← source.markerAt .opening index stop
        if opens then closingFor source stop count (depth + 1) (index + 2)
        else
          let closes ← source.markerAt .closing index stop
          if closes then
            match depth with
            | 0 => pure (some index)
            | outer + 1 => closingFor source stop count outer (index + 2)
          else closingFor source stop count depth (index + 1)
      else .ok none

/-- Where the closing marker begins that balances an opening marker just before
`start`, with whole markers counted from left to right. -/
def closing (source : Source) (start stop : Nat) : Except Fault (Option Nat) :=
  source.closingFor stop (stop - start) 0 start

def nameStopFor (source : Source) : Nat → Nat → Except Fault Nat
  | 0, _ => .error .pastEnd
  | count + 1, index => do
      let here ← source.read index
      if isNameChar here then nameStopFor source count (index + 1) else pure index

/-- The first position at or behind `index` that holds no name character. No
bound but the end of the source stops this scan, and there it faults. -/
def nameStop (source : Source) (index : Nat) : Except Fault Nat :=
  source.nameStopFor (source.size - index) index

end Source

namespace Token

structure Parts where
  kind : Kind
  properties : Option Span
  bodyStart : Nat
  deriving DecidableEq, Repr

def nameSpan (source : Source) (start : Nat) : Except Stop Span := do
  let first := source.skipBlanks start
  let here ← Stop.ofScan (source.read first)
  if here = '$' ∨ here = '(' ∨ here = '\x7d' then Stop.fail .nameMissing first
  else
    let stop ← Stop.ofScan (source.nameStop first)
    if stop = first then Stop.fail .nameInvalid first else pure ⟨first, stop⟩

def parts (source : Source) (nameStop closing : Nat) : Except Stop Parts := do
  let sign := source.skipBlanks nameStop
  let here ← Stop.ofScan (source.read sign)
  if here = '$' then pure ⟨.variable, none, source.skipBlanks (sign + 1)⟩
  else if here = '(' then
    match ← Stop.ofScan (source.findMatching '(' ')' (sign + 1) closing) with
    | none => Stop.fail .propertyEndMissing sign
    | some last => pure ⟨.command, some ⟨sign, last + 1⟩, source.skipBlanks (last + 1)⟩
  else pure ⟨.command, none, sign⟩

def bodySpan (source : Source) (start closing : Nat) : Except Fault (Option Span) :=
  if start < closing then do
    let last ← source.retreatBlanks (closing - 1)
    pure (some ⟨start, last + 1⟩)
  else pure none

def readProperties (source : Source) : Option Span → Except Stop (Table String String)
  | none => pure {}
  | some span => PropertyMap.read source span.start span.stop

def read (source : Source) (start stop : Nat) : Except Stop Token := do
  match ← Stop.ofScan (source.closing (start + 2) stop) with
  | none => Stop.fail .tokenEndMissing (start + 2)
  | some closing =>
      let name ← nameSpan source (start + 2)
      let parts ← parts source name.stop closing
      let properties ← readProperties source parts.properties
      let body ← Stop.ofScan (bodySpan source parts.bodyStart closing)
      let text := String.ofList (source.slice name.start name.stop)
      pure {
        node := ⟨parts.kind, some text, properties⟩
        body
        stop := closing + 2 }

end Token

end Stencil
