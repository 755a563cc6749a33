import Stencil.Level
import Stencil.Store.Body

/-!
Parsing into a store. The pieces of a level become a chain, and the bodies of
its tokens wait in a list, in the order of the source, until they are read in
their turn; so the nesting of a source bounds no recursion. A level fails before
any body below it is looked at. A source that cannot be parsed adds nothing to
the store.
-/

namespace Stencil

structure Parsed where
  store : Store
  result : Except Report ElementId
  notices : List Notice := []

namespace Store

structure Waiting where
  owner : ElementId
  span : Span
  deriving DecidableEq, Repr

def waitingFor (owner : ElementId) (piece : Piece) : List Waiting :=
  (piece.body.map fun span => ⟨owner, span⟩).toList

def layOut (checks : Bool) (store : Store) (last : Option ElementId) :
    List Piece → Except Fault (Store × List Waiting)
  | [] => .ok (store, [])
  | piece :: rest => do
      let id := store.size
      let added := store.add piece.node
      let linked ← match last with
        | none => pure added
        | some last => Outcome.store <$> added.append checks (some last) (some id)
      let tail ← layOut checks linked (some id) rest
      pure (tail.1, waitingFor id piece ++ tail.2)

def readLevel (checks : Bool) (source : Source) (store : Store) (span : Span) :
    Except Stop (Store × List Waiting) := do
  let pieces ← Level.read source span
  Stop.ofScan (store.layOut checks none pieces)

def fillBodies (checks : Bool) (source : Source) :
    Nat → List Waiting → Store → Except Stop Store
  | _, [], store => pure store
  | 0, _ :: _, _ => .error (.fault .endless)
  | count + 1, waiting :: rest, store => do
      let level ← readLevel checks source store waiting.span
      let kind := (store.kind? waiting.owner).getD .command
      let filled ← Stop.ofScan
        (level.1.setBody checks kind (some waiting.owner) (some store.size))
      fillBodies checks source count (level.2 ++ rest) filled.store

def parseSpan (checks : Bool) (source : Source) (store : Store) (span : Span) :
    Except Stop (Store × ElementId) := do
  let level ← readLevel checks source store span
  let filled ← fillBodies checks source (span.stop - span.start) level.2 level.1
  pure (filled, store.size)

/-- A map that cannot be read is noted before the parse that it belongs to. -/
def failureNotices (failure : Failure) (report : Report) : List Notice :=
  (if failure.status.ofPropertyMap then [.mapFailed failure.status failure.position] else [])
    ++ [.parseFailed report]

def rangeValid (size : Nat) (first last : Int) : Bool :=
  decide (0 ≤ first) && decide (last < size) && decide (first ≤ last + 1)

/-- Parses a text from its `first` to its `last` position, by default the whole
text. The empty text parses to an empty text element for every range. -/
def parse (checks : Bool) (store : Store) (text : String) (first last : Option Int) :
    Except Fault Parsed :=
  let source := Source.ofString text
  let first := first.getD 0
  let last := last.getD (source.size - 1)
  if source.size = 0 then
    .ok { store := store.add ⟨.text, some "", {}⟩, result := .ok store.size }
  else if checks && !rangeValid source.size first last then
    .ok { store, result := .error { status := .invalidParameter, position := first },
          notices := [.rangeInvalid first last source.size] }
  else
    match parseSpan checks source store ⟨first.toNat, (last + 1).toNat⟩ with
    | .ok parsed => .ok { store := parsed.1, result := .ok parsed.2 }
    | .error (.fault fault) => .error fault
    | .error (.failure failure) =>
        let report := Report.locate source failure.status failure.position
        .ok { store, result := .error report, notices := failureNotices failure report }

def setBodyText (checks : Bool) (store : Store) (expected : Kind) (owner : Option ElementId)
    (text : String) (first last : Option Int) : Except Fault Outcome :=
  match if checks then store.kindRefusal expected owner else none with
  | some refusal => .ok refusal
  | none => do
      let parsed ← store.parse checks text first last
      match parsed.result with
      | .error report => pure { store, status := report.status, notices := parsed.notices }
      | .ok head =>
          let owner ← present owner
          let outcome ← parsed.store.install checks owner (some head)
          pure { outcome with notices := parsed.notices ++ outcome.notices }

end Store

end Stencil
