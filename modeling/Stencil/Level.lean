import Stencil.Token

/-!
A level is the row of text runs and tokens that fills one span of a source; the
bodies of its tokens are levels of their own. A text run reaches to the next
opening marker and holds no closing one. A level is never empty: where nothing
stands, it is one empty text.
-/

namespace Stencil

inductive Piece where
  | text (text : String)
  | token (token : Token)
  deriving DecidableEq, Repr

namespace Piece

def node : Piece → Node
  | .text chars => ⟨.text, some chars, {}⟩
  | .token read => read.node

def body : Piece → Option Span
  | .text _ => none
  | .token read => read.body

end Piece

namespace Level

def runStopFor (source : Source) (stop : Nat) : Nat → Nat → Except Stop Nat
  | 0, index => pure index
  | count + 1, index => do
      let opens ← Stop.ofScan (source.markerAt .opening index stop)
      if opens then pure index
      else
        let closes ← Stop.ofScan (source.markerAt .closing index stop)
        if closes then Stop.fail .tokenBeginMissing index
        else runStopFor source stop count (index + 1)

def runStop (source : Source) (start stop : Nat) : Except Stop Nat :=
  runStopFor source stop (stop - start) start

def textPiece (source : Source) (start stop : Nat) : List Piece :=
  match Text.collapseChars (source.slice start stop) with
  | [] => []
  | chars => [.text (String.ofList chars)]

def piecesFor (source : Source) (stop : Nat) : Nat → Nat → Except Stop (List Piece)
  | 0, _ => pure []
  | count + 1, index =>
      if index < stop then do
        let opens ← Stop.ofScan (source.markerAt .opening index stop)
        if opens then
          let token ← Token.read source index stop
          let rest ← piecesFor source stop count token.stop
          pure (.token token :: rest)
        else
          let runStop ← runStop source index stop
          let rest ← piecesFor source stop count runStop
          pure (textPiece source index runStop ++ rest)
      else pure []

def pieces (source : Source) (span : Span) : Except Stop (List Piece) :=
  piecesFor source span.stop (span.stop - span.start) span.start

def orEmptyText : List Piece → List Piece
  | [] => [.text ""]
  | pieces => pieces

def read (source : Source) (span : Span) : Except Stop (List Piece) :=
  orEmptyText <$> pieces source span

end Level

end Stencil
