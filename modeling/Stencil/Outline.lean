import Stencil.Forest
import Stencil.Level

/-!
The outline of a source: its levels read one inside the other into a forest. A
level is read as a whole before any body below it, the bodies follow in the order
of the source, and each body becomes the body of its own token. Every body is
shorter than the span around it, which bounds the nesting.
-/

namespace Stencil.Outline

def assemble : List (Piece × Forest) → Forest
  | [] => .nil
  | (piece, body) :: rest => .cons piece.node body (assemble rest)

def withBodies (readBody : Span → Except Stop Forest) :
    List Piece → Except Stop (List (Piece × Forest))
  | [] => pure []
  | piece :: rest => do
      let body ← match piece.body with
        | none => pure .nil
        | some span => readBody span
      let others ← withBodies readBody rest
      pure ((piece, body) :: others)

def readFor (source : Source) : Nat → Span → Except Stop Forest
  | 0, _ => .error (.fault .endless)
  | depth + 1, span => do
      let pieces ← Level.read source span
      let full ← withBodies (readFor source depth) pieces
      pure (assemble full)

def read (source : Source) (span : Span) : Except Stop Forest :=
  readFor source (span.stop - span.start + 1) span

end Stencil.Outline
