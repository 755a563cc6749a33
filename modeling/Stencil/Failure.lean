import Stencil.Fault
import Stencil.Status

/-!
Why reading a source stops early: a `Failure` of the text, with its status and
the position it points at, or a fault of the reader.
-/

namespace Stencil

structure Failure where
  status : Status
  position : Nat
  deriving DecidableEq, Repr

inductive Stop where
  | fault (fault : Fault)
  | failure (failure : Failure)
  deriving DecidableEq, Repr

namespace Stop

def fail {Value : Type} (status : Status) (position : Nat) : Except Stop Value :=
  .error (.failure ⟨status, position⟩)

def ofScan {Value : Type} (scan : Except Fault Value) : Except Stop Value :=
  scan.mapError .fault

end Stop

end Stencil
