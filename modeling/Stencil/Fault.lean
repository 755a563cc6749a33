/-!
Faults: requests outside the contract of an operation that no check catches. A
fault is not a refusal. A refusal is an answer with a `Status` and leaves the
work going; a fault gives no answer at all. `numberTooLong` stands for a number of
too many digits to be written, `endless` for a walk along a chain of links that
comes back to itself, so that the walk would never finish.
-/

namespace Stencil

inductive Fault where
  | pastEnd
  | noElement
  | noValue
  | numberTooLong
  | endless
  deriving DecidableEq, Repr

end Stencil
