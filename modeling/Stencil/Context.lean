import Stencil.Element
import Stencil.Handler

/-!
The context of a document: the cached variables, the registered commands and the
bookkeeping of evaluation. Names are those of elements, so a name may be missing
and is then a name like any other. A cached variable owns its chain. A pin is one entry
of `pins`, so a chain is pinned as often as it is listed there; a pin may hold no
chain and then only marks its name. The names that are being expanded are a set.
A chain that loses its variable while it is pinned is retired until its last pin
goes.
-/

namespace Stencil

structure Cached where
  chain : Option ElementId
  readOnly : Bool
  deriving DecidableEq, Repr

structure Context where
  cache : Table (Option String) Cached := {}
  commands : Table (Option String) Handler := {}
  expanding : List (Option String) := []
  pins : List (Option ElementId) := []
  retired : List ElementId := []
  depth : Nat := 0

namespace Context

def chainOf (context : Context) (name : Option String) : Option ElementId :=
  (context.cache.get? name).bind Cached.chain

def readOnly (context : Context) (name : Option String) : Bool :=
  ((context.cache.get? name).map Cached.readOnly).getD false

def isExpanding (context : Context) (name : Option String) : Bool :=
  context.expanding.contains name

def isPinned (context : Context) (chain : ElementId) : Bool := context.pins.contains (some chain)

def enter (context : Context) (name : Option String) (chain : Option ElementId) : Context :=
  { context with
    expanding := if context.isExpanding name then context.expanding else name :: context.expanding
    pins := chain :: context.pins }

/-- Takes one pin of the chain away. The name is no longer expanding, even if
another pin still names it. -/
def leave (context : Context) (name : Option String) (chain : Option ElementId) : Context :=
  { context with
    expanding := context.expanding.filter (· != name)
    pins := context.pins.erase chain }

def chains (context : Context) : List ElementId :=
  context.cache.entries.filterMap fun entry => entry.2.chain

end Context

end Stencil
