import Stencil.Fault
import Stencil.Forest
import Stencil.Notice

/-!
The store of elements. Every element that was ever made keeps its cell, so an
id never comes to mean another element. The links of an id without a cell are
all empty. `visit` walks a chain along `next` and tells where it stopped; with
more steps than cells it stops early exactly on a chain that runs in a circle.
-/

namespace Stencil

structure Store where
  cells : Array Element := #[]
  deriving DecidableEq, Repr

namespace Store

def size (store : Store) : Nat := store.cells.size

def get? (store : Store) (id : ElementId) : Option Element := store.cells[id]?

def next (store : Store) (id : ElementId) : Option ElementId :=
  (store.get? id).bind Element.next

def prev (store : Store) (id : ElementId) : Option ElementId :=
  (store.get? id).bind Element.prev

def child (store : Store) (id : ElementId) : Option ElementId :=
  (store.get? id).bind Element.child

def parent (store : Store) (id : ElementId) : Option ElementId :=
  (store.get? id).bind Element.parent

def node? (store : Store) (id : ElementId) : Option Node :=
  (store.get? id).map Element.toNode

def kind? (store : Store) (id : ElementId) : Option Kind :=
  (store.get? id).map fun cell => cell.kind

def text (store : Store) (id : ElementId) : Option String :=
  (store.get? id).bind fun cell => cell.text

def properties (store : Store) (id : ElementId) : Table String String :=
  ((store.get? id).map fun cell => cell.properties).getD {}

/-- Adds an unlinked element; its id is the size of the store before. -/
def add (store : Store) (node : Node) : Store := ⟨store.cells.push { toNode := node }⟩

def update (store : Store) (id : ElementId) (change : Element → Element) : Store :=
  ⟨store.cells.modify id change⟩

def setNext (store : Store) (id : ElementId) (link : Option ElementId) : Store :=
  store.update id fun cell => { cell with next := link }

def setPrev (store : Store) (id : ElementId) (link : Option ElementId) : Store :=
  store.update id fun cell => { cell with prev := link }

def setChild (store : Store) (id : ElementId) (link : Option ElementId) : Store :=
  store.update id fun cell => { cell with child := link }

def setParent (store : Store) (id : ElementId) (link : Option ElementId) : Store :=
  store.update id fun cell => { cell with parent := link }

def setText (store : Store) (id : ElementId) (text : Option String) : Store :=
  store.update id fun cell => { cell with text := text }

def setProperties (store : Store) (id : ElementId) (properties : Table String String) : Store :=
  store.update id fun cell => { cell with properties := properties }

def addNamed (store : Store) (kind : Kind) (name : String) : Option Store :=
  if isName name then some (store.add ⟨kind, some name, {}⟩) else none

def visitFor (store : Store) : Nat → Option ElementId → List ElementId × Option ElementId
  | _, none => ([], none)
  | 0, some id => ([], some id)
  | count + 1, some id =>
      let tail := visitFor store count (store.next id)
      (id :: tail.1, tail.2)

def visit (store : Store) (start : Option ElementId) : List ElementId × Option ElementId :=
  store.visitFor (store.size + 1) start

def chain (store : Store) (start : Option ElementId) : Except Fault (List ElementId) :=
  match store.visit start with
  | (members, none) => .ok members
  | (_, some _) => .error .endless

def firstFor (store : Store) : Nat → ElementId → Except Fault ElementId
  | 0, _ => .error .endless
  | count + 1, id =>
      match store.prev id with
      | none => .ok id
      | some before => firstFor store count before

def first (store : Store) (id : ElementId) : Except Fault ElementId :=
  store.firstFor (store.size + 1) id

def last (store : Store) (id : ElementId) : Except Fault ElementId :=
  (store.chain (some id)).map fun members => members.getLast?.getD id

def present : Option ElementId → Except Fault ElementId
  | some id => .ok id
  | none => .error .noElement

end Store

structure Outcome where
  store : Store
  status : Status := .ok
  notices : List Notice := []
  deriving DecidableEq, Repr

end Stencil
