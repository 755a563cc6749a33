import Stencil.Store.Basic

/-!
Linking and unlinking. `append` and `insert` put a chain beside an element, and
`remove` takes one element with its body out of its chain. With checks on, a
chain is only taken if its first member has neither a sibling before it nor an
owner, and if the element it goes beside is none of its members. The checks come
before the first change, so a refusal leaves the store as it was.
-/

namespace Stencil.Store

def linkRefusal (store : Store) (position element : Option ElementId) : Option Outcome :=
  match position, element with
  | some _, some element =>
      if (store.prev element).isSome || (store.parent element).isSome then
        some { store, status := .elementInUse, notices := [.elementLinked] }
      else none
  | _, _ => some { store, status := .invalidParameter }

def setParents (store : Store) (parent : Option ElementId) (members : List ElementId) : Store :=
  members.foldl (fun store id => store.setParent id parent) store

/-- Gives the chain from `element` on the owner of `position` and then lets
`splice` link it, first and last member given. -/
def adopt (checks : Bool) (store : Store) (position element : ElementId)
    (splice : Store → ElementId → ElementId → Store) : Except Fault Outcome :=
  let walk := store.visit (some element)
  if checks && walk.1.contains position then
    .ok { store, status := .elementInUse, notices := [.positionInChain] }
  else if walk.2.isSome then .error .endless
  else
    let owned := store.setParents (store.parent position) walk.1
    .ok { store := splice owned element (walk.1.getLast?.getD element) }

def spliceAfter (position : ElementId) (store : Store) (first last : ElementId) : Store :=
  let store := store.setPrev first (some position)
  let store := store.setNext last (store.next position)
  let store := store.setNext position (some first)
  match store.next last with
  | some after => store.setPrev after (some last)
  | none => store

/-- Links a chain by its first and last member before `position`. An owner whose
body began with `position` gets the new first member. -/
def spliceBefore (position : ElementId) (store : Store) (first last : ElementId) : Store :=
  let store := store.setPrev first (store.prev position)
  let store := store.setNext last (some position)
  let store := store.setPrev position (some last)
  match store.prev first, store.parent position with
  | some before, _ => store.setNext before (some first)
  | none, some owner =>
      if store.child owner = some position then store.setChild owner (some first) else store
  | none, none => store

def linkWith (checks : Bool) (store : Store) (position element : Option ElementId)
    (splice : ElementId → Store → ElementId → ElementId → Store) : Except Fault Outcome :=
  match if checks then store.linkRefusal position element else none with
  | some refusal => .ok refusal
  | none => do
      let position ← present position
      let element ← present element
      store.adopt checks position element (splice position)

def append (checks : Bool) (store : Store) (position element : Option ElementId) :
    Except Fault Outcome :=
  store.linkWith checks position element spliceAfter

def insert (checks : Bool) (store : Store) (position element : Option ElementId) :
    Except Fault Outcome :=
  store.linkWith checks position element spliceBefore

def detach (store : Store) (id : ElementId) : Store :=
  let next := store.next id
  let prev := store.prev id
  let store := match store.parent id with
    | some owner => if store.child owner = some id then store.setChild owner next else store
    | none => store
  let store := match next with
    | some after => store.setPrev after prev
    | none => store
  let store := match prev with
    | some before => store.setNext before next
    | none => store
  store.update id fun cell => { cell with next := none, prev := none, parent := none }

def remove (store : Store) : Option ElementId → Outcome
  | none => { store, status := .invalidParameter }
  | some id => { store := store.detach id }

end Stencil.Store
