import Stencil.Store.Link

/-!
Destruction. A released element has no links and no properties; it keeps its
kind and its text. Destroying an element takes it out of its chain and releases
it with everything below it. The elements to release wait in a list, and each of
them leaves its links behind before the next one is looked at, so no link is
followed twice and the number of steps is bounded by the number of links.
-/

namespace Stencil.Store

def release (store : Store) (id : ElementId) : Store :=
  store.update id fun cell =>
    { cell with properties := {}, next := none, prev := none, child := none, parent := none }

def releaseFor (store : Store) : Nat → List ElementId → Store
  | 0, _ => store
  | _, [] => store
  | count + 1, id :: waiting =>
      let reached := (store.next id).toList ++ (store.child id).toList
      releaseFor (store.release id) count (reached ++ waiting)

def releaseAll (store : Store) (ids : List ElementId) : Store :=
  store.releaseFor (2 * store.size + ids.length + 1) ids

def destroyOne (store : Store) (id : ElementId) : Store :=
  let store := store.detach id
  let body := (store.child id).toList
  (store.release id).releaseAll body

def destroy (store : Store) : Option ElementId → Store × Option ElementId
  | none => (store, none)
  | some id =>
      let following := store.next id
      (store.destroyOne id, following)

def destroyAllFor (store : Store) : Nat → Option ElementId → Store
  | 0, _ => store
  | _, none => store
  | count + 1, some id =>
      let following := store.next id
      destroyAllFor (store.destroyOne id) count following

/-- Destroys an element and everything after it in its chain. Every two steps
remove a link between siblings, so the steps suffice. -/
def destroyAll (store : Store) (start : Option ElementId) : Store :=
  store.destroyAllFor (4 * store.size + 4) start

end Stencil.Store
