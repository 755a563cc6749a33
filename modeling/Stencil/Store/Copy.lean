import Stencil.Store.Basic

/-!
Reading a chain as a forest, and planting a forest as a new chain. A copy is the
forest of what is copied, planted anew: it shares no element with its model.
-/

namespace Stencil.Store

def forestFor (store : Store) : Nat → Option ElementId → Option Forest
  | _, none => some .nil
  | 0, some _ => none
  | count + 1, some id =>
      match store.get? id with
      | none => none
      | some cell => do
          let body ← forestFor store count cell.child
          let rest ← forestFor store count cell.next
          pure (.cons cell.toNode body rest)

/-- The chain from `start` on with all its bodies. A path along the links that
is longer than the store is large runs in a circle, and then there is no forest. -/
def forest? (store : Store) (start : Option ElementId) : Option Forest :=
  store.forestFor (store.size + 1) start

def tree? (store : Store) (id : ElementId) : Option Forest := do
  let cell ← store.get? id
  let body ← store.forest? cell.child
  pure (.cons cell.toNode body .nil)

def plant (store : Store) (parent prev : Option ElementId) : Forest → Store × Option ElementId
  | .nil => (store, none)
  | .cons node body rest =>
      let id := store.size
      let added : Store := ⟨store.cells.push { toNode := node, prev := prev, parent := parent }⟩
      let below := plant added (some id) none body
      let beside := plant (below.1.setChild id below.2) parent (some id) rest
      (beside.1.setNext id beside.2, some id)

def copy (store : Store) (id : ElementId) : Except Fault (Store × Option ElementId) :=
  match store.tree? id with
  | some tree => .ok (store.plant none none tree)
  | none => .error .endless

def copyAll (store : Store) (start : Option ElementId) : Except Fault (Store × Option ElementId) :=
  match store.forest? start with
  | some forest => .ok (store.plant none none forest)
  | none => .error .endless

end Stencil.Store
