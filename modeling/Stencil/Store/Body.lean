import Stencil.Store.Release

/-!
Bodies. An element owns the chain that is its body, and every member names it as
its owner. `install` replaces a body: the old one is destroyed, the new chain is
taken over. With checks on, a chain is refused if it has a sibling before its
first member, if one of its members has an owner, or if the element itself is a
member.
-/

namespace Stencil.Store

def bodyRefusal (store : Store) (owner : ElementId) :
    Option ElementId → Except Fault (Option Outcome)
  | none => .ok none
  | some content =>
      let walk := store.visit (some content)
      if (store.prev content).isSome then
        .ok (some { store, status := .elementInUse })
      else if walk.1.any fun id => (store.parent id).isSome || id == owner then
        .ok (some { store, status := .elementInUse, notices := [.contentOwned] })
      else if walk.2.isSome then .error .endless
      else .ok none

def replaceBody (store : Store) (owner : ElementId) (content : Option ElementId) :
    Except Fault Outcome := do
  let emptied := store.destroyAll (store.child owner)
  let members ← emptied.chain content
  pure { store := (emptied.setParents (some owner) members).setChild owner content }

def install (checks : Bool) (store : Store) (owner : ElementId) (content : Option ElementId) :
    Except Fault Outcome := do
  match ← if checks then store.bodyRefusal owner content else pure none with
  | some refusal => pure refusal
  | none => store.replaceBody owner content

def kindStatus : Kind → Status
  | .text => .notText
  | .variable => .notVariable
  | .command => .notCommand

def kindRefusal (store : Store) (expected : Kind) : Option ElementId → Option Outcome
  | none => some { store, status := .invalidParameter }
  | some id =>
      if store.kind? id = some expected then none
      else some { store, status := kindStatus expected }

def setBody (checks : Bool) (store : Store) (expected : Kind) (owner content : Option ElementId) :
    Except Fault Outcome :=
  match if checks then store.kindRefusal expected owner else none with
  | some refusal => .ok refusal
  | none => do
      let owner ← present owner
      store.install checks owner content

def bodyOf (checks : Bool) (store : Store) (expected : Kind) (element : Option ElementId) :
    Except Fault (Option ElementId × List Notice) := do
  let id ← present element
  if checks && store.kind? id != some expected then
    pure (none, [.kindDiffers (shown (store.text id)) expected])
  else pure (store.child id, [])

/-- Replaces the text of a text element. Without checks it replaces that of any
element, and may take it away. -/
def replaceText (checks : Bool) (store : Store) (element : Option ElementId)
    (text : Option String) : Except Fault Outcome :=
  let refusal := match element, text with
    | some _, some _ => store.kindRefusal .text element
    | _, _ => some { store, status := .invalidParameter }
  match if checks then refusal else none with
  | some refusal => .ok refusal
  | none => do
      let id ← present element
      pure { store := store.setText id text }

def replaceProperties (checks : Bool) (store : Store) (element : Option ElementId)
    (properties : Option (Table String String)) : Except Fault Outcome :=
  let refusal := match element, properties with
    | some _, some _ => store.kindRefusal .command element
    | _, _ => some { store, status := .invalidParameter }
  match if checks then refusal else none with
  | some refusal => .ok refusal
  | none =>
      match properties with
      | none => .error .noValue
      | some properties => do
          let id ← present element
          pure { store := store.setProperties id properties }

end Stencil.Store
