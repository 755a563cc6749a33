import Stencil.Store.Basic

/-!
When the links of a store fit together. Siblings point at each other and share
their owner; an owner points at the first member of its body, and this member
points back; every chain ends. Ownership is acyclic if no element is above
itself. Every element has a text, texts own nothing, and variables and commands
have valid names.
-/

namespace Stencil.Store

structure Consistent (store : Store) : Prop where
  next_iff_prev : ∀ before after,
    store.next before = some after ↔ store.prev after = some before
  same_owner : ∀ before after, store.next before = some after →
    store.parent before = store.parent after
  child_first : ∀ owner id, store.child owner = some id ↔
    store.parent id = some owner ∧ store.prev id = none
  ends : ∀ id, ∃ members, store.chain (some id) = .ok members
  text_bare : ∀ id, store.kind? id = some .text → store.child id = none
  named : ∀ id kind, store.kind? id = some kind → kind ≠ .text →
    ∃ name, store.text id = some name ∧ isName name = true
  worded : ∀ id, (store.kind? id).isSome → (store.text id).isSome

inductive Above (store : Store) : ElementId → ElementId → Prop where
  | owner (above below : ElementId) : store.parent below = some above → Above store above below
  | through (above between below : ElementId) :
      store.parent between = some above → Above store between below → Above store above below

def Acyclic (store : Store) : Prop := ∀ id, ¬ Above store id id

end Stencil.Store
