import Stencil.Proofs.Destruction
import Stencil.Store.Body

/-!
Replacing a body. With checks on, a chain is admitted if nothing stands before it,
nothing owns it and the new owner is none of its members. The old body is
destroyed first. What it leaves unowned stays unowned, so the chain may still be
taken over, and the owner has no body any more that the new one could clash with.
-/

namespace Stencil.Store

open Relation

/-- The chain may become the body of the owner. No chain may always. -/
def Admitted (store : Store) (owner : ElementId) (content : Option ElementId) : Prop :=
  ∀ head, content = some head → store.prev head = none ∧ store.parent head = none ∧
    owner ∉ (store.visit (some head)).1

def installed (store : Store) (owner : ElementId) (content : Option ElementId) : Store :=
  let emptied := store.destroyAll (store.child owner)
  (emptied.setParents (some owner) (emptied.visit content).1).setChild owner content

section Kinds

variable {store : Store} {kind : Kind}

theorem kindRefusal_store {owner : Option ElementId} {refusal : Outcome}
    (refused : store.kindRefusal kind owner = some refusal) : refusal.store = store := by
  cases owner with
  | none =>
      cases refused
      rfl
  | some host =>
      simp only [kindRefusal] at refused
      split at refused
      · cases refused
      · cases refused
        rfl

theorem kind_of_accepted {host : ElementId}
    (accepted : store.kindRefusal kind (some host) = none) : store.kind? host = some kind := by
  by_cases fits : store.kind? host = some kind
  · exact fits
  · simp [kindRefusal, fits] at accepted

end Kinds

section Install

variable {store : Store} (linked : store.Linked)
include linked

theorem replaceBody_eq (owner : ElementId) (content : Option ElementId) :
    store.replaceBody owner content = .ok { store := store.installed owner content } := by
  have straight := (destroyAll_linked linked (store.child owner)).straight
  simp only [replaceBody, chain_eq straight, ok_bind, pure_eq_ok]
  rfl

theorem bodyRefusal_cases (owner : ElementId) (content : Option ElementId) :
    (¬ store.Admitted owner content ∧
      ∃ refusal, store.bodyRefusal owner content = .ok (some refusal) ∧
        refusal.store = store ∧ refusal.status = .elementInUse) ∨
    store.Admitted owner content ∧ store.bodyRefusal owner content = .ok none := by
  cases content with
  | none =>
      refine Or.inr ⟨?_, rfl⟩
      rintro head ⟨⟩
  | some head =>
      have headVisited := (mem_visit_iff linked.straight head head).mpr .refl
      by_cases before : (store.prev head).isSome
      · refine Or.inl ⟨fun admitted => ?_,
          { store, status := .elementInUse }, by simp [bodyRefusal, before], rfl, rfl⟩
        rw [(admitted head rfl).1] at before
        cases before
      · by_cases owned : (store.visit (some head)).1.any
            fun id => (store.parent id).isSome || id == owner
        · refine Or.inl ⟨fun admitted => ?_,
            { store, status := .elementInUse, notices := [.contentOwned] }, ?_, rfl, rfl⟩
          -- The members of a chain have one owner, so if the head has none they have none.
          · obtain ⟨_, noParent, apart⟩ := admitted head rfl
            obtain ⟨id, visited, isOwned⟩ := List.any_eq_true.mp owned
            have onward := (mem_visit_iff linked.straight head id).mp visited
            rw [linked.parent_of_onward onward, noParent] at isOwned
            simp only [Option.isSome_none, Bool.false_or, beq_iff_eq] at isOwned
            exact apart (isOwned ▸ visited)
          · simp only [bodyRefusal, if_neg before, if_pos owned]
        · have ended := visit_ends linked.straight (some head)
          refine Or.inr ⟨?_, by simp [bodyRefusal, before, owned, ended]⟩
          rintro _ ⟨⟩
          simp only [List.any_eq_true, not_exists, not_and, Bool.or_eq_true, not_or,
            beq_iff_eq, Option.not_isSome_iff_eq_none] at owned
          exact ⟨Option.not_isSome_iff_eq_none.mp before, (owned head headVisited).1,
            fun visited => (owned owner visited).2 rfl⟩

/-- With checks on, a chain is refused and nothing changes, or it is admitted. -/
theorem install_cases (owner : ElementId) (content : Option ElementId) :
    (¬ store.Admitted owner content ∧
      ∃ refusal, store.install true owner content = .ok refusal ∧
        refusal.store = store ∧ refusal.status = .elementInUse) ∨
    store.Admitted owner content ∧
      store.install true owner content = .ok { store := store.installed owner content } := by
  rcases bodyRefusal_cases linked owner content with ⟨barred, refusal, refused, same, status⟩ |
    ⟨admitted, accepted⟩
  · exact Or.inl ⟨barred, refusal, by simp [install, refused], same, status⟩
  · exact Or.inr ⟨admitted, by simp [install, accepted, replaceBody_eq linked]⟩

theorem setBody_cases (expected : Kind) (owner content : Option ElementId) :
    ((∀ host, owner = some host → store.kind? host = some expected →
        ¬ store.Admitted host content) ∧
      ∃ refusal, store.setBody true expected owner content = .ok refusal ∧
        refusal.store = store ∧ refusal.status ≠ .ok) ∨
    ∃ host, owner = some host ∧ store.kind? host = some expected ∧
      store.Admitted host content ∧
      store.setBody true expected owner content =
        .ok { store := store.installed host content } := by
  cases owner with
  | none => exact Or.inl ⟨by simp, { store, status := .invalidParameter }, rfl, rfl, by simp⟩
  | some host =>
      by_cases fits : store.kind? host = some expected
      · have step : store.setBody true expected (some host) content =
            store.install true host content := by
          simp [setBody, kindRefusal, fits, present]
        rcases install_cases linked host content with ⟨barred, refusal, refused, same, status⟩ |
          ⟨admitted, installs⟩
        · refine Or.inl ⟨?_, refusal, step.trans refused, same, by simp [status]⟩
          rintro _ ⟨⟩ _
          exact barred
        · exact Or.inr ⟨host, rfl, fits, admitted, step.trans installs⟩
      · refine Or.inl ⟨?_, { store, status := kindStatus expected }, ?_, rfl, ?_⟩
        · rintro _ ⟨⟩ isKind
          exact absurd isKind fits
        · simp [setBody, kindRefusal, fits]
        · cases expected <;> simp [kindStatus]

end Install

structure Installed (emptied installed : Store) (owner : ElementId) (content : Option ElementId)
    (members : List ElementId) : Prop where
  size : installed.size = emptied.size
  label : ∀ id, installed.label id = emptied.label id
  next : ∀ id, installed.next id = emptied.next id
  prev : ∀ id, installed.prev id = emptied.prev id
  parent : ∀ id, installed.parent id = if id ∈ members then some owner else emptied.parent id
  child : ∀ id, installed.child id = if id = owner then content else emptied.child id

section Reads

variable {store : Store} (linked : store.Linked) {owner : ElementId} {content : Option ElementId}
variable (hostInside : owner < store.size)
variable (inside : ∀ head, content = some head → head < store.size)
variable (admitted : store.Admitted owner content)
include linked hostInside inside admitted

omit hostInside in
theorem installed_loose {head : ElementId} (isHead : content = some head) :
    let emptied := store.destroyAll (store.child owner)
    emptied.Loose head ((emptied.visit content).1.getLast?.getD head)
      (emptied.visit content).1 := by
  have prunes := destroyAll_pruned linked (store.child owner)
  obtain ⟨noPrev, noParent, _⟩ := admitted head isHead
  rw [isHead]
  exact (destroyAll_linked linked _).loose (prunes.size ▸ inside head isHead)
    (prunes.prev head noPrev) (prunes.unowned noParent)

theorem installed_reads :
    Installed (store.destroyAll (store.child owner)) (store.installed owner content) owner content
      ((store.destroyAll (store.child owner)).visit content).1 := by
  have prunes := destroyAll_pruned linked (store.child owner)
  have membersInside : ∀ id ∈ ((store.destroyAll (store.child owner)).visit content).1,
      id < (store.destroyAll (store.child owner)).size := by
    cases isHead : content with
    | none => simp [visit, visitFor]
    | some head =>
        have loose := installed_loose linked inside admitted isHead
        simp only [isHead] at loose
        exact loose.inside
  refine ⟨by simp [installed], fun id => by simp [installed], fun id => by simp [installed],
    fun id => by simp [installed], fun id => ?_, fun id => ?_⟩
  · simp only [installed, parent_setChild]
    exact parent_setParents _ _ _ id membersInside
  · simp only [installed]
    rw [child_setChild (by simpa [prunes.size] using hostInside)]
    simp [eq_comm]

theorem installed_linked : (store.installed owner content).Linked := by
  have reads := installed_reads linked hostInside inside admitted
  have emptied := destroyAll_linked linked (store.child owner)
  have bare := destroyAll_child linked owner
  have loose : ∀ head, content = some head → _ := fun head isHead =>
    installed_loose linked inside admitted isHead
  generalize store.destroyAll (store.child owner) = left at reads emptied bare loose
  constructor
  · intro before after
    rw [reads.next, reads.prev]
    exact emptied.next_prev before after
  · intro before after next
    rw [reads.next] at next
    have old := emptied.siblings before after next
    have back := (emptied.next_prev before after).mp next
    rw [reads.parent, reads.parent]
    cases isHead : content with
    | none => simpa [visit, visitFor] using old
    | some head =>
        have chain := loose head isHead
        simp only [isHead] at chain
        have same : before ∈ (left.visit (some head)).1 ↔ after ∈ (left.visit (some head)).1 :=
          ⟨fun member => chain.forward before member after next,
            fun member => chain.backward after member before back⟩
        simp [same, old]
  · intro host id
    have old := emptied.first host id
    have oldOwner := emptied.first owner id
    rw [reads.child, reads.parent, reads.prev]
    cases isHead : content with
    | none => grind [visit, visitFor]
    | some head =>
        have chain := loose head isHead
        simp only [isHead] at chain
        have unowned := chain.unowned id
        have onlyFirst := chain.only_first id
        have headMember := chain.first_mem
        have noPrev := chain.no_prev
        grind
  · refine fun circular => emptied.straight (circular_of_subset ?_ circular)
    intro before after next
    rwa [Follows, reads.next] at next

end Reads

end Stencil.Store
