import Stencil.Proofs.SubtreeRelease

/-!
Destruction keeps a store linked. What is reached from an element without
neighbours and without an owner is enclosed: no link leads into it or out of it,
so it can be cleared as a whole. Destroying a chain from its start on takes one
step for each member, and afterwards the owner of the chain has no body.
-/

namespace Stencil.Store

open Relation

structure Enclosed (store : Store) (region : ElementId → Prop) : Prop where
  next : ∀ id, region id → ∀ other, store.next id = some other → region other
  prev : ∀ id, region id → ∀ other, store.prev id = some other → region other
  child : ∀ id, region id → ∀ other, store.child id = some other → region other
  parent : ∀ id, region id → ∀ other, store.parent id = some other → region other

/-- The region is released and everything else left as it is. -/
structure Cleared (store cleared : Store) (region : ElementId → Prop) : Prop where
  within : ∀ id, region id → cleared.get? id = (store.release id).get? id
  beyond : ∀ id, ¬ region id → cleared.get? id = store.get? id

section Clearing

variable {store cleared : Store} {region : ElementId → Prop}

theorem reached_enclosed (linked : store.Linked) {id : ElementId}
    (noPrev : store.prev id = none) (noParent : store.parent id = none) :
    store.Enclosed (store.Reached [id]) := by
  have onward : ∀ before after, store.Reached [id] before → store.Leads before after →
      store.Reached [id] after := by
    rintro before after ⟨start, isStart, walk⟩ step
    exact ⟨start, isStart, walk.tail step⟩
  -- The links backward of a reached element lead to what was reached before it.
  have backward : ∀ other, store.Reached [id] other →
      (∀ before, store.prev other = some before → store.Reached [id] before) ∧
      (∀ owner, store.parent other = some owner → store.Reached [id] owner) := by
    rintro other ⟨start, isStart, walk⟩
    have same := List.mem_singleton.mp isStart
    subst same
    induction walk with
    | refl => simp [noPrev, noParent]
    | @tail before after walk step ih =>
        have here : store.Reached [start] before := ⟨start, isStart, walk⟩
        rcases step with next | child
        · constructor
          · intro other prev
            rw [(linked.next_prev before after).mp next] at prev
            exact Option.some.inj prev ▸ here
          · intro owner owned
            exact ih.2 owner ((linked.siblings before after next).trans owned)
        · obtain ⟨owned, first⟩ := (linked.first before after).mp child
          constructor
          · intro other prev
            rw [first] at prev
            cases prev
          · intro owner isOwner
            rw [owned] at isOwner
            exact Option.some.inj isOwner ▸ here
  exact ⟨fun id reached other next => onward id other reached (Or.inl next),
    fun id reached => (backward id reached).1,
    fun id reached other child => onward id other reached (Or.inr child),
    fun id reached => (backward id reached).2⟩

theorem links_of_get? {other : Store} {id otherId : ElementId}
    (same : other.get? otherId = store.get? id) :
    other.next otherId = store.next id ∧ other.prev otherId = store.prev id ∧
      other.child otherId = store.child id ∧ other.parent otherId = store.parent id := by
  simp only [next, prev, child, parent, same, and_self]

variable (clears : Cleared store cleared region) (enclosed : store.Enclosed region)
include clears

theorem Cleared.unlinked (id : ElementId) (member : region id) :
    cleared.next id = none ∧ cleared.prev id = none ∧ cleared.child id = none ∧
      cleared.parent id = none := by
  have links := links_of_get? (clears.within id member)
  have none := release_unlinked store id
  exact ⟨links.1.trans none.1, links.2.1.trans none.2.1, links.2.2.1.trans none.2.2.1,
    links.2.2.2.trans none.2.2.2⟩

include enclosed

theorem cleared_linked (linked : store.Linked) : cleared.Linked where
  next_prev := by
    intro before after
    have old := linked.next_prev before after
    -- Inside no link is left, and none that is left outside leads in.
    by_cases left : region before <;> by_cases right : region after
    · simp [(clears.unlinked before left).1, (clears.unlinked after right).2.1]
    · have apart : store.next before ≠ some after := fun next =>
        right (enclosed.next before left after next)
      have same := links_of_get? (clears.beyond after right)
      simp [(clears.unlinked before left).1, same.2.1, ← old, apart]
    · have apart : store.prev after ≠ some before := fun prev =>
        left (enclosed.prev after right before prev)
      have same := links_of_get? (clears.beyond before left)
      simp [(clears.unlinked after right).2.1, same.1, old, apart]
    · rw [(links_of_get? (clears.beyond before left)).1,
        (links_of_get? (clears.beyond after right)).2.1, old]
  siblings := by
    intro before after next
    by_cases left : region before
    · simp [(clears.unlinked before left).1] at next
    · have here := links_of_get? (clears.beyond before left)
      have step : store.next before = some after := here.1 ▸ next
      have right : ¬ region after := fun member =>
        left (enclosed.prev after member before ((linked.next_prev before after).mp step))
      rw [here.2.2.2, (links_of_get? (clears.beyond after right)).2.2.2]
      exact linked.siblings before after step
  first := by
    intro owner id
    have old := linked.first owner id
    by_cases left : region owner <;> by_cases right : region id
    · simp [(clears.unlinked owner left).2.2.1, (clears.unlinked id right).2.2.2]
    · have apart : store.child owner ≠ some id := fun child =>
        right (enclosed.child owner left id child)
      have same := links_of_get? (clears.beyond id right)
      simp [(clears.unlinked owner left).2.2.1, same.2.1, same.2.2.2, ← old, apart]
    · have apart : store.parent id ≠ some owner := fun parent =>
        left (enclosed.parent id right owner parent)
      have same := links_of_get? (clears.beyond owner left)
      simp [(clears.unlinked id right).2.2.2, same.2.2.1, old, apart]
    · have here := links_of_get? (clears.beyond owner left)
      have there := links_of_get? (clears.beyond id right)
      rw [here.2.2.1, there.2.1, there.2.2.2, old]
  straight := by
    refine fun circular => linked.straight (circular_of_subset ?_ circular)
    intro before after next
    by_cases left : region before
    · rw [Follows, (clears.unlinked before left).1] at next
      cases next
    · exact (links_of_get? (clears.beyond before left)).1.symm.trans next

end Clearing

section Destroy

variable {store : Store} (linked : store.Linked) (id : ElementId)
include linked

theorem detached_alone :
    (store.detach id).next id = none ∧ (store.detach id).prev id = none ∧
      (store.detach id).parent id = none := by
  have reads := detach_reads linked id
  rw [reads.next, reads.prev, reads.parent]
  simp

/-- Destroying an element clears what is reached from it once it was taken out. -/
theorem destroyOne_cleared :
    Cleared (store.detach id) (store.destroyOne id) ((store.detach id).Reached [id]) := by
  -- The element is released at once, so the list starts with its body alone.
  have start : (store.detach id).leadsTo id = ((store.detach id).child id).toList := by
    simp [leadsTo, (detached_alone linked id).1]
  have enough : ((store.detach id).release id).linkCount +
      ((store.detach id).child id).toList.length ≤
      2 * ((store.detach id).release id).size + ((store.detach id).child id).toList.length + 1 := by
    have bound := linkCount_le ((store.detach id).release id)
    omega
  have spec := releaseFor_get? _ _ _ enough
  constructor
  · intro other reached
    by_cases same : other = id
    · subst same
      by_cases again : ((store.detach other).release other).Reached
          ((store.detach other).child other).toList other
      · exact ((spec other).1 again).trans (release_twice _ other)
      · exact (spec other).2 again
    · have rest := (reached_cons [] same).mp reached
      rw [start, List.append_nil] at rest
      refine ((spec other).1 rest).trans ?_
      simp only [release, get?_update, if_true, if_neg (Ne.symm same)]
  · intro other missed
    have different : other ≠ id := fun same => missed ⟨id, List.mem_singleton_self id, same ▸ .refl⟩
    have rest : ¬ ((store.detach id).release id).Reached
        ((store.detach id).child id).toList other := by
      intro reached
      apply missed
      rw [reached_cons [] different, start, List.append_nil]
      exact reached
    exact ((spec other).2 rest).trans (get?_release_elsewhere _ id other (Ne.symm different))

theorem detached_enclosed : (store.detach id).Enclosed ((store.detach id).Reached [id]) := by
  obtain ⟨_, noPrev, noParent⟩ := detached_alone linked id
  exact reached_enclosed (detach_linked linked id) noPrev noParent

theorem destroyOne_linked : (store.destroyOne id).Linked :=
  cleared_linked (destroyOne_cleared linked id) (detached_enclosed linked id)
    (detach_linked linked id)

end Destroy

/-- What destruction leaves of a store: links may be gone, and elements may have
moved up to the front of their chain. -/
structure Pruned (store pruned : Store) : Prop where
  size : pruned.size = store.size
  label : ∀ id, pruned.label id = store.label id
  parent : ∀ id, pruned.parent id = store.parent id ∨ pruned.parent id = none
  prev : ∀ id, store.prev id = none → pruned.prev id = none
  child : ∀ id, store.child id = none → pruned.child id = none

section Prune

variable {store : Store}

theorem Pruned.refl : Pruned store store :=
  ⟨rfl, fun _ => rfl, fun _ => Or.inl rfl, fun _ => id, fun _ => id⟩

theorem Pruned.trans {between pruned : Store} (first : Pruned store between)
    (second : Pruned between pruned) : Pruned store pruned where
  size := second.size.trans first.size
  label := fun id => (second.label id).trans (first.label id)
  parent := by
    intro id
    rcases second.parent id with same | gone
    · rw [same]
      exact first.parent id
    · exact Or.inr gone
  prev := fun id none => second.prev id (first.prev id none)
  child := fun id none => second.child id (first.child id none)

theorem Pruned.unowned {pruned : Store} (prunes : Pruned store pruned) {id : ElementId}
    (noParent : store.parent id = none) : pruned.parent id = none := by
  rcases prunes.parent id with same | gone
  · exact same.trans noParent
  · exact gone

theorem detach_pruned (linked : store.Linked) (id : ElementId) :
    Pruned store (store.detach id) := by
  have reads := detach_reads linked id
  refine ⟨by simp [detach_eq], fun other => by simp [detach_eq], ?_, ?_, ?_⟩
  · intro other
    rw [reads.parent]
    by_cases same : other = id <;> simp [same]
  · intro other noPrev
    rw [reads.prev]
    by_cases follows : store.next id = some other
    · rw [(linked.next_prev id other).mp follows] at noPrev
      cases noPrev
    · simp [follows, noPrev]
  · intro other noChild
    rw [reads.child]
    simp [noChild]

theorem release_pruned (store : Store) (id : ElementId) : Pruned store (store.release id) := by
  refine ⟨size_release store id, fun other => label_update store id other _ fun _ => ⟨rfl, rfl⟩,
    ?_, ?_, ?_⟩
  all_goals
    intro other
    by_cases same : id = other
    · have none := release_unlinked store other
      simp [same, none]
    · have links := links_of_get? (get?_release_elsewhere store id other same)
      simp [links]

theorem releaseFor_pruned (count : Nat) (store : Store) (ids : List ElementId) :
    Pruned store (store.releaseFor count ids) := by
  induction count generalizing store ids with
  | zero => exact .refl
  | succ count ih =>
      cases ids with
      | nil => exact .refl
      | cons id waiting => exact (release_pruned store id).trans (ih _ _)

variable (linked : store.Linked)
include linked

theorem destroyOne_pruned (id : ElementId) : Pruned store (store.destroyOne id) :=
  ((detach_pruned linked id).trans (release_pruned _ id)).trans (releaseFor_pruned _ _ _)

theorem destroyOne_links (id other : ElementId) :
    ((store.destroyOne id).next other = (store.detach id).next other ∨
      (store.destroyOne id).next other = none) ∧
    ((store.destroyOne id).child other = (store.detach id).child other ∨
      (store.destroyOne id).child other = none) := by
  have clears := destroyOne_cleared linked id
  by_cases member : (store.detach id).Reached [id] other
  · have gone := clears.unlinked other member
    exact ⟨Or.inr gone.1, Or.inr gone.2.2.1⟩
  · have links := links_of_get? (clears.beyond other member)
    exact ⟨Or.inl links.1, Or.inl links.2.2.1⟩

theorem destroyOne_ended (count : Nat) (id : ElementId)
    (ended : (store.visitFor count (store.next id)).2 = none) :
    ((store.destroyOne id).visitFor count (store.next id)).2 = none := by
  apply visitFor_fewer count (store.next id) _ ended
  intro after next before onward
  have different : before ≠ id := fun same =>
    linked.straight ⟨id, TransGen.head' next (same ▸ onward)⟩
  have notBefore : store.prev id ≠ some before := fun prev =>
    linked.straight ⟨id, TransGen.head' next
      (onward.tail ((linked.next_prev before id).mpr prev))⟩
  have kept : (store.detach id).next before = store.next before := by
    rw [(detach_reads linked id).next, if_neg different, if_neg notBefore]
  rw [← kept]
  exact (destroyOne_links linked id before).1

theorem destroyAllFor_linked (count : Nat) (start : Option ElementId) :
    (store.destroyAllFor count start).Linked := by
  induction count generalizing store start with
  | zero => exact linked
  | succ count ih =>
      cases start with
      | none => exact linked
      | some id => exact ih (destroyOne_linked linked id) _

theorem destroyAllFor_pruned (count : Nat) (start : Option ElementId) :
    Pruned store (store.destroyAllFor count start) := by
  induction count generalizing store start with
  | zero => exact .refl
  | succ count ih =>
      cases start with
      | none => exact .refl
      | some id => exact (destroyOne_pruned linked id).trans (ih (destroyOne_linked linked id) _)

/-- An owner whose body is destroyed from its first member on ends up without
one: its body begins with the next member to destroy, or is gone already. -/
theorem destroyAllFor_child (count : Nat) (start : Option ElementId) (owner : ElementId)
    (heads : store.child owner = start ∨ store.child owner = none)
    (ended : (store.visitFor count start).2 = none) :
    (store.destroyAllFor count start).child owner = none := by
  induction count generalizing store start with
  | zero =>
      cases start with
      | none => exact heads.elim id id
      | some id => simp [visitFor] at ended
  | succ count ih =>
      cases start with
      | none => exact heads.elim id id
      | some id =>
          refine ih (destroyOne_linked linked id) _ ?_ (destroyOne_ended linked count id ended)
          rcases heads with isHead | none
          · have passed : (store.detach id).child owner = store.next id := by
              rw [(detach_reads linked id).child, if_pos isHead]
            rw [← passed]
            exact (destroyOne_links linked id owner).2
          · exact Or.inr ((destroyOne_pruned linked id).child owner none)

theorem destroyAll_linked (start : Option ElementId) : (store.destroyAll start).Linked :=
  destroyAllFor_linked linked _ start

theorem destroyAll_pruned (start : Option ElementId) : Pruned store (store.destroyAll start) :=
  destroyAllFor_pruned linked _ start

theorem destroyAll_child (owner : ElementId) :
    (store.destroyAll (store.child owner)).child owner = none :=
  destroyAllFor_child linked _ _ owner (Or.inl rfl)
    (visitFor_more (by omega) _ (visit_ends linked.straight (store.child owner)))

end Prune

end Stencil.Store
