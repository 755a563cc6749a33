import Stencil.Proofs.Confinement
import Stencil.Proofs.Ownership

/-!
Unowned chains and what edits leave of them. Two chains with different roots have
no element in common, so destroying one leaves the other alone. Putting a chain
behind an element or making it a body loses no root but its own. The siblings of
an unowned chain still come in their order after that, with others between them
at most.
-/

namespace Stencil

namespace Store

open Relation

structure Root (store : Store) (id : ElementId) : Prop where
  inside : id < store.size
  prev : store.prev id = none
  parent : store.parent id = none

def Spares (store changed : Store) (head : ElementId) : Prop :=
  ∀ id, store.Reached [head] id → changed.get? id = store.get? id

/-- What follows from the head on keeps its order; other elements may come between. -/
def Continues (store changed : Store) (head : ElementId) : Prop :=
  ∀ before after, store.Onward head before → store.next before = some after →
    TransGen changed.Follows before after

section Order

variable {store between changed : Store} {head before after : ElementId}

theorem Continues.of_next (same : ∀ id, store.Onward head id → changed.next id = store.next id) :
    Continues store changed head :=
  fun before _ onward next => .single ((same before onward).trans next)

theorem Continues.refl (store : Store) (head : ElementId) : Continues store store head :=
  .of_next fun _ _ => rfl

theorem Continues.later (continues : Continues store changed head)
    (onward : store.Onward head before) (later : TransGen store.Follows before after) :
    TransGen changed.Follows before after := by
  induction later with
  | single next => exact continues _ _ onward next
  | tail walk next ih => exact ih.trans (continues _ _ (onward.trans walk.to_reflTransGen) next)

theorem Continues.onward (continues : Continues store changed head)
    (onward : store.Onward head after) : changed.Onward head after := by
  induction onward with
  | refl => exact .refl
  | tail walk next ih => exact ih.trans (continues _ _ walk next).to_reflTransGen

theorem Continues.trans (first : Continues store between head)
    (second : Continues between changed head) : Continues store changed head :=
  fun before after onward next =>
    second.later (first.onward onward) (first before after onward next)

end Order

section Roots

variable {store between changed : Store} {head other id : ElementId}

theorem Root.pruned (root : store.Root id) (prunes : Pruned store changed) : changed.Root id where
  inside := prunes.size.symm ▸ root.inside
  prev := prunes.prev id root.prev
  parent := prunes.unowned root.parent

theorem Root.grow {start : Option ElementId} {forest : Forest} {ids : List ElementId}
    (root : store.Root id) (grows : Grown store changed start forest ids) : changed.Root id := by
  have links := grows.links root.inside
  obtain ⟨cell, found⟩ := exists_cell store id root.inside
  exact ⟨inside_of_get? ((grows.kept id root.inside).trans found), links.2.1.trans root.prev,
    links.2.2.2.trans root.parent⟩

theorem Grown.root {forest : Forest} {ids : List ElementId}
    (grows : Grown store changed (some head) forest ids) : changed.Root head := by
  obtain ⟨member, noPrev, noParent⟩ := grows.planted.start_links
  exact ⟨grows.planted.inside head member, noPrev, noParent⟩

theorem Grown.not_visited {forest : Forest} {ids : List ElementId}
    (grows : Grown store changed (some head) forest ids) (linked : changed.Linked)
    (old : id < store.size) : id ∉ (changed.visit (some head)).1 := by
  intro visited
  have onward := (mem_visit_iff linked.straight head id).mp visited
  have new := grows.fresh id (grows.onward grows.planted.start_links.1 onward)
  exact Nat.not_lt_of_le new old

theorem reached_single : store.Reached [head] id ↔ ReflTransGen store.Leads head id := by
  simp [Reached]

theorem Root.unled (linked : store.Linked) (root : store.Root id) : ¬ store.Leads head id := by
  rintro (next | child)
  · have prev := (linked.next_prev head id).mp next
    rw [root.prev] at prev
    cases prev
  · have parent := ((linked.first head id).mp child).1
    rw [root.parent] at parent
    cases parent

theorem Root.reached (linked : store.Linked) (root : store.Root id)
    (reached : store.Reached [head] id) : id = head := by
  rcases ReflTransGen.cases_tail (reached_single.mp reached) with same | ⟨_, _, leads⟩
  · exact same
  · exact absurd leads (root.unled linked)

theorem Enclosed.origin (linked : store.Linked) {region : ElementId → Prop}
    (enclosed : store.Enclosed region) (reached : store.Reached [head] id) (inside : region id) :
    region head := by
  rw [reached_single] at reached
  induction reached using ReflTransGen.head_induction_on with
  | refl => exact inside
  | head step _ ih =>
      rcases step with next | child
      · exact enclosed.prev _ ih _ ((linked.next_prev _ _).mp next)
      · exact enclosed.parent _ ih _ ((linked.first _ _).mp child).1

theorem Root.enclosed (linked : store.Linked) (root : store.Root head) :
    store.Enclosed (store.Reached [head]) :=
  reached_enclosed linked root.prev root.parent

theorem destroyAll_spares (linked : store.Linked) (root : store.Root head)
    (otherRoot : store.Root other) (different : other ≠ head) :
    Spares store (store.destroyAll (some head)) other := by
  have confined : Confined store (store.destroyAll (some head)) (store.Reached [head]) :=
    destroyAll_confined (root.enclosed linked) (into_some (reached_single.mpr .refl))
  intro id reached
  apply confined.beyond
  intro inside
  have shared := (root.enclosed linked).origin linked reached inside
  exact different (otherRoot.reached linked shared)

/-- What is reached from a root is there, since something links back from it. -/
theorem Root.reached_inside (linked : store.Linked) (root : store.Root head)
    (reached : store.Reached [head] id) : id < store.size := by
  rcases ReflTransGen.cases_tail (reached_single.mp reached) with same | ⟨before, _, step⟩
  · exact same ▸ root.inside
  · rcases step with next | child
    · exact inside_of_prev ((linked.next_prev before id).mp next)
    · exact inside_of_parent ((linked.first before id).mp child).1

theorem spares_grown {start : Option ElementId} {forest : Forest} {ids : List ElementId}
    (linked : store.Linked) (root : store.Root head)
    (grows : Grown store changed start forest ids) : Spares store changed head :=
  fun id reached => grows.kept id (root.reached_inside linked reached)

theorem Spares.reached (spares : Spares store changed head)
    (reached : store.Reached [head] id) : changed.Reached [head] id := by
  rw [reached_single] at reached ⊢
  induction reached with
  | refl => exact .refl
  | @tail before after walk step ih =>
      have links := links_of_get? (spares before (reached_single.mpr walk))
      exact ih.tail (step.imp links.1.trans links.2.2.1.trans)

theorem Spares.continues (spares : Spares store changed head) : Continues store changed head := by
  apply Continues.of_next
  intro id onward
  have reached : ReflTransGen store.Leads head id :=
    ReflTransGen.mono (fun _ _ next => Or.inl next) _ _ onward
  exact (links_of_get? (spares id (reached_single.mpr reached))).1

theorem Spares.trans (first : Spares store between head) (second : Spares between changed head) :
    Spares store changed head := fun id reached =>
  (second id (first.reached reached)).trans (first id reached)

theorem Root.visited (linked : store.Linked) (root : store.Root id)
    (visited : id ∈ (store.visit (some head)).1) : id = head := by
  have onward := (mem_visit_iff linked.straight head id).mp visited
  apply root.reached linked
  exact reached_single.mpr (ReflTransGen.mono (fun _ _ next => Or.inl next) _ _ onward)

end Roots

section Edits

variable {store : Store} (linked : store.Linked) {checks : Bool} {outcome : Outcome}
include linked

theorem taken_after_roots {host head id : ElementId} (there : host < store.size)
    (root : store.Root head) (apart : host ∉ (store.visit (some head)).1) (different : head ≠ id)
    (other : store.Root id) : (store.taken spliceAfter host head).Root id := by
  have reads := taken_after_reads linked there root.inside root.prev root.parent apart
  refine ⟨?_, ?_, ?_⟩
  · obtain ⟨cell, found⟩ := exists_cell store id other.inside
    have same : (store.taken spliceAfter host head).label id = store.label id := by
      simp only [taken, label_spliceAfter, label_setParents]
    rw [label, label, found] at same
    obtain ⟨_, still, _⟩ := Option.map_eq_some_iff.mp same
    exact inside_of_get? still
  · rw [reads.prev, if_neg, if_neg, other.prev]
    · exact fun same => different same.symm
    · intro next
      have prev := (linked.next_prev host id).mp next
      rw [other.prev] at prev
      cases prev
  · rw [reads.parent, if_neg, other.parent]
    intro visited
    exact different (other.visited linked visited).symm

theorem taken_after_continues {host head : ElementId} (there : host < store.size)
    (root : store.Root head) (apart : host ∉ (store.visit (some head)).1) (start : ElementId) :
    Continues store (store.taken spliceAfter host head) start := by
  have reads := taken_after_reads linked there root.inside root.prev root.parent apart
  have loose := linked.loose root.inside root.prev root.parent
  generalize (store.visit (some head)).1.getLast?.getD head = last at reads loose
  have within : ∀ member ∈ (store.visit (some head)).1, store.Onward member last →
      (store.taken spliceAfter host head).Onward member last := by
    intro member visited walk
    induction walk using ReflTransGen.head_induction_on with
    | refl => exact .refl
    | @head member after next _ ih =>
        have notHost : some host ≠ some member := fun same =>
          apart (Option.some.inj same ▸ visited)
        have notLast : member ≠ last := by
          rintro rfl
          rw [Follows, loose.no_next] at next
          cases next
        have same : (store.taken spliceAfter host head).next member = some after := by
          rw [reads.next, if_neg notHost, if_neg notLast]
          exact next
        exact .head same (ih (loose.forward member visited after next))
  have whole : (store.taken spliceAfter host head).Onward head last :=
    within head loose.first_mem ((mem_visit_iff linked.straight head last).mp loose.last_mem)
  intro before after _ next
  by_cases isHost : host = before
  · subst isHost
    have enters : (store.taken spliceAfter host head).next host = some head := by
      rw [reads.next, if_pos rfl]
    have leaves : (store.taken spliceAfter host head).next last = some after := by
      rw [reads.next, if_neg, if_pos rfl, next]
      exact fun same => apart (Option.some.inj same ▸ loose.last_mem)
    exact TransGen.head' enters (whole.tail leaves)
  · have notLast : before ≠ last := by
      rintro rfl
      rw [loose.no_next] at next
      cases next
    refine .single ?_
    rw [Follows, reads.next, if_neg (fun same => isHost (Option.some.inj same)), if_neg notLast,
      next]

theorem append_cases {position element : Option ElementId}
    (root : ∀ head, element = some head → store.Root head)
    (apart : ∀ host head, position = some host → element = some head →
      host ∉ (store.visit (some head)).1)
    (ran : store.append checks position element = .ok outcome) :
    outcome.store = store ∨ ∃ host head, position = some host ∧ element = some head ∧
      outcome.store = store.taken spliceAfter host head := by
  cases position with
  | none =>
      cases checks <;> cases ran
      exact Or.inl rfl
  | some host =>
      cases element with
      | none =>
          cases checks <;> cases ran
          exact Or.inl rfl
      | some head =>
          obtain ⟨_, noPrev, noParent⟩ := root head rfl
          have takes : store.append checks (some host) (some head) =
              .ok { store := store.taken spliceAfter host head } :=
            linkWith_takes linked.straight checks noPrev noParent (apart host head rfl rfl)
          rw [takes] at ran
          refine Or.inr ⟨host, head, rfl, rfl, ?_⟩
          rw [← Except.ok.inj ran]

theorem append_keeps {position element : Option ElementId}
    (hostInside : ∀ host, position = some host → host < store.size)
    (root : ∀ head, element = some head → store.Root head)
    (apart : ∀ host head, position = some host → element = some head →
      host ∉ (store.visit (some head)).1)
    (ran : store.append checks position element = .ok outcome) :
    outcome.store.Linked ∧
      (∀ id, element ≠ some id → store.Root id → outcome.store.Root id) ∧
      ∀ start, Continues store outcome.store start := by
  rcases append_cases linked root apart ran with same | ⟨host, head, isHost, isHead, takes⟩
  · rw [same]
    exact ⟨linked, fun _ _ => id, .refl store⟩
  · have there := hostInside host isHost
    have new := root head isHead
    have away := apart host head isHost isHead
    rw [takes]
    refine ⟨taken_after_linked linked there new.inside new.prev new.parent away, ?_,
      taken_after_continues linked there new away⟩
    intro id different
    exact taken_after_roots linked there new away fun same =>
      different (isHead.trans (congrArg some same))

theorem destroyOne_unowned_next {id other : ElementId}
    (owned : (store.parent id).isSome ∨
      store.next id = none ∧ store.prev id = none ∧ store.child id = none)
    (unowned : store.parent other = none) :
    (store.destroyOne id).next other = store.next other := by
  rcases owned with isOwned | ⟨noNext, noPrev, noChild⟩
  · obtain ⟨owner, isOwner⟩ := Option.isSome_iff_exists.mp isOwned
    exact destroyOne_next linked isOwner unowned
  · have reads := detach_reads linked id
    have clears := destroyOne_cleared linked id
    by_cases same : other = id
    · subst same
      rw [(clears.unlinked other ⟨other, by simp, .refl⟩).1, noNext]
    · have beyond : ¬ (store.detach id).Reached [id] other := by
        intro reached
        rcases ReflTransGen.cases_head (reached_single.mp reached) with
          isId | ⟨after, next | child, _⟩
        · exact same isId.symm
        · rw [reads.next, if_pos rfl] at next
          cases next
        · rw [reads.child, noChild] at child
          simp at child
      rw [(links_of_get? (clears.beyond other beyond)).1, reads.next, if_neg same, noPrev]
      simp

/-- While a body is being destroyed, the element that comes next is owned, or the
destruction of the one before it has left it alone. -/
theorem destroyAllFor_next (count : Nat) (start : Option ElementId) {other : ElementId}
    (owned : ∀ id, start = some id → (store.parent id).isSome ∨
      store.next id = none ∧ store.prev id = none ∧ store.child id = none)
    (unowned : store.parent other = none) :
    (store.destroyAllFor count start).next other = store.next other := by
  induction count generalizing store start with
  | zero => rfl
  | succ count ih =>
      cases start with
      | none => rfl
      | some id =>
          have clears := destroyOne_cleared linked id
          have once := destroyOne_unowned_next linked (owned id rfl) unowned
          have stays := (destroyOne_pruned linked id).unowned unowned
          refine (ih (destroyOne_linked linked id) (store.next id) ?_ stays).trans once
          intro after next
          have different : after ≠ id := fun same => linked.straight ⟨id, .single (same ▸ next)⟩
          by_cases reached : (store.detach id).Reached [id] after
          · obtain ⟨noNext, noPrev, noChild, _⟩ := clears.unlinked after reached
            exact Or.inr ⟨noNext, noPrev, noChild⟩
          · left
            rw [(links_of_get? (clears.beyond after reached)).2.2.2,
              (detach_reads linked id).parent, if_neg different, ← linked.siblings id after next]
            rcases owned id rfl with isOwned | ⟨noNext, _⟩
            · exact isOwned
            · rw [noNext] at next
              cases next

theorem install_admitted {owner : ElementId} {content : Option ElementId}
    (admitted : store.Admitted owner content)
    (ran : store.install checks owner content = .ok outcome) :
    outcome.store = store.installed owner content := by
  have installs : store.install checks owner content =
      .ok { store := store.installed owner content } := by
    cases checks with
    | false => exact replaceBody_eq linked owner content
    | true =>
        rcases install_cases linked owner content with ⟨barred, _⟩ | ⟨_, installs⟩
        · exact absurd admitted barred
        · exact installs
  rw [installs] at ran
  rw [← Except.ok.inj ran]

/-- Making an unowned chain a body takes no other root away and keeps the order of
the unowned chains. -/
theorem install_keeps {owner head : ElementId} (hostInside : owner < store.size)
    (root : store.Root head) (apart : owner ∉ (store.visit (some head)).1)
    (ran : store.install checks owner (some head) = .ok outcome) :
    outcome.store.Linked ∧ (∀ id, id ≠ head → store.Root id → outcome.store.Root id) ∧
      ∀ start, store.Root start → Continues store outcome.store start := by
  have admitted : store.Admitted owner (some head) := by
    rintro _ ⟨⟩
    exact ⟨root.prev, root.parent, apart⟩
  have inside : ∀ other, some head = some other → other < store.size := by
    rintro _ ⟨⟩
    exact root.inside
  have reads := installed_reads linked hostInside inside admitted
  have emptied := destroyAll_linked linked (store.child owner)
  rw [install_admitted linked admitted ran]
  refine ⟨installed_linked linked hostInside inside admitted, ?_, ?_⟩
  · intro id different other
    have left := other.pruned (destroyAll_pruned linked (store.child owner))
    refine ⟨reads.size.symm ▸ left.inside, (reads.prev id).trans left.prev, ?_⟩
    rw [reads.parent, if_neg, left.parent]
    exact fun visited => different (left.visited emptied visited)
  · intro start isRoot
    apply Continues.of_next
    intro id onward
    rw [reads.next]
    apply destroyAllFor_next linked
    · intro child isChild
      exact Or.inl (by simp [((linked.first owner child).mp isChild).1])
    · exact (linked.parent_of_onward onward).trans isRoot.parent

end Edits

end Store

end Stencil
