import Stencil.Proofs.CellUpdate
import Stencil.Proofs.LinkOrder
import Stencil.Store.Consistent

/-!
Chains of siblings. A store is linked if siblings point at each other and share
their owner, an owner and the first member of its body point at each other, and
no chain runs in a circle. Then a walk along `next` ends and meets exactly what
comes after its start, and every member has a first one before it.
-/

namespace Stencil.Store

open Relation

def Follows (store : Store) (before after : ElementId) : Prop :=
  store.next before = some after

def Onward (store : Store) : ElementId → ElementId → Prop := ReflTransGen store.Follows

structure Linked (store : Store) : Prop where
  next_prev : ∀ before after,
    store.next before = some after ↔ store.prev after = some before
  siblings : ∀ before after, store.next before = some after →
    store.parent before = store.parent after
  first : ∀ owner id, store.child owner = some id ↔
    store.parent id = some owner ∧ store.prev id = none
  straight : ¬ Circular store.Follows

section Walk

variable {store : Store}

theorem visitFor_onward (count : Nat) (id member : ElementId)
    (visited : member ∈ (store.visitFor count (some id)).1) : store.Onward id member := by
  induction count generalizing id with
  | zero => simp [visitFor] at visited
  | succ count ih =>
      rcases List.mem_cons.mp visited with same | later
      · subst same
        exact .refl
      · cases next : store.next id with
        | none => simp [next, visitFor] at later
        | some after =>
            rw [next] at later
            exact .head next (ih after later)

theorem visitFor_complete (count : Nat) (id member : ElementId)
    (ended : (store.visitFor count (some id)).2 = none) (onward : store.Onward id member) :
    member ∈ (store.visitFor count (some id)).1 := by
  induction count generalizing id with
  | zero => simp [visitFor] at ended
  | succ count ih =>
      rcases ReflTransGen.cases_head onward with same | ⟨after, next, rest⟩
      · subst same
        simp [visitFor]
      · have tail : (store.visitFor count (some after)).2 = none := by
          rw [← next]
          exact ended
        have found := ih after tail rest
        rw [← next] at found
        exact List.mem_cons.mpr (Or.inr found)

theorem visitFor_last (count : Nat) (id : ElementId)
    (ended : (store.visitFor count (some id)).2 = none) :
    ∃ last, (store.visitFor count (some id)).1.getLast? = some last ∧
      store.next last = none := by
  induction count generalizing id with
  | zero => simp [visitFor] at ended
  | succ count ih =>
      cases next : store.next id with
      | none => exact ⟨id, by simp [visitFor, next], next⟩
      | some after =>
          have tail : (store.visitFor count (some after)).2 = none := by
            rw [← next]
            exact ended
          obtain ⟨last, isLast, noNext⟩ := ih after tail
          refine ⟨last, ?_, noNext⟩
          simp [visitFor, next, List.getLast?_cons, isLast]

theorem visitFor_stopped (count : Nat) (id : ElementId)
    (stopped : (store.visitFor count (some id)).2 ≠ none) :
    (store.visitFor count (some id)).1.length = count ∧
      ∀ member ∈ (store.visitFor count (some id)).1, (store.next member).isSome := by
  induction count generalizing id with
  | zero => simp [visitFor]
  | succ count ih =>
      cases next : store.next id with
      | none => simp [visitFor, next] at stopped
      | some after =>
          have tail : (store.visitFor count (some after)).2 ≠ none := by
            rw [← next]
            exact stopped
          obtain ⟨length, linked⟩ := ih after tail
          refine ⟨by simp [visitFor, next, length], ?_⟩
          intro member visited
          simp only [visitFor, next, List.mem_cons] at visited
          rcases visited with same | later
          · simp [same, next]
          · exact linked member later

theorem visitFor_more {count more : Nat} (le : count ≤ more) (start : Option ElementId)
    (ended : (store.visitFor count start).2 = none) : (store.visitFor more start).2 = none := by
  induction count generalizing more start with
  | zero =>
      cases start with
      | none => cases more <;> rfl
      | some id => simp [visitFor] at ended
  | succ count ih =>
      cases start with
      | none => cases more <;> rfl
      | some id =>
          obtain ⟨more, rfl⟩ : ∃ rest, more = rest + 1 := ⟨more - 1, by omega⟩
          exact ih (Nat.le_of_succ_le_succ le) (store.next id) ended

theorem visitFor_fewer {other : Store} (count : Nat) (start : Option ElementId)
    (fewer : ∀ id, start = some id → ∀ before, store.Onward id before →
      other.next before = store.next before ∨ other.next before = none)
    (ended : (store.visitFor count start).2 = none) : (other.visitFor count start).2 = none := by
  induction count generalizing start with
  | zero => cases start <;> simp_all [visitFor]
  | succ count ih =>
      cases start with
      | none => rfl
      | some id =>
          change (other.visitFor count (other.next id)).2 = none
          rcases fewer id rfl id .refl with same | none
          · rw [same]
            apply ih
            · intro after next before onward
              exact fewer id rfl before (.head next onward)
            · exact ended
          · rw [none]
            cases count <;> rfl

variable (straight : ¬ Circular store.Follows)
include straight

theorem visitFor_nodup (count : Nat) (start : Option ElementId) :
    (store.visitFor count start).1.Nodup := by
  induction count generalizing start with
  | zero => cases start <;> simp [visitFor]
  | succ count ih =>
      cases start with
      | none => simp [visitFor]
      | some id =>
          refine List.nodup_cons.mpr ⟨fun again => ?_, ih _⟩
          cases next : store.next id with
          | none => simp [next, visitFor] at again
          | some after =>
              rw [next] at again
              exact straight ⟨id, TransGen.head' next (visitFor_onward count after id again)⟩

theorem visit_ends (start : Option ElementId) : (store.visit start).2 = none := by
  cases start with
  | none => simp [visit, visitFor]
  | some id =>
      apply Classical.byContradiction
      intro stopped
      obtain ⟨length, linked⟩ := visitFor_stopped _ id stopped
      -- Every member of a stopped walk has a cell, and there are more of them than cells.
      have inside : (store.visitFor (store.size + 1) (some id)).1 ⊆ List.range store.size := by
        intro member visited
        obtain ⟨after, next⟩ := Option.isSome_iff_exists.mp (linked member visited)
        exact List.mem_range.mpr (inside_of_next next)
      have bound := (visitFor_nodup straight _ _).length_le_of_subset inside
      rw [length, List.length_range] at bound
      omega

theorem mem_visit_iff (id member : ElementId) :
    member ∈ (store.visit (some id)).1 ↔ store.Onward id member :=
  ⟨visitFor_onward _ id member, visitFor_complete _ id member (visit_ends straight _)⟩

theorem visit_last (id : ElementId) :
    ∃ last, (store.visit (some id)).1.getLast? = some last ∧ store.next last = none :=
  visitFor_last _ id (visit_ends straight _)

theorem chain_eq (start : Option ElementId) :
    store.chain start = .ok (store.visit start).1 := by
  have ended := visit_ends straight start
  unfold chain
  split
  · rename_i members walked
    rw [walked]
  · rename_i walked
    rw [walked] at ended
    cases ended

end Walk

/-- A walk from an element that comes again after itself is never done. -/
theorem visitFor_circle {store : Store} (count : Nat) (id again : ElementId)
    (onward : store.Onward id again) (round : TransGen store.Follows again again) :
    (store.visitFor count (some id)).2 ≠ none := by
  induction count generalizing id with
  | zero => simp [visitFor]
  | succ count ih =>
      have more : ∃ after, store.next id = some after ∧ store.Onward after again := by
        rcases ReflTransGen.cases_head onward with same | ⟨after, next, rest⟩
        · subst same
          obtain ⟨after, next, rest⟩ := TransGen.head'_iff.mp round
          exact ⟨after, next, rest⟩
        · exact ⟨after, next, rest⟩
      obtain ⟨after, next, rest⟩ := more
      change (store.visitFor count (store.next id)).2 ≠ none
      rw [next]
      exact ih after rest

theorem straight_of_ends {store : Store}
    (ends : ∀ id, ∃ members, store.chain (some id) = .ok members) :
    ¬ Circular store.Follows := by
  rintro ⟨id, round⟩
  have circle : (store.visit (some id)).2 ≠ none := visitFor_circle _ id id .refl round
  obtain ⟨members, found⟩ := ends id
  unfold chain at found
  split at found
  · rename_i walked
    rw [walked] at circle
    exact circle rfl
  · cases found

theorem Consistent.linked {store : Store} (consistent : store.Consistent) : store.Linked where
  next_prev := consistent.next_iff_prev
  siblings := consistent.same_owner
  first := consistent.child_first
  straight := straight_of_ends consistent.ends

namespace Linked

variable {store : Store} (linked : store.Linked)
include linked

theorem ends (id : ElementId) : ∃ members, store.chain (some id) = .ok members :=
  ⟨_, chain_eq linked.straight (some id)⟩

theorem parent_of_onward {id member : ElementId} (onward : store.Onward id member) :
    store.parent member = store.parent id := by
  induction onward with
  | refl => rfl
  | tail _ step ih => exact (linked.siblings _ _ step).symm.trans ih

theorem exists_first (id : ElementId) :
    ∃ head, store.Onward head id ∧ store.prev head = none := by
  -- Back along `next` an element is followed only so far.
  have exhausted : WellFounded store.Follows :=
    straight_wellFounded store.size (fun _ _ step => inside_of_next step) linked.straight
  induction id using exhausted.induction with
  | _ id ih =>
      cases before : store.prev id with
      | none => exact ⟨id, .refl, before⟩
      | some sibling =>
          have step := (linked.next_prev sibling id).mpr before
          obtain ⟨head, onward, noPrev⟩ := ih sibling step
          exact ⟨head, ReflTransGen.tail onward step, noPrev⟩

theorem exists_child {owner id : ElementId} (owned : store.parent id = some owner) :
    ∃ head, store.child owner = some head ∧ store.Onward head id := by
  obtain ⟨head, onward, noPrev⟩ := linked.exists_first id
  have headOwned : store.parent head = some owner :=
    (linked.parent_of_onward onward).symm.trans owned
  exact ⟨head, (linked.first owner head).mpr ⟨headOwned, noPrev⟩, onward⟩

theorem next_injective {before other after : ElementId}
    (next : store.next before = some after) (otherNext : store.next other = some after) :
    before = other := by
  have back := (linked.next_prev before after).mp next
  have otherBack := (linked.next_prev other after).mp otherNext
  exact Option.some.inj (back.symm.trans otherBack)

end Linked

structure Loose (store : Store) (first last : ElementId) (members : List ElementId) :
    Prop where
  first_mem : first ∈ members
  last_mem : last ∈ members
  no_prev : store.prev first = none
  no_next : store.next last = none
  inside : ∀ id ∈ members, id < store.size
  unowned : ∀ id ∈ members, store.parent id = none
  forward : ∀ id ∈ members, ∀ after, store.next id = some after → after ∈ members
  backward : ∀ id ∈ members, ∀ before, store.prev id = some before → before ∈ members
  only_first : ∀ id ∈ members, store.prev id = none → id = first
  only_last : ∀ id ∈ members, store.next id = none → id = last

/-- Two members of a chain are met one from the other. -/
theorem onward_linear {store : Store} {start left right : ElementId}
    (toLeft : store.Onward start left) (toRight : store.Onward start right) :
    store.Onward left right ∨ store.Onward right left := by
  induction toLeft with
  | refl => exact Or.inl toRight
  | tail _ step ih =>
      rcases ih with onward | onward
      · rcases ReflTransGen.cases_head onward with same | ⟨after, next, rest⟩
        · subst same
          exact Or.inr (.single step)
        · have same : after = _ := Option.some.inj (next.symm.trans step)
          subst same
          exact Or.inl rest
      · exact Or.inr (ReflTransGen.tail onward step)

theorem onward_end {store : Store} {id member : ElementId} (noNext : store.next id = none)
    (onward : store.Onward id member) : member = id := by
  rcases ReflTransGen.cases_head onward with same | ⟨after, next, _⟩
  · exact same.symm
  · rw [Follows, noNext] at next
    cases next

theorem Linked.loose {store : Store} (linked : store.Linked) {id : ElementId}
    (inside : id < store.size) (noPrev : store.prev id = none) (noParent : store.parent id = none) :
    store.Loose id ((store.visit (some id)).1.getLast?.getD id) (store.visit (some id)).1 := by
  obtain ⟨last, isLast, noNext⟩ := visit_last linked.straight id
  rw [isLast, Option.getD_some]
  have reach := mem_visit_iff linked.straight id
  have lastOnward : store.Onward id last := (reach last).mp (List.mem_of_getLast? isLast)
  -- The members are what comes after the head, so all this is about one walk from there.
  refine ⟨(reach id).mpr .refl, (reach last).mpr lastOnward, noPrev, noNext, ?_, ?_, ?_, ?_, ?_, ?_⟩
  · intro member visited
    rcases ReflTransGen.cases_tail ((reach member).mp visited) with same | ⟨sibling, _, step⟩
    · exact same ▸ inside
    · exact inside_of_prev ((linked.next_prev sibling member).mp step)
  · intro member visited
    rw [linked.parent_of_onward ((reach member).mp visited), noParent]
  · intro member visited after next
    exact (reach after).mpr (ReflTransGen.tail ((reach member).mp visited) next)
  · intro member visited before prev
    rcases ReflTransGen.cases_tail ((reach member).mp visited) with same | ⟨sibling, onward, step⟩
    · rw [same, noPrev] at prev
      cases prev
    · have same : sibling = before :=
        linked.next_injective step ((linked.next_prev before member).mpr prev)
      exact (reach before).mpr (same ▸ onward)
  · intro member visited first
    rcases ReflTransGen.cases_tail ((reach member).mp visited) with same | ⟨sibling, _, step⟩
    · exact same
    · rw [(linked.next_prev sibling member).mp step] at first
      cases first
  · intro member visited final
    rcases onward_linear ((reach member).mp visited) lastOnward with onward | onward
    · exact (onward_end final onward).symm
    · exact onward_end noNext onward

namespace Loose

variable {store : Store} {first last : ElementId} {members : List ElementId}
variable (loose : store.Loose first last members)
include loose

theorem onward {before after : ElementId} (member : before ∈ members)
    (walk : store.Onward before after) : after ∈ members := by
  induction walk with
  | refl => exact member
  | tail _ step ih => exact loose.forward _ ih _ step

theorem back {before after : ElementId} (linked : store.Linked) (member : after ∈ members)
    (walk : store.Onward before after) : before ∈ members := by
  induction walk using ReflTransGen.head_induction_on with
  | refl => exact member
  | head step _ ih => exact loose.backward _ ih _ ((linked.next_prev _ _).mp step)

end Loose

end Stencil.Store
