import Mathlib.Algebra.GroupWithZero.Nat
import Stencil.Proofs.ChainSplice
import Stencil.Store.Release

/-!
Taking an element out of its chain and releasing what is below it. After it was
taken out an element has only its body, so nothing outside of what is reached
from it along `next` and `child` links into that, and the whole of it can be
released without a link to it left behind. The elements to release wait in a list
of which every step uses up one entry or one link.
-/

namespace Stencil.Store

open Relation

def passHead (store : Store) (id : ElementId) : Store :=
  match store.parent id with
  | some owner =>
      if store.child owner = some id then store.setChild owner (store.next id) else store
  | none => store

def unlink (store : Store) (id : ElementId) : Store :=
  store.update id fun cell => { cell with next := none, prev := none, parent := none }

theorem detach_eq (store : Store) (id : ElementId) :
    store.detach id = (((store.passHead id).linkBack (store.next id) (store.prev id)).linkOn
      (store.prev id) (store.next id)).unlink id := rfl

section Parts

variable (store : Store) (id other : ElementId)

theorem kept_passHead {Value : Type} (read : Store → Value)
    (kept : ∀ owner link, read (store.setChild owner link) = read store) :
    read (store.passHead id) = read store := by
  unfold passHead
  split
  · split
    · exact kept _ _
    · rfl
  · rfl

@[simp] theorem size_passHead : (store.passHead id).size = store.size :=
  kept_passHead store id size fun _ _ => size_setChild ..

@[simp] theorem next_passHead : (store.passHead id).next other = store.next other :=
  kept_passHead store id (·.next other) fun _ _ => next_setChild ..

@[simp] theorem prev_passHead : (store.passHead id).prev other = store.prev other :=
  kept_passHead store id (·.prev other) fun _ _ => prev_setChild ..

@[simp] theorem parent_passHead : (store.passHead id).parent other = store.parent other :=
  kept_passHead store id (·.parent other) fun _ _ => parent_setChild ..

@[simp] theorem label_passHead : (store.passHead id).label other = store.label other :=
  kept_passHead store id (·.label other) fun _ _ => label_setChild ..

@[simp] theorem label_unlink : (store.unlink id).label other = store.label other :=
  label_update store id other _ fun _ => ⟨rfl, rfl⟩

@[simp] theorem size_unlink : (store.unlink id).size = store.size := size_update ..

variable {store} in
theorem child_passHead (linked : store.Linked) :
    (store.passHead id).child other =
      if store.child other = some id then store.next id else store.child other := by
  by_cases heads : store.child other = some id
  · have owned := ((linked.first other id).mp heads).1
    simp only [passHead, owned, heads, if_true]
    rw [child_setChild (inside_of_child heads), if_pos rfl]
  · rw [if_neg heads, passHead]
    split
    · rename_i owner _
      split
      · rename_i isHead
        have different : owner ≠ other := fun same => heads (same ▸ isHead)
        rw [child_setChild (inside_of_child isHead), if_neg different]
      · rfl
    · rfl

theorem unlink_reads :
    (store.unlink id).next other = (if other = id then none else store.next other) ∧
      (store.unlink id).prev other = (if other = id then none else store.prev other) ∧
      (store.unlink id).parent other = (if other = id then none else store.parent other) ∧
      (store.unlink id).child other = store.child other := by
  have found := get?_update store id other
    fun cell => { cell with next := none, prev := none, parent := none }
  by_cases same : other = id
  · subst same
    simp only [unlink, next, prev, parent, child, found, if_true]
    cases store.get? other <;> simp
  · simp only [same, Ne.symm same, if_false, unlink, next, prev, parent, child, found]
    simp

end Parts

structure Detached (store detached : Store) (id : ElementId) : Prop where
  next : ∀ other, detached.next other =
    if other = id then none else if store.prev id = some other then store.next id
      else store.next other
  prev : ∀ other, detached.prev other =
    if other = id then none else if store.next id = some other then store.prev id
      else store.prev other
  parent : ∀ other, detached.parent other = if other = id then none else store.parent other
  child : ∀ other, detached.child other =
    if store.child other = some id then store.next id else store.child other

section Detach

variable {store : Store} (linked : store.Linked) (id : ElementId)
include linked

theorem detach_reads : Detached store (store.detach id) id := by
  have nextInside : ∀ after, store.next id = some after → after < (store.passHead id).size := by
    intro after next
    simpa using inside_of_prev ((linked.next_prev id after).mp next)
  have prevInside : ∀ before, store.prev id = some before →
      before < ((store.passHead id).linkBack (store.next id) (store.prev id)).size := by
    intro before prev
    simpa using inside_of_next ((linked.next_prev before id).mpr prev)
  rw [detach_eq]
  constructor <;> intro other
  · rw [(unlink_reads _ id other).1, next_linkOn _ other prevInside]
    simp
  · rw [(unlink_reads _ id other).2.1, prev_linkOn, prev_linkBack _ other nextInside]
    simp
  · rw [(unlink_reads _ id other).2.2.1]
    simp
  · rw [(unlink_reads _ id other).2.2.2]
    simp [child_passHead id other linked]

theorem detach_straight : ¬ Circular (store.detach id).Follows := by
  have reads := detach_reads linked id
  -- The old edges that are left keep clear of the element. At most one is new, from
  -- the neighbour before it to the one behind it.
  let kept := fun before after => store.Follows before after ∧ before ≠ id ∧ after ≠ id
  have keptOnward : ∀ before after, ReflTransGen kept before after → store.Onward before after :=
    ReflTransGen.mono fun _ _ step => step.1
  have keptStraight : ¬ Circular kept := fun circular =>
    linked.straight (circular_of_subset (fun _ _ step => step.1) circular)
  have covered : ∀ before after, (store.detach id).Follows before after →
      kept before after ∨ (store.prev id = some before ∧ store.next id = some after) := by
    intro before after step
    rw [Follows, reads.next] at step
    by_cases same : before = id
    · simp [same] at step
    · by_cases joins : store.prev id = some before
      · simp only [same, joins, if_false, if_true] at step
        exact Or.inr ⟨joins, step⟩
      · simp only [same, joins, if_false] at step
        refine Or.inl ⟨step, same, fun isId => joins ?_⟩
        exact (linked.next_prev before id).mp (isId ▸ step)
  cases isNext : store.next id with
  | none =>
      refine fun circular => keptStraight (circular_of_subset ?_ circular)
      intro before after step
      rcases covered before after step with old | ⟨_, none⟩
      · exact old
      · rw [isNext] at none
        cases none
  | some following =>
      have joinedStraight : ¬ Circular (Joined kept (store.prev id = some ·) following) := by
        rw [joined_circular_iff keptStraight]
        rintro ⟨before, isPrev, walk⟩
        have enters : store.Follows before id := (linked.next_prev before id).mpr isPrev
        have leaves : store.Follows id following := isNext
        exact linked.straight ⟨id, TransGen.head' leaves ((keptOnward _ _ walk).tail enters)⟩
      refine fun circular => joinedStraight (circular_of_subset ?_ circular)
      intro before after step
      rcases covered before after step with old | ⟨isPrev, isAfter⟩
      · exact Or.inl old
      · exact Or.inr ⟨isPrev, Option.some.inj (isAfter.symm.trans isNext)⟩

theorem detach_linked : (store.detach id).Linked where
  next_prev := by
    intro before after
    have reads := detach_reads linked id
    have old := linked.next_prev before after
    have enters := linked.next_prev before id
    have leaves := linked.next_prev id after
    rw [reads.next, reads.prev]
    grind
  siblings := by
    intro before after step
    have reads := detach_reads linked id
    have old := linked.siblings before after
    have enters := linked.siblings before id
    have leaves := linked.siblings id after
    have back := linked.next_prev before id
    have backAfter := linked.next_prev id after
    have selfless := linked.next_prev id id
    rw [reads.next] at step
    rw [reads.parent, reads.parent]
    grind
  first := by
    intro owner other
    have reads := detach_reads linked id
    have old := linked.first owner other
    have oldId := linked.first owner id
    have leaves := linked.next_prev id other
    have shared := linked.siblings id other
    rw [reads.child, reads.parent, reads.prev]
    grind
  straight := detach_straight linked id

end Detach

def Leads (store : Store) (before after : ElementId) : Prop :=
  store.next before = some after ∨ store.child before = some after

def Reached (store : Store) (starts : List ElementId) (id : ElementId) : Prop :=
  ∃ start ∈ starts, ReflTransGen store.Leads start id

section Release

variable (store : Store) (id other : ElementId)

@[simp] theorem size_release : (store.release id).size = store.size := size_update ..

theorem get?_release_elsewhere (different : id ≠ other) :
    (store.release id).get? other = store.get? other :=
  get?_update_elsewhere store id other _ different

theorem release_unlinked :
    (store.release id).next id = none ∧ (store.release id).prev id = none ∧
      (store.release id).child id = none ∧ (store.release id).parent id = none := by
  have found : (store.release id).get? id = (store.get? id).map fun cell =>
      { cell with properties := {}, next := none, prev := none, child := none, parent := none } :=
    (get?_update store id id _).trans (if_pos rfl)
  simp only [next, prev, child, parent, found]
  cases store.get? id <;> simp

theorem release_twice : ((store.release id).release id).get? id = (store.release id).get? id := by
  simp only [release, get?_update, if_true, Option.map_map]
  rfl

def leadsTo (store : Store) (id : ElementId) : List ElementId :=
  (store.next id).toList ++ (store.child id).toList

theorem mem_leadsTo : other ∈ store.leadsTo id ↔ store.Leads id other := by
  simp [leadsTo, Leads, Option.mem_toList]

theorem leads_release (before after : ElementId) :
    (store.release id).Leads before after ↔ before ≠ id ∧ store.Leads before after := by
  by_cases same : before = id
  · subst same
    obtain ⟨noNext, _, noChild, _⟩ := release_unlinked store before
    simp [Leads, noNext, noChild]
  · simp only [Leads, next, child, get?_release_elsewhere store id before (Ne.symm same)]
    simp [same]

variable {store id other} in
/-- After the release of an element everything else is reached without it. -/
theorem reached_cons (waiting : List ElementId) (different : other ≠ id) :
    store.Reached (id :: waiting) other ↔
      (store.release id).Reached (store.leadsTo id ++ waiting) other := by
  -- A walk that comes through the released element goes on from what that leads to.
  have bypass : ∀ start, ReflTransGen store.Leads start other →
      ReflTransGen (store.release id).Leads start other ∨
        (store.release id).Reached (store.leadsTo id) other := by
    intro start walk
    induction walk using ReflTransGen.head_induction_on with
    | refl => exact Or.inl .refl
    | @head before after step _ ih =>
        rcases ih with rest | reached
        · by_cases same : before = id
          · exact Or.inr ⟨after, (mem_leadsTo store id after).mpr (same ▸ step), rest⟩
          · exact Or.inl (.head ((leads_release store id before after).mpr ⟨same, step⟩) rest)
        · exact Or.inr reached
  constructor
  · rintro ⟨start, isStart, walk⟩
    rcases bypass start walk with rest | ⟨first, isFirst, rest⟩
    · rcases List.mem_cons.mp isStart with same | isWaiting
      · subst same
        rcases ReflTransGen.cases_head rest with same | ⟨after, step, _⟩
        · exact absurd same.symm different
        · exact absurd rfl ((leads_release store start start after).mp step).1
      · exact ⟨start, List.mem_append_right _ isWaiting, rest⟩
    · exact ⟨first, List.mem_append_left _ isFirst, rest⟩
  · rintro ⟨start, isStart, walk⟩
    have rest : ReflTransGen store.Leads start other :=
      ReflTransGen.mono (fun before after step => ((leads_release store id before after).mp step).2)
        _ _ walk
    rcases List.mem_append.mp isStart with isFirst | isWaiting
    · exact ⟨id, List.mem_cons_self, .head ((mem_leadsTo store id start).mp isFirst) rest⟩
    · exact ⟨start, List.mem_cons_of_mem id isWaiting, rest⟩

end Release

/-! The number of links that a release may follow bounds its steps. -/
section Count

def cellLinks (cell : Element) : Nat := cell.next.toList.length + cell.child.toList.length

def linkCount (store : Store) : Nat := (store.cells.toList.map cellLinks).sum

theorem linkCount_le (store : Store) : store.linkCount ≤ 2 * store.size := by
  have bound : ∀ cells : List Element, (cells.map cellLinks).sum ≤ 2 * cells.length := by
    intro cells
    induction cells with
    | nil => simp
    | cons cell rest ih =>
        have links : cellLinks cell ≤ 2 := by
          unfold cellLinks
          cases cell.next <;> cases cell.child <;> simp
        simp only [List.map_cons, List.sum_cons, List.length_cons]
        omega
  simpa [linkCount, size] using bound store.cells.toList

theorem sum_modify (weigh : Element → Nat) (change : Element → Element) (cells : List Element)
    (id : Nat) (lost : Nat)
    (weight : ∀ cell, cells[id]? = some cell → weigh (change cell) + lost = weigh cell)
    (absent : cells[id]? = none → lost = 0) :
    ((cells.modify id change).map weigh).sum + lost = (cells.map weigh).sum := by
  induction cells generalizing id with
  | nil => simpa using absent (by simp)
  | cons cell rest ih =>
      cases id with
      | zero =>
          have head := weight cell (by simp)
          simp only [List.modify_zero_cons, List.map_cons, List.sum_cons]
          omega
      | succ id =>
          have tail := ih id (by simpa using weight) (by simpa using absent)
          simp only [List.modify_succ_cons, List.map_cons, List.sum_cons]
          omega

-- A release gives up as many links as there are entries that come to wait for it.
theorem linkCount_release (store : Store) (id : ElementId) :
    (store.release id).linkCount + (store.leadsTo id).length = store.linkCount := by
  have reading : store.get? id = store.cells.toList[id]? := by simp [get?]
  simp only [linkCount, release, update, Array.toList_modify]
  apply sum_modify
  · intro cell found
    have present : store.get? id = some cell := reading.trans found
    simp [leadsTo, next, child, present, cellLinks]
  · intro missing
    have absent : store.get? id = none := reading.trans missing
    simp [leadsTo, next, child, absent]

/-- A release with enough steps clears what is reached and nothing else. -/
theorem releaseFor_get? (count : Nat) (store : Store) (ids : List ElementId)
    (enough : store.linkCount + ids.length ≤ count) (other : ElementId) :
    (store.Reached ids other →
      (store.releaseFor count ids).get? other = (store.release other).get? other) ∧
    (¬ store.Reached ids other → (store.releaseFor count ids).get? other = store.get? other) := by
  induction count generalizing store ids with
  | zero =>
      have empty : ids = [] := List.length_eq_zero_iff.mp (by omega)
      subst empty
      exact ⟨fun ⟨_, member, _⟩ => absurd member List.not_mem_nil, fun _ => rfl⟩
  | succ count ih =>
      cases ids with
      | nil => exact ⟨fun ⟨_, member, _⟩ => absurd member List.not_mem_nil, fun _ => rfl⟩
      | cons id waiting =>
          have balance := linkCount_release store id
          have rest := ih (store.release id) (store.leadsTo id ++ waiting) (by
            simp only [List.length_append, List.length_cons] at enough ⊢
            omega)
          let released := (store.release id).releaseFor count (store.leadsTo id ++ waiting)
          change (_ → released.get? other = _) ∧ (_ → released.get? other = _)
          by_cases same : other = id
          · subst same
            refine ⟨fun _ => ?_, fun missed => absurd ⟨other, List.mem_cons_self, .refl⟩ missed⟩
            -- It may still be reached and be released once more, which changes nothing.
            by_cases again : (store.release other).Reached (store.leadsTo other ++ waiting) other
            · rw [rest.1 again, release_twice]
            · rw [rest.2 again]
          · rw [reached_cons waiting same]
            constructor
            · intro reached
              rw [rest.1 reached]
              simp only [release, get?_update, if_true, if_neg (Ne.symm same)]
            · intro missed
              rw [rest.2 missed, get?_release_elsewhere store id other (Ne.symm same)]

end Count

end Stencil.Store
