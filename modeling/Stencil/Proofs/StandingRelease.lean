import Stencil.Proofs.Confinement

/-!
Destroying a chain that stands by itself. Nothing has to be known of the rest of
the store: the links of the chain stay within it, so its destruction releases
exactly its cells. The head is taken out and released with its body, which
leaves the rest of the chain standing behind it as a chain of its own; so the
induction is along the siblings.
-/

namespace Stencil.Store

open Relation

variable {store changed : Store} {owner before start child next : Option ElementId}
variable {forest : Forest} {ids : List ElementId} {id other : ElementId}

/-- Along `next` and `child` all of a standing forest is reached, and nothing else. -/
theorem Planted.reached_iff (planted : store.Planted owner before start forest ids) :
    store.Reached start.toList other ↔ other ∈ ids := by
  constructor
  · rintro ⟨head, isHead, walk⟩
    induction walk with
    | refl =>
        obtain rfl := Option.mem_toList.mp isHead
        exact planted.start_links.1
    | tail _ step ih =>
        rcases step with next | child
        · exact ((planted.forward _ ih).1 _ next).1
        · exact ((planted.forward _ ih).2 _ child).1
  · intro member
    induction planted with
    | nil => cases member
    | cons owner before next child id node body rest bodyIds restIds found bodyPlanted restPlanted
        ihBody ihRest =>
        have links := links_of_cell found
        rcases List.mem_cons.mp member with same | deeper
        · exact ⟨id, by simp, same ▸ .refl⟩
        · rcases List.mem_append.mp deeper with inBody | inRest
          · obtain ⟨head, isHead, walk⟩ := ihBody inBody
            have isChild : store.child id = some head := links.2.2.1.trans (by simpa using isHead)
            exact ⟨id, by simp, .head (Or.inr isChild) walk⟩
          · obtain ⟨head, isHead, walk⟩ := ihRest inRest
            have isNext : store.next id = some head := links.1.trans (by simpa using isHead)
            exact ⟨id, by simp, .head (Or.inl isNext) walk⟩

theorem Planted.fronted (planted : store.Planted owner before start forest ids)
    (front : ∀ head, start = some head →
      changed.get? head = (store.get? head).map fun cell => { cell with prev := none })
    (same : ∀ id ∈ ids, start ≠ some id → changed.get? id = store.get? id) :
    changed.Planted owner none start forest ids := by
  cases planted with
  | nil => exact .nil _ _
  | cons _ _ next child id node body rest bodyIds restIds found bodyPlanted restPlanted =>
      have whole := Planted.cons owner before next child id node body rest bodyIds restIds found
        bodyPlanted restPlanted
      have apart := List.nodup_cons.mp whole.nodup
      have kept : ∀ other ∈ bodyIds ++ restIds, changed.get? other = store.get? other := by
        intro other member
        apply same other (List.mem_cons_of_mem id member)
        rintro ⟨⟩
        exact apart.1 member
      refine .cons owner none next child id node body rest bodyIds restIds ?_
        (bodyPlanted.kept fun other member => kept other (List.mem_append_left _ member))
        (restPlanted.kept fun other member => kept other (List.mem_append_right _ member))
      rw [front id rfl, found]
      rfl

/-- An element at the front of an unowned chain is taken out at the cost of one
link, the way back to it. -/
theorem detach_front (noPrev : store.prev id = none) (noParent : store.parent id = none) :
    store.detach id = (store.linkBack (store.next id) none).unlink id := by
  have passed : store.passHead id = store := by
    unfold passHead
    rw [noParent]
  rw [detach_eq, passed, noPrev]
  rfl

theorem get?_linkBack (target link : Option ElementId) :
    (store.linkBack target link).get? other =
      if target = some other then (store.get? other).map fun cell => { cell with prev := link }
      else store.get? other := by
  cases target with
  | none => simp [linkBack]
  | some id =>
      rw [linkBack, setPrev, get?_update]
      simp

theorem get?_release_of_prev
    (differs : changed.get? other = store.get? other ∨
      changed.get? other = (store.get? other).map fun cell => { cell with prev := none }) :
    (changed.release other).get? other = (store.release other).get? other := by
  simp only [release, get?_update, if_true]
  rcases differs with same | fronted
  · rw [same]
  · rw [fronted]
    cases store.get? other <;> rfl

structure Beheaded (store beheaded : Store) (id : ElementId) (next : Option ElementId)
    (bodyIds : List ElementId) : Prop where
  gone : ∀ other, other = id ∨ other ∈ bodyIds →
    beheaded.get? other = (store.release other).get? other
  front : ∀ other, next = some other →
    beheaded.get? other = (store.get? other).map fun cell => { cell with prev := none }
  kept : ∀ other, other ≠ id → other ∉ bodyIds → next ≠ some other →
    beheaded.get? other = store.get? other

theorem destroyOne_beheads {node : Node} {body rest : Forest} {bodyIds restIds : List ElementId}
    (found : store.get? id = some ⟨node, next, none, child, none⟩)
    (bodyPlanted : store.Planted (some id) none child body bodyIds)
    (restPlanted : store.Planted none (some id) next rest restIds) :
    Beheaded store (store.destroyOne id) id next bodyIds := by
  have whole := Planted.cons none none next child id node body rest bodyIds restIds found
    bodyPlanted restPlanted
  obtain ⟨notBelow, nodup⟩ := List.nodup_cons.mp whole.nodup
  have apart := (List.nodup_append'.mp nodup).2.2
  have links := links_of_cell found
  have notSelf : next ≠ some id := by
    rintro rfl
    exact notBelow (List.mem_append_right _ restPlanted.start_links.1)
  have notBody : ∀ other ∈ bodyIds, next ≠ some other := by
    rintro other member rfl
    exact apart member restPlanted.start_links.1
  -- The element is taken out and released; its body still stands then.
  let taken := (store.linkBack next none).unlink id
  have detached : store.detach id = taken := by
    rw [detach_front links.2.1 links.2.2.2, links.1]
  have cells : ∀ other, other ≠ id → (taken.release id).get? other =
      if next = some other then (store.get? other).map fun cell => { cell with prev := none }
      else store.get? other := by
    intro other different
    rw [get?_release_elsewhere _ _ _ (Ne.symm different)]
    exact (get?_update_elsewhere _ _ _ _ (Ne.symm different)).trans (get?_linkBack _ _)
  have released : (taken.release id).get? id = (store.release id).get? id := by
    simp only [taken, release, unlink, get?_update, if_true, get?_linkBack, if_neg notSelf, found]
    rfl
  have bodyStands : (taken.release id).Planted (some id) none child body bodyIds := by
    apply bodyPlanted.kept
    intro other member
    have different : other ≠ id := by
      rintro rfl
      exact notBelow (List.mem_append_left _ member)
    rw [cells other different, if_neg (notBody other member)]
  have isChild : taken.child id = child := by
    rw [(unlink_reads _ id id).2.2.2, child_linkBack, links.2.2.1]
  have enough : (taken.release id).linkCount + child.toList.length ≤
      2 * (taken.release id).size + child.toList.length + 1 := by
    have bound := linkCount_le (taken.release id)
    omega
  have spec := releaseFor_get? _ _ _ enough
  have done : store.destroyOne id = (taken.release id).releaseFor
      (2 * (taken.release id).size + child.toList.length + 1) child.toList := by
    simp only [destroyOne, detached, releaseAll, isChild]
  rw [done]
  constructor
  · rintro other (same | member)
    · subst same
      rw [(spec other).2 (mt bodyStands.reached_iff.mp (mt (List.mem_append_left _) notBelow))]
      exact released
    · have different : other ≠ id := by
        rintro rfl
        exact notBelow (List.mem_append_left _ member)
      rw [(spec other).1 (bodyStands.reached_iff.mpr member)]
      apply get?_release_of_prev
      rw [cells other different, if_neg (notBody other member)]
      exact Or.inl rfl
  · intro other isNext
    have different : other ≠ id := by
      rintro rfl
      exact notSelf isNext
    have missed : other ∉ bodyIds := fun member => notBody other member isNext
    rw [(spec other).2 (mt bodyStands.reached_iff.mp missed), cells other different,
      if_pos isNext]
  · intro other different missed notNext
    rw [(spec other).2 (mt bodyStands.reached_iff.mp missed), cells other different,
      if_neg notNext]

theorem destroyAllFor_standing (count : Nat)
    (planted : store.Planted none none start forest ids) (enough : ids.length ≤ count) :
    Cleared store (store.destroyAllFor count start) (· ∈ ids) := by
  -- Each step leaves the rest standing, with its first element at the front.
  induction forest generalizing store start ids count with
  | nil =>
      cases planted
      cases count <;> exact ⟨by simp, fun _ _ => rfl⟩
  | cons node body rest _ ihRest =>
      cases planted with
      | cons _ _ next child id _ _ _ bodyIds restIds found bodyPlanted restPlanted =>
          simp only [List.length_cons, List.length_append] at enough
          obtain ⟨count, rfl⟩ : ∃ fewer, count = fewer + 1 := ⟨count - 1, by omega⟩
          have beheads := destroyOne_beheads found bodyPlanted restPlanted
          have whole := Planted.cons none none next child id node body rest bodyIds restIds found
            bodyPlanted restPlanted
          obtain ⟨notBelow, nodup⟩ := List.nodup_cons.mp whole.nodup
          have apart := (List.nodup_append'.mp nodup).2.2
          have away : ∀ other ∈ restIds, other ≠ id ∧ other ∉ bodyIds := by
            refine fun other member => ⟨?_, fun inBody => apart inBody member⟩
            rintro rfl
            exact notBelow (List.mem_append_right _ member)
          have stands : (store.destroyOne id).Planted none none next rest restIds :=
            restPlanted.fronted beheads.front fun other member notNext =>
              beheads.kept other (away other member).1 (away other member).2 notNext
          have clears := ihRest count stands (by omega)
          have step : store.destroyAllFor (count + 1) (some id) =
              (store.destroyOne id).destroyAllFor count next := by
            rw [destroyAllFor, (links_of_cell found).1]
          rw [step]
          constructor
          · intro other member
            by_cases inRest : other ∈ restIds
            · rw [clears.within other inRest]
              apply get?_release_of_prev
              by_cases isNext : next = some other
              · exact Or.inr (beheads.front other isNext)
              · exact Or.inl (beheads.kept other (away other inRest).1 (away other inRest).2 isNext)
            · rw [clears.beyond other inRest]
              apply beheads.gone
              simpa [inRest] using member
          · intro other missed
            simp only [List.mem_cons, List.mem_append, not_or] at missed
            rw [clears.beyond other missed.2.2]
            apply beheads.kept other missed.1 missed.2.1
            rintro rfl
            exact missed.2.2 restPlanted.start_links.1

/-- The destruction of a standing chain releases its cells and no other ones. -/
theorem destroyAll_standing (planted : store.Planted none none start forest ids) :
    Cleared store (store.destroyAll start) (· ∈ ids) :=
  destroyAllFor_standing _ planted (by have := planted.length_le; omega)

theorem Planted.apart {head : ElementId} {otherStart : Option ElementId} {otherForest : Forest}
    {otherIds : List ElementId} (planted : store.Planted none none (some head) forest ids)
    (otherPlanted : store.Planted none none otherStart otherForest otherIds)
    (different : otherStart ≠ some head) : ∀ id ∈ ids, id ∉ otherIds := by
  intro id member otherMember
  have inside : head ∈ otherIds := planted.head_of_meets otherPlanted.enclosed member otherMember
  cases otherStart with
  | none =>
      cases otherPlanted
      cases inside
  | some first =>
      exact different (congrArg some (otherPlanted.head_unique planted inside).symm)

end Stencil.Store
