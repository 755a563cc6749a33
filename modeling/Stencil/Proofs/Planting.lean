import Stencil.Proofs.Destruction
import Stencil.Proofs.PlantedForest

/-!
Planting puts a forest into new cells and leaves the old ones alone. A store to
which a whole chain was added in this way is linked if it was before: no link
leads from the new cells to the old ones, and the links among the new ones are
those of the forest. A walk along them ends, since what stands from the next
element on, behind or below, is smaller.
-/

namespace Stencil.Store

open Relation

theorem get?_push (store : Store) (cell : Element) (id : ElementId) :
    (⟨store.cells.push cell⟩ : Store).get? id =
      if id = store.size then some cell else store.get? id :=
  Array.getElem?_push

theorem size_push (store : Store) (cell : Element) :
    (⟨store.cells.push cell⟩ : Store).size = store.size + 1 := by
  simp [size]

theorem get?_add (store : Store) (node : Node) (id : ElementId) :
    (store.add node).get? id = if id = store.size then some { toNode := node } else store.get? id :=
  get?_push store _ id

theorem size_add (store : Store) (node : Node) : (store.add node).size = store.size + 1 :=
  size_push store _

theorem plant_spec (store : Store) (owner before : Option ElementId) (forest : Forest) :
    (store.plant owner before forest).1.size = store.size + forest.size ∧
    (∀ id, id < store.size → (store.plant owner before forest).1.get? id = store.get? id) ∧
    (store.plant owner before forest).1.Planted owner before (store.plant owner before forest).2
      forest (List.range' store.size forest.size) := by
  induction forest generalizing store owner before with
  | nil => exact ⟨rfl, fun _ _ => rfl, .nil owner before⟩
  | cons node body rest ihBody ihRest =>
      -- A cell comes before those of its body, and these before those behind it. The links
      -- to them are known last and written into the cell afterwards.
      let added : Store := ⟨store.cells.push { toNode := node, prev := before, parent := owner }⟩
      let below := added.plant (some store.size) none body
      let hung := below.1.setChild store.size below.2
      let beside := hung.plant owner (some store.size) rest
      have addedSize : added.size = store.size + 1 := size_push store _
      obtain ⟨belowSize, belowKept, belowPlanted⟩ := ihBody added (some store.size) none
      obtain ⟨besideSize, besideKept, besidePlanted⟩ := ihRest hung owner (some store.size)
      change below.1.size = _ at belowSize
      change ∀ id, _ → below.1.get? id = _ at belowKept
      change below.1.Planted _ _ below.2 _ _ at belowPlanted
      change beside.1.size = _ at besideSize
      change ∀ id, _ → beside.1.get? id = _ at besideKept
      change beside.1.Planted _ _ beside.2 _ _ at besidePlanted
      have hungSize : hung.size = store.size + 1 + body.size := by
        simp [hung, belowSize, addedSize]
      have hungElsewhere : ∀ id, store.size ≠ id → hung.get? id = below.1.get? id := fun id =>
        get?_update_elsewhere below.1 store.size id _
      have elsewhere : ∀ id, store.size ≠ id →
          (beside.1.setNext store.size beside.2).get? id = beside.1.get? id := fun id =>
        get?_update_elsewhere beside.1 store.size id _
      rw [addedSize] at belowPlanted
      rw [hungSize] at besidePlanted
      change (beside.1.setNext store.size beside.2).size = _ ∧
        (∀ id, id < store.size → (beside.1.setNext store.size beside.2).get? id = store.get? id) ∧
        (beside.1.setNext store.size beside.2).Planted owner before (some store.size) _ _
      refine ⟨?_, fun id old => ?_, ?_⟩
      · simp only [size_setNext, besideSize, hungSize, Forest.size]
        omega
      · rw [elsewhere id (Nat.ne_of_gt old), besideKept id (by omega),
          hungElsewhere id (Nat.ne_of_gt old), belowKept id (by omega), get?_push,
          if_neg (Nat.ne_of_lt old)]
      · have ids : List.range' store.size (Forest.cons node body rest).size =
            store.size :: (List.range' (store.size + 1) body.size ++
              List.range' (store.size + 1 + body.size) rest.size) := by
          rw [Forest.size, Nat.add_comm 1, Nat.add_right_comm, List.range'_succ,
            List.range'_append_1]
        rw [ids]
        refine .cons owner before beside.2 below.2 store.size node body rest _ _ ?_
          (belowPlanted.kept fun id member => ?_) (besidePlanted.kept fun id member => ?_)
        · have hungHead : hung.get? store.size = _ := get?_update below.1 store.size store.size _
          rw [if_pos rfl, belowKept _ (by omega), get?_push, if_pos rfl] at hungHead
          rw [setNext, get?_update, if_pos rfl, besideKept _ (by omega), hungHead]
          rfl
        · have bounds := List.mem_range'_1.mp member
          rw [elsewhere id (by omega), besideKept id (by omega), hungElsewhere id (by omega)]
        · have bounds := List.mem_range'_1.mp member
          exact elsewhere id (by omega)

theorem Planted.leads_step {store : Store} {owner before : Option ElementId} {forest : Forest}
    {ids : List ElementId} {id other : ElementId}
    (planted : store.Planted owner before (some id) forest ids) (leads : store.Leads id other) :
    ∃ otherOwner otherBefore part partIds,
      store.Planted otherOwner otherBefore (some other) part partIds ∧
        partIds.length < ids.length := by
  cases planted with
  | cons _ _ next child _ _ body rest bodyIds restIds found bodyPlanted restPlanted =>
      have links := links_of_cell found
      rcases leads with isNext | isChild
      · obtain rfl : next = some other := links.1.symm.trans isNext
        refine ⟨_, _, _, _, restPlanted, ?_⟩
        simp only [List.length_cons, List.length_append]
        omega
      · obtain rfl : child = some other := links.2.2.1.symm.trans isChild
        refine ⟨_, _, _, _, bodyPlanted, ?_⟩
        simp only [List.length_cons, List.length_append]
        omega

theorem Planted.leads {store : Store} {owner before : Option ElementId} {forest : Forest}
    {ids : List ElementId} {id other : ElementId}
    (planted : store.Planted owner before (some id) forest ids)
    (walk : TransGen store.Leads id other) :
    ∃ otherOwner otherBefore part partIds,
      store.Planted otherOwner otherBefore (some other) part partIds ∧
        partIds.length < ids.length := by
  induction walk with
  | single leads => exact planted.leads_step leads
  | tail _ leads ih =>
      obtain ⟨_, _, _, _, between, shorter⟩ := ih
      obtain ⟨partOwner, partBefore, part, partIds, stands, less⟩ := between.leads_step leads
      exact ⟨partOwner, partBefore, part, partIds, stands, Nat.lt_trans less shorter⟩

theorem Planted.straight {store : Store} {owner before start : Option ElementId}
    {forest : Forest} {ids : List ElementId} {id : ElementId}
    (planted : store.Planted owner before start forest ids) (member : id ∈ ids) :
    ¬ TransGen store.Leads id id := by
  intro round
  obtain ⟨_, _, _, _, part⟩ := planted.part id member
  obtain ⟨_, _, _, _, again, shorter⟩ := part.planted.leads round
  rw [(planted_unique part.planted again).2] at shorter
  exact Nat.lt_irrefl _ shorter

/-- The store with a chain more, which stands in all of its new cells. -/
structure Grown (store grown : Store) (start : Option ElementId) (forest : Forest)
    (ids : List ElementId) : Prop where
  kept : ∀ id, id < store.size → grown.get? id = store.get? id
  planted : grown.Planted none none start forest ids
  fresh : ∀ id ∈ ids, store.size ≤ id
  all : ∀ id, store.size ≤ id → id < grown.size → id ∈ ids

section Grow

variable {store grown : Store} {start : Option ElementId} {forest : Forest} {ids : List ElementId}

theorem Grown.links (grows : Grown store grown start forest ids) {id : ElementId}
    (old : id < store.size) :
    grown.next id = store.next id ∧ grown.prev id = store.prev id ∧
      grown.child id = store.child id ∧ grown.parent id = store.parent id :=
  links_of_get? (grows.kept id old)

theorem Grown.start_inside {head : ElementId}
    (grows : Grown store grown (some head) forest ids) : head < grown.size :=
  grows.planted.inside head grows.planted.start_links.1

theorem grown_straight (grows : Grown store grown start forest ids) (linked : store.Linked) :
    ¬ Circular grown.Follows := by
  rintro ⟨id, round⟩
  -- A circle among old elements would be an old one, and new ones stand in a forest.
  by_cases old : id < store.size
  · have stays : ∀ other, TransGen grown.Follows id other →
        TransGen store.Follows id other ∧ other < store.size := by
      intro other walk
      induction walk with
      | single step =>
          have oldStep : store.Follows id _ := (grows.links old).1.symm.trans step
          exact ⟨.single oldStep, inside_of_prev ((linked.next_prev _ _).mp oldStep)⟩
      | tail _ step ih =>
          have oldStep : store.Follows _ _ := (grows.links ih.2).1.symm.trans step
          exact ⟨ih.1.tail oldStep, inside_of_prev ((linked.next_prev _ _).mp oldStep)⟩
    exact linked.straight ⟨id, (stays id round).1⟩
  · obtain ⟨after, next, _⟩ := TransGen.head'_iff.mp round
    have member := grows.all id (Nat.le_of_not_lt old) (inside_of_next next)
    exact grows.planted.straight member (TransGen.mono (fun _ _ next => Or.inl next) _ _ round)

theorem grown_linked (grows : Grown store grown start forest ids) (linked : store.Linked) :
    grown.Linked where
  next_prev := by
    intro before after
    constructor
    · intro next
      -- Old cells keep their links, and new ones are linked among each other.
      by_cases old : before < store.size
      · have oldPrev := (linked.next_prev before after).mp ((grows.links old).1.symm.trans next)
        exact (grows.links (inside_of_prev oldPrev)).2.1.trans oldPrev
      · have member := grows.all before (Nat.le_of_not_lt old) (inside_of_next next)
        exact ((grows.planted.forward before member).1 after next).2.1
    · intro prev
      by_cases old : after < store.size
      · have oldNext := (linked.next_prev before after).mpr ((grows.links old).2.1.symm.trans prev)
        exact (grows.links (inside_of_next oldNext)).1.trans oldNext
      · have member := grows.all after (Nat.le_of_not_lt old) (inside_of_prev prev)
        exact ((grows.planted.answered member).1 before prev).2
  siblings := by
    intro before after next
    by_cases old : before < store.size
    · have oldNext := (grows.links old).1.symm.trans next
      have oldPrev := (linked.next_prev before after).mp oldNext
      rw [(grows.links old).2.2.2, (grows.links (inside_of_prev oldPrev)).2.2.2]
      exact linked.siblings before after oldNext
    · have member := grows.all before (Nat.le_of_not_lt old) (inside_of_next next)
      exact ((grows.planted.forward before member).1 after next).2.2.symm
  first := by
    intro owner id
    constructor
    · intro child
      by_cases old : owner < store.size
      · have oldFirst := (linked.first owner id).mp ((grows.links old).2.2.1.symm.trans child)
        have links := grows.links (inside_of_parent oldFirst.1)
        exact ⟨links.2.2.2.trans oldFirst.1, links.2.1.trans oldFirst.2⟩
      · have member := grows.all owner (Nat.le_of_not_lt old) (inside_of_child child)
        obtain ⟨_, noPrev, owned⟩ := (grows.planted.forward owner member).2 id child
        exact ⟨owned, noPrev⟩
    · rintro ⟨owned, noPrev⟩
      by_cases old : id < store.size
      · have links := grows.links old
        have oldChild := (linked.first owner id).mpr
          ⟨links.2.2.2.symm.trans owned, links.2.1.symm.trans noPrev⟩
        exact (grows.links (inside_of_child oldChild)).2.2.1.trans oldChild
      · have member := grows.all id (Nat.le_of_not_lt old) (inside_of_parent owned)
        exact ((grows.planted.answered member).2 owner owned noPrev).2
  straight := grown_straight grows linked

theorem plant_grown (store : Store) (forest : Forest) :
    Grown store (store.plant none none forest).1 (store.plant none none forest).2 forest
      (List.range' store.size forest.size) := by
  obtain ⟨size, kept, planted⟩ := plant_spec store none none forest
  refine ⟨kept, planted, fun id member => (List.mem_range'_1.mp member).1, ?_⟩
  intro id new inside
  exact List.mem_range'_1.mpr ⟨new, size ▸ inside⟩

theorem add_grown (store : Store) (node : Node) :
    Grown store (store.add node) (some store.size) (.cons node .nil .nil) [store.size] := by
  refine ⟨fun id old => ?_, ?_, by simp, fun id new inside => ?_⟩
  · rw [get?_add, if_neg (Nat.ne_of_lt old)]
  · refine .cons none none none none store.size node .nil .nil [] [] ?_ (.nil _ _) (.nil _ _)
    rw [get?_add, if_pos rfl]
  · rw [size_add] at inside
    exact List.mem_singleton.mpr (Nat.le_antisymm (Nat.le_of_lt_succ inside) new)

end Grow

end Stencil.Store
