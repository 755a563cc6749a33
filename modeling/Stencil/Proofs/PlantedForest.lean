import Stencil.Proofs.SiblingChain
import Stencil.Store.Copy

/-!
Forests that stand in a store. A forest is planted where its cells have exactly
the links that its shape demands; `ids` lists the cells in preorder. What stands
from a start on is determined by the start, so no cell comes twice: a cell below
or behind itself would stand for a forest that is larger than itself. Whatever
leaves the listed cells alone leaves the forest standing.
-/

namespace Stencil.Store

inductive Planted (store : Store) : Option ElementId → Option ElementId → Option ElementId →
    Forest → List ElementId → Prop where
  | nil (owner before : Option ElementId) : Planted store owner before none .nil []
  | cons (owner before next child : Option ElementId) (id : ElementId) (node : Node)
      (body rest : Forest) (bodyIds restIds : List ElementId) :
      store.get? id = some ⟨node, next, before, child, owner⟩ →
      Planted store (some id) none child body bodyIds →
      Planted store owner (some id) next rest restIds →
      Planted store owner before (some id) (.cons node body rest) (id :: (bodyIds ++ restIds))

section Shape

variable {store : Store} {owner before start : Option ElementId} {forest : Forest}
variable {ids : List ElementId}

theorem links_of_cell {id : ElementId} {cell : Element} (found : store.get? id = some cell) :
    store.next id = cell.next ∧ store.prev id = cell.prev ∧ store.child id = cell.child ∧
      store.parent id = cell.parent := by
  simp [next, prev, child, parent, found]

theorem planted_unique {other : Forest} {otherOwner otherBefore : Option ElementId}
    {otherIds : List ElementId} (planted : store.Planted owner before start forest ids)
    (again : store.Planted otherOwner otherBefore start other otherIds) :
    forest = other ∧ ids = otherIds := by
  induction planted generalizing otherOwner otherBefore other otherIds with
  | nil => cases again; exact ⟨rfl, rfl⟩
  | cons owner before next child id node body rest bodyIds restIds found _ _ ihBody ihRest =>
      cases again with
      | cons _ _ _ _ _ _ _ _ _ _ foundAgain bodyAgain restAgain =>
          have same := Option.some.inj (found.symm.trans foundAgain)
          cases same
          obtain ⟨rfl, rfl⟩ := ihBody bodyAgain
          obtain ⟨rfl, rfl⟩ := ihRest restAgain
          exact ⟨rfl, rfl⟩

theorem Planted.kept {changed : Store} (planted : store.Planted owner before start forest ids)
    (same : ∀ id ∈ ids, changed.get? id = store.get? id) :
    changed.Planted owner before start forest ids := by
  induction planted with
  | nil => exact .nil _ _
  | cons owner before next child id node body rest bodyIds restIds found _ _ ihBody ihRest =>
      refine .cons owner before next child id node body rest bodyIds restIds ?_ (ihBody ?_)
        (ihRest ?_)
      · rw [same id List.mem_cons_self, found]
      · intro other member
        exact same other (List.mem_cons_of_mem id (List.mem_append_left restIds member))
      · intro other member
        exact same other (List.mem_cons_of_mem id (List.mem_append_right bodyIds member))

theorem Planted.start_links {id : ElementId}
    (planted : store.Planted owner before (some id) forest ids) :
    id ∈ ids ∧ store.prev id = before ∧ store.parent id = owner := by
  cases planted with
  | cons _ _ _ _ _ _ _ _ _ _ found _ _ =>
      have links := links_of_cell found
      exact ⟨List.mem_cons_self, links.2.1, links.2.2.2⟩

-- The three ways into a cell: from outside, along `next`, and along `child`. They
-- fix the owner and the sibling before that the cell must name.
inductive Entered (store : Store) (owner before start : Option ElementId)
    (ids : List ElementId) : Option ElementId → Option ElementId → ElementId → Prop where
  | start (id : ElementId) : start = some id → Entered store owner before start ids owner before id
  | next (other id : ElementId) : other ∈ ids → store.next other = some id →
      Entered store owner before start ids (store.parent other) (some other) id
  | child (other id : ElementId) : other ∈ ids → store.child other = some id →
      Entered store owner before start ids (some other) none id

structure Part (store : Store) (owner before start : Option ElementId) (ids : List ElementId)
    (id : ElementId) (partOwner partBefore : Option ElementId) (part : Forest)
    (partIds : List ElementId) : Prop where
  planted : store.Planted partOwner partBefore (some id) part partIds
  entered : Entered store owner before start ids partOwner partBefore id
  owned : partOwner = owner ∨ ∃ other ∈ ids, partOwner = some other
  subset : partIds ⊆ ids
  shorter : partIds.length ≤ ids.length

theorem Part.wider {subOwner subBefore subStart partOwner partBefore : Option ElementId}
    {subIds partIds : List ElementId} {id : ElementId} {part : Forest}
    (isPart : Part store subOwner subBefore subStart subIds id partOwner partBefore part partIds)
    (within : subIds ⊆ ids) (fewer : subIds.length ≤ ids.length)
    (starts : subStart = some id → Entered store owner before start ids subOwner subBefore id)
    (startOwned : subOwner = owner ∨ ∃ other ∈ ids, subOwner = some other) :
    Part store owner before start ids id partOwner partBefore part partIds where
  planted := isPart.planted
  entered := by
    cases isPart.entered with
    | start _ isStart => exact starts isStart
    | next sibling _ inside step => exact .next sibling id (within inside) step
    | child host _ inside step => exact .child host id (within inside) step
  owned := by
    rcases isPart.owned with top | ⟨host, inside, isOwner⟩
    · exact top ▸ startOwned
    · exact Or.inr ⟨host, within inside, isOwner⟩
  subset := List.Subset.trans isPart.subset within
  shorter := Nat.le_trans isPart.shorter fewer

theorem Planted.part (planted : store.Planted owner before start forest ids) :
    ∀ id ∈ ids, ∃ partOwner partBefore part partIds,
      Part store owner before start ids id partOwner partBefore part partIds := by
  induction planted with
  | nil => simp
  | cons owner before next child id node body rest bodyIds restIds found bodyPlanted restPlanted
      ihBody ihRest =>
      have links := links_of_cell found
      intro other member
      -- The cell itself, one below it, or one behind it.
      rcases List.mem_cons.mp member with same | deeper
      · subst same
        exact ⟨owner, before, _, _, .cons owner before next child other node body rest bodyIds
          restIds found bodyPlanted restPlanted, .start other rfl, Or.inl rfl, List.Subset.refl _,
          Nat.le_refl _⟩
      rcases List.mem_append.mp deeper with inBody | inRest
      · obtain ⟨partOwner, partBefore, part, partIds, isPart⟩ := ihBody other inBody
        refine ⟨partOwner, partBefore, part, partIds, isPart.wider ?_ ?_ ?_ ?_⟩
        · exact fun _ inside => List.mem_cons_of_mem id (List.mem_append_left restIds inside)
        · simp only [List.length_cons, List.length_append]
          omega
        · exact fun isStart => .child id other List.mem_cons_self (links.2.2.1.trans isStart)
        · exact Or.inr ⟨id, List.mem_cons_self, rfl⟩
      · obtain ⟨partOwner, partBefore, part, partIds, isPart⟩ := ihRest other inRest
        refine ⟨partOwner, partBefore, part, partIds, isPart.wider ?_ ?_ ?_ (Or.inl rfl)⟩
        · exact fun _ inside => List.mem_cons_of_mem id (List.mem_append_right bodyIds inside)
        · simp only [List.length_cons, List.length_append]
          omega
        · intro isStart
          have entry : Entered store owner before (some id) (id :: (bodyIds ++ restIds))
              (store.parent id) (some id) other :=
            .next id other List.mem_cons_self (links.1.trans isStart)
          rw [links.2.2.2] at entry
          exact entry

theorem Planted.inside (planted : store.Planted owner before start forest ids) :
    ∀ id ∈ ids, id < store.size := by
  intro id member
  obtain ⟨_, _, _, _, part⟩ := planted.part id member
  cases part.planted with
  | cons _ _ _ _ _ _ _ _ _ _ found _ _ => exact inside_of_get? found

theorem Planted.forward (planted : store.Planted owner before start forest ids) :
    ∀ id ∈ ids,
      (∀ after, store.next id = some after →
        after ∈ ids ∧ store.prev after = some id ∧ store.parent after = store.parent id) ∧
      (∀ below, store.child id = some below →
        below ∈ ids ∧ store.prev below = none ∧ store.parent below = some id) := by
  intro id member
  obtain ⟨_, _, _, _, part⟩ := planted.part id member
  have subset := part.subset
  cases part.planted with
  | cons _ _ next child _ _ _ _ bodyIds restIds found bodyPlanted restPlanted =>
      have links := links_of_cell found
      constructor
      · intro after isNext
        obtain rfl : next = some after := links.1.symm.trans isNext
        obtain ⟨inRest, prev, parent⟩ := restPlanted.start_links
        exact ⟨subset (List.mem_cons_of_mem id (List.mem_append_right bodyIds inRest)), prev,
          parent.trans links.2.2.2.symm⟩
      · intro below isChild
        obtain rfl : child = some below := links.2.2.1.symm.trans isChild
        obtain ⟨inBody, prev, parent⟩ := bodyPlanted.start_links
        exact ⟨subset (List.mem_cons_of_mem id (List.mem_append_left restIds inBody)), prev, parent⟩

theorem Planted.backward (planted : store.Planted owner before start forest ids) :
    ∀ id ∈ ids, start = some id ∨
      (∃ other ∈ ids, store.prev id = some other ∧ store.next other = some id) ∨
      (store.prev id = none ∧ ∃ other ∈ ids, store.parent id = some other ∧
        store.child other = some id) := by
  intro id member
  obtain ⟨_, _, _, _, part⟩ := planted.part id member
  obtain ⟨_, prev, parent⟩ := part.planted.start_links
  cases part.entered with
  | start _ isStart => exact Or.inl isStart
  | next other _ inside step => exact Or.inr (Or.inl ⟨other, inside, prev, step⟩)
  | child other _ inside step => exact Or.inr (Or.inr ⟨prev, other, inside, parent, step⟩)

theorem Planted.answered (planted : store.Planted none none start forest ids) {id : ElementId}
    (member : id ∈ ids) :
    (∀ other, store.prev id = some other → other ∈ ids ∧ store.next other = some id) ∧
      ∀ other, store.parent id = some other → store.prev id = none →
        other ∈ ids ∧ store.child other = some id := by
  rcases planted.backward id member with isStart | ⟨sibling, inside, isPrev, next⟩ |
    ⟨noPrev, host, inside, isParent, child⟩
  · subst isStart
    obtain ⟨_, noPrev, noParent⟩ := planted.start_links
    simp [noPrev, noParent]
  · constructor
    · intro other prev
      rw [prev] at isPrev
      exact Option.some.inj isPrev ▸ ⟨inside, next⟩
    · intro other _ noPrev
      rw [noPrev] at isPrev
      cases isPrev
  · constructor
    · intro other prev
      rw [noPrev] at prev
      cases prev
    · intro other parent _
      rw [parent] at isParent
      exact Option.some.inj isParent ▸ ⟨inside, child⟩

theorem Planted.owned (planted : store.Planted owner before start forest ids) :
    ∀ id ∈ ids, store.parent id = owner ∨ ∃ other ∈ ids, store.parent id = some other := by
  intro id member
  obtain ⟨_, _, _, _, part⟩ := planted.part id member
  rw [part.planted.start_links.2.2]
  exact part.owned

/-- A region that is closed against the links backward and meets the forest
holds its start. -/
theorem Planted.start_of_meets (planted : store.Planted owner before start forest ids)
    {region : ElementId → Prop}
    (prevs : ∀ id, region id → ∀ other, store.prev id = some other → other ∈ ids → region other)
    (parents : ∀ id, region id → store.prev id = none →
      ∀ other, store.parent id = some other → other ∈ ids → region other)
    {id : ElementId} (member : id ∈ ids) (meets : region id) :
    ∃ head, start = some head ∧ region head := by
  induction planted generalizing id with
  | nil => simp at member
  | cons owner before next child head node body rest bodyIds restIds found bodyPlanted restPlanted
      ihBody ihRest =>
      refine ⟨head, rfl, ?_⟩
      rcases List.mem_cons.mp member with same | deeper
      · exact same ▸ meets
      · rcases List.mem_append.mp deeper with inBody | inRest
        · obtain ⟨first, rfl, inRegion⟩ := ihBody
            (fun id here other prev inside => prevs id here other prev (by simp [inside]))
            (fun id here noPrev other parent inside =>
              parents id here noPrev other parent (by simp [inside])) inBody meets
          obtain ⟨_, prev, parent⟩ := bodyPlanted.start_links
          exact parents first inRegion prev head parent List.mem_cons_self
        · obtain ⟨first, rfl, inRegion⟩ := ihRest
            (fun id here other prev inside => prevs id here other prev (by simp [inside]))
            (fun id here noPrev other parent inside =>
              parents id here noPrev other parent (by simp [inside])) inRest meets
          obtain ⟨_, prev, _⟩ := restPlanted.start_links
          exact prevs first inRegion head prev List.mem_cons_self

/-- The start of a forest is not met again in a smaller one, since what stands
from it on would have to be both. -/
theorem Planted.start_not_mem {id : ElementId} {subOwner subBefore subStart : Option ElementId}
    {sub : Forest} {subIds : List ElementId}
    (planted : store.Planted owner before (some id) forest ids)
    (smaller : store.Planted subOwner subBefore subStart sub subIds)
    (fewer : subIds.length < ids.length) : id ∉ subIds := by
  intro member
  obtain ⟨_, _, _, partIds, part⟩ := smaller.part id member
  have shorter := part.shorter
  rw [← (planted_unique planted part.planted).2] at shorter
  exact Nat.lt_irrefl _ (Nat.lt_of_lt_of_le fewer shorter)

theorem Planted.body_apart {id : ElementId} {child next : Option ElementId} {body rest : Forest}
    {bodyIds restIds : List ElementId}
    (bodyPlanted : store.Planted (some id) none child body bodyIds)
    (restPlanted : store.Planted owner (some id) next rest restIds)
    (notBody : id ∉ bodyIds) (notRest : id ∉ restIds) : ∀ other ∈ bodyIds, other ∉ restIds := by
  intro other inBody inRest
  -- The cells behind the element are closed against the links backward, short of
  -- the element itself. So a common cell would drag in the head of the body.
  have meets : ∃ head, child = some head ∧ head ∈ restIds := by
    apply bodyPlanted.start_of_meets ?_ ?_ inBody inRest
    · intro cell inside sibling prev inBody
      rcases restPlanted.backward cell inside with isStart | ⟨_, there, isPrev, _⟩ | ⟨noPrev, _⟩
      · subst isStart
        have isPrev := restPlanted.start_links.2.1
        rw [prev] at isPrev
        exact absurd (Option.some.inj isPrev ▸ inBody) notBody
      · rw [prev] at isPrev
        exact Option.some.inj isPrev ▸ there
      · rw [noPrev] at prev
        cases prev
    · intro cell inside noPrev host parent inBody
      rcases restPlanted.backward cell inside with isStart | ⟨_, _, isPrev, _⟩ |
        ⟨_, _, there, isParent, _⟩
      · subst isStart
        have isPrev := restPlanted.start_links.2.1
        rw [noPrev] at isPrev
        cases isPrev
      · rw [noPrev] at isPrev
        cases isPrev
      · rw [parent] at isParent
        exact Option.some.inj isParent ▸ there
  obtain ⟨head, rfl, inside⟩ := meets
  obtain ⟨_, noPrev, owned⟩ := bodyPlanted.start_links
  rcases restPlanted.backward head inside with isStart | ⟨_, _, prev, _⟩ | ⟨_, _, there, parent, _⟩
  · subst isStart
    have prev := restPlanted.start_links.2.1
    rw [noPrev] at prev
    cases prev
  · rw [noPrev] at prev
    cases prev
  · rw [owned] at parent
    exact notRest (Option.some.inj parent ▸ there)

theorem Planted.nodup (planted : store.Planted owner before start forest ids) : ids.Nodup := by
  induction planted with
  | nil => exact List.nodup_nil
  | cons owner before next child id node body rest bodyIds restIds found bodyPlanted restPlanted
      ihBody ihRest =>
      have whole := Planted.cons owner before next child id node body rest bodyIds restIds found
        bodyPlanted restPlanted
      have notBody : id ∉ bodyIds := by
        apply whole.start_not_mem bodyPlanted
        simp only [List.length_cons, List.length_append]
        omega
      have notRest : id ∉ restIds := by
        apply whole.start_not_mem restPlanted
        simp only [List.length_cons, List.length_append]
        omega
      have apart := bodyPlanted.body_apart restPlanted notBody notRest
      refine List.nodup_cons.mpr ⟨?_, List.nodup_append'.mpr ⟨ihBody, ihRest, ?_⟩⟩
      · simp [notBody, notRest]
      · exact fun other inBody inRest => apart other inBody inRest

theorem Planted.length_le (planted : store.Planted owner before start forest ids) :
    ids.length ≤ store.size := by
  have within : ids ⊆ List.range store.size := fun id member =>
    List.mem_range.mpr (planted.inside id member)
  simpa using planted.nodup.length_le_of_subset within

theorem Planted.forestFor (planted : store.Planted owner before start forest ids) (count : Nat)
    (enough : ids.length ≤ count) : store.forestFor count start = some forest := by
  induction planted generalizing count with
  | nil => cases count <;> rfl
  | cons owner before next child id node body rest bodyIds restIds found _ _ ihBody ihRest =>
      simp only [List.length_cons, List.length_append] at enough
      obtain ⟨count, rfl⟩ : ∃ fewer, count = fewer + 1 := ⟨count - 1, by omega⟩
      have below := ihBody count (by omega)
      have beside := ihRest count (by omega)
      simp [Store.forestFor, found, below, beside]

/-- A forest that stands in a store is read back from it. -/
theorem Planted.forest? (planted : store.Planted owner before start forest ids) :
    store.forest? start = some forest :=
  planted.forestFor _ (Nat.le_succ_of_le planted.length_le)

end Shape

end Stencil.Store
