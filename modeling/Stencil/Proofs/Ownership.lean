import Stencil.Proofs.Editing

/-!
Ownership without circles. Ownership is acyclic if the owner of an element, the
owner of that one and so on never come back. In a linked store without circles
every element with its body and all that follows it reads as a forest. Taking
links away closes no circle, and neither does adding chains of new cells; putting
a chain below an element closes one exactly if a member of the chain already is
that element or above it.
-/

namespace Stencil.Store

open Relation

def Under (store : Store) (below above : ElementId) : Prop := store.parent below = some above

section Above

variable {store : Store}

theorem above_iff {above below : ElementId} :
    Above store above below ↔ TransGen store.Under below above := by
  constructor
  · intro isAbove
    induction isAbove with
    | owner above below owned => exact .single owned
    | through above between below owned _ ih => exact ih.tail owned
  · intro climb
    induction climb with
    | single owned => exact .owner _ _ owned
    | tail _ owned ih => exact .through _ _ _ owned ih

theorem acyclic_iff : store.Acyclic ↔ ¬ Circular store.Under := by
  constructor
  · rintro acyclic ⟨id, round⟩
    exact acyclic id (above_iff.mpr round)
  · intro straight id isAbove
    exact straight ⟨id, above_iff.mp isAbove⟩

theorem above_owner {above below : ElementId} :
    Above store above below ↔
      ∃ owner, store.parent below = some owner ∧ ReflTransGen store.Under owner above := by
  rw [above_iff, TransGen.head'_iff]
  rfl

theorem acyclic_of_parents {changed : Store} (acyclic : store.Acyclic)
    (fewer : ∀ id, changed.parent id = store.parent id ∨ changed.parent id = none) :
    changed.Acyclic := by
  rw [acyclic_iff] at acyclic ⊢
  refine fun circular => acyclic (circular_of_subset ?_ circular)
  intro below above owned
  rcases fewer below with same | gone
  · exact same.symm.trans owned
  · rw [Under, gone] at owned
    cases owned

end Above

section Reading

variable {store : Store} (linked : store.Linked)
include linked

theorem Linked.leads_of_under {below above : ElementId} (owned : store.Under below above) :
    TransGen store.Leads above below := by
  obtain ⟨head, child, onward⟩ := linked.exists_child owned
  exact TransGen.head' (Or.inr child) (ReflTransGen.mono (fun _ _ next => Or.inl next) _ _ onward)

theorem Linked.leads_of_climb {below above : ElementId}
    (climb : TransGen store.Under below above) : TransGen store.Leads above below := by
  induction climb with
  | single owned => exact linked.leads_of_under owned
  | tail _ owned ih => exact (linked.leads_of_under owned).trans ih

theorem Linked.leads_cases {start id : ElementId} (walk : TransGen store.Leads start id) :
    TransGen store.Follows start id ∨
      ∃ member, store.Onward start member ∧ TransGen store.Under id member := by
  -- A step along `next` stays under the owner, one along `child` goes one level down.
  induction walk with
  | single step =>
      rcases step with next | child
      · exact Or.inl (.single next)
      · exact Or.inr ⟨start, .refl, .single ((linked.first _ _).mp child).1⟩
  | @tail before after _ step ih =>
      rcases step with next | child
      · rcases ih with chain | ⟨member, onward, climb⟩
        · exact Or.inl (chain.tail next)
        · obtain ⟨owner, owned, rest⟩ := TransGen.head'_iff.mp climb
          have shared : store.Under after owner := (linked.siblings _ _ next).symm.trans owned
          exact Or.inr ⟨member, onward, TransGen.head' shared rest⟩
      · have owned : store.Under after before := ((linked.first _ _).mp child).1
        rcases ih with chain | ⟨member, onward, climb⟩
        · exact Or.inr ⟨before, chain.to_reflTransGen, .single owned⟩
        · exact Or.inr ⟨member, onward, TransGen.head owned climb⟩

theorem Linked.leads_straight (acyclic : store.Acyclic) : ¬ Circular store.Leads := by
  rintro ⟨id, round⟩
  rcases linked.leads_cases round with chain | ⟨member, onward, climb⟩
  · exact linked.straight ⟨id, chain⟩
  · obtain ⟨owner, owned, rest⟩ := TransGen.head'_iff.mp climb
    have shared : store.Under member owner := (linked.parent_of_onward onward).trans owned
    exact (acyclic_iff.mp acyclic) ⟨member, TransGen.head' shared rest⟩

/-- In a linked store without circles a forest stands from every element on. -/
theorem Linked.exists_planted (acyclic : store.Acyclic) (id : ElementId)
    (inside : id < store.size) : ∃ forest ids,
      store.Planted (store.parent id) (store.prev id) (some id) forest ids := by
  -- A forest is read along `next` and `child`, which both come to an end.
  have backward : ¬ Circular (fun after before => store.Leads before after) := by
    rintro ⟨point, round⟩
    exact linked.leads_straight acyclic ⟨point, transGen_swap.mp round⟩
  have exhausted : WellFounded (fun after before => store.Leads before after) := by
    refine straight_wellFounded store.size ?_ backward
    rintro after before (next | child)
    · exact inside_of_prev ((linked.next_prev before after).mp next)
    · exact inside_of_parent ((linked.first before after).mp child).1
  induction id using exhausted.induction with
  | _ id ih =>
      obtain ⟨cell, found⟩ := exists_cell store id inside
      have links := links_of_cell found
      have body : ∃ forest ids, store.Planted (some id) none cell.child forest ids := by
        cases child : cell.child with
        | none => exact ⟨.nil, [], .nil _ _⟩
        | some head =>
            have isChild : store.child id = some head := links.2.2.1.trans child
            obtain ⟨owned, noPrev⟩ := (linked.first id head).mp isChild
            obtain ⟨forest, ids, planted⟩ := ih head (Or.inr isChild) (inside_of_parent owned)
            rw [owned, noPrev] at planted
            exact ⟨forest, ids, planted⟩
      have rest : ∃ forest ids, store.Planted (store.parent id) (some id) cell.next forest ids := by
        cases next : cell.next with
        | none => exact ⟨.nil, [], .nil _ _⟩
        | some after =>
            have isNext : store.next id = some after := links.1.trans next
            have isPrev := (linked.next_prev id after).mp isNext
            obtain ⟨forest, ids, planted⟩ := ih after (Or.inl isNext) (inside_of_prev isPrev)
            rw [← linked.siblings id after isNext, isPrev] at planted
            exact ⟨forest, ids, planted⟩
      obtain ⟨bodyForest, bodyIds, bodyPlanted⟩ := body
      obtain ⟨restForest, restIds, restPlanted⟩ := rest
      refine ⟨_, _, .cons _ _ cell.next cell.child id cell.toNode bodyForest restForest bodyIds
        restIds ?_ bodyPlanted restPlanted⟩
      rw [found, links.2.1, links.2.2.2]

end Reading

section Growth

variable {store grown : Store} {start : Option ElementId} {forest : Forest} {ids : List ElementId}

theorem Grown.climb (grows : Grown store grown start forest ids) (linked : store.Linked)
    {id above : ElementId} (old : id < store.size) (climb : ReflTransGen grown.Under id above) :
    ReflTransGen store.Under id above ∧ above < store.size := by
  induction climb with
  | refl => exact ⟨.refl, old⟩
  | @tail below above _ owned ih =>
      have oldOwned : store.Under below above := (grows.links ih.2).2.2.2.symm.trans owned
      obtain ⟨_, child, _⟩ := linked.exists_child oldOwned
      exact ⟨ih.1.tail oldOwned, inside_of_child child⟩

theorem Grown.onward (grows : Grown store grown start forest ids) {id other : ElementId}
    (member : id ∈ ids) (onward : grown.Onward id other) : other ∈ ids := by
  induction onward with
  | refl => exact member
  | tail _ next ih => exact ((grows.planted.forward _ ih).1 _ next).1

theorem Grown.acyclic (grows : Grown store grown start forest ids) (linked : store.Linked)
    (acyclic : store.Acyclic) : grown.Acyclic := by
  rw [acyclic_iff]
  rintro ⟨id, round⟩
  obtain ⟨owner, owned, rest⟩ := TransGen.head'_iff.mp round
  by_cases old : id < store.size
  · have oldOwned : store.Under id owner := (grows.links old).2.2.2.symm.trans owned
    obtain ⟨_, child, _⟩ := linked.exists_child oldOwned
    have oldRest := (grows.climb linked (inside_of_child child) rest).1
    exact acyclic_iff.mp acyclic ⟨id, TransGen.head' oldOwned oldRest⟩
  · have member := grows.all id (Nat.le_of_not_lt old) (inside_of_parent owned)
    exact grows.planted.straight member ((grown_linked grows linked).leads_of_climb round)

end Growth

/-- Elements below a new owner: circles are closed by the members that already
were the owner or above it. -/
theorem reparented_acyclic {store changed : Store} {owner : ElementId} {members : List ElementId}
    (acyclic : store.Acyclic) (unowned : ∀ id ∈ members, store.parent id = none)
    (reads : ∀ id, changed.parent id = if id ∈ members then some owner else store.parent id) :
    changed.Acyclic ↔ ¬ ∃ member ∈ members, ReflTransGen store.Under owner member := by
  -- All the new edges have one target, the new owner.
  have edges : ∀ below above, changed.Under below above ↔
      Joined store.Under (· ∈ members) owner below above := by
    intro below above
    rw [Under, reads]
    by_cases member : below ∈ members
    · simp [Joined, Under, member, unowned below member, eq_comm]
    · simp [Joined, Under, member]
  have same : changed.Under = Joined store.Under (· ∈ members) owner :=
    funext fun below => funext fun above => propext (edges below above)
  rw [acyclic_iff, same, joined_circular_iff (acyclic_iff.mp acyclic)]

/-- The chain was taken beside `host`: a circle is closed exactly if one of its
members is above `host`. -/
theorem Spliced.acyclic_iff {store spliced : Store} {left right : Option ElementId}
    {host first last : ElementId} {members : List ElementId} (acyclic : store.Acyclic)
    (loose : store.Loose first last members)
    (reads : Spliced store spliced left right (store.parent host) first last members) :
    spliced.Acyclic ↔ ¬ ∃ member ∈ members, Above store member host := by
  cases owned : store.parent host with
  | none =>
      have same : ∀ id, spliced.parent id = store.parent id := by
        intro id
        rw [reads.parent, owned]
        by_cases member : id ∈ members
        · rw [if_pos member, loose.unowned id member]
        · rw [if_neg member]
      have stays := acyclic_of_parents acyclic fun id => Or.inl (same id)
      refine ⟨fun _ => ?_, fun _ => stays⟩
      rintro ⟨member, _, isAbove⟩
      obtain ⟨owner, isOwner, _⟩ := above_owner.mp isAbove
      rw [owned] at isOwner
      cases isOwner
  | some owner =>
      have parents := reads.parent
      rw [owned] at parents
      rw [reparented_acyclic acyclic loose.unowned parents]
      have same : ∀ member, Above store member host ↔ ReflTransGen store.Under owner member := by
        intro member
        rw [above_owner, owned]
        simp
      simp only [same]

section Emptying

variable {store : Store} (linked : store.Linked) (acyclic : store.Acyclic)
include linked acyclic

omit acyclic in
theorem detached_climb {id other : ElementId} (reached : (store.detach id).Reached [id] other) :
    ReflTransGen store.Under other id := by
  obtain ⟨start, isStart, walk⟩ := reached
  rw [List.mem_singleton.mp isStart] at walk
  have detached := detach_linked linked id
  have reads := detach_reads linked id
  have climbs : ∀ below above, (store.detach id).Under below above → store.Under below above := by
    intro below above owned
    rw [Under, reads.parent] at owned
    by_cases same : below = id
    · simp [same] at owned
    · rwa [if_neg same] at owned
  rcases reflTransGen_iff_eq_or_transGen.mp walk with same | walk
  · exact same ▸ .refl
  · rcases detached.leads_cases walk with chain | ⟨member, onward, climb⟩
    · obtain ⟨after, next, _⟩ := TransGen.head'_iff.mp chain
      rw [Follows, reads.next, if_pos rfl] at next
      cases next
    · have noNext : (store.detach id).next id = none := by rw [reads.next, if_pos rfl]
      rw [onward_end noNext onward] at climb
      exact ReflTransGen.mono climbs _ _ climb.to_reflTransGen

omit acyclic in
theorem destroyOne_parent {id other : ElementId} (apart : ¬ ReflTransGen store.Under other id) :
    (store.destroyOne id).parent other = store.parent other := by
  have beyond : ¬ (store.detach id).Reached [id] other := fun reached =>
    apart (detached_climb linked reached)
  have different : other ≠ id := fun same => apart (same ▸ .refl)
  rw [(links_of_get? ((destroyOne_cleared linked id).beyond other beyond)).2.2.2,
    (detach_reads linked id).parent, if_neg different]

variable {owner : ElementId}

omit acyclic in
theorem destroyOne_next {id : ElementId} (owned : store.parent id = some owner)
    {other : ElementId} (unowned : store.parent other = none) :
    (store.destroyOne id).next other = store.next other := by
  have different : other ≠ id := by
    rintro rfl
    rw [unowned] at owned
    cases owned
  have apart : ¬ ReflTransGen store.Under other id := by
    intro climb
    rcases ReflTransGen.cases_head climb with same | ⟨above, isOwner, _⟩
    · exact different same
    · rw [Under, unowned] at isOwner
      cases isOwner
  have beyond : ¬ (store.detach id).Reached [id] other := fun reached =>
    apart (detached_climb linked reached)
  have notBefore : store.prev id ≠ some other := by
    intro prev
    have shared := linked.siblings other id ((linked.next_prev other id).mpr prev)
    rw [unowned, owned] at shared
    cases shared
  rw [(links_of_get? ((destroyOne_cleared linked id).beyond other beyond)).1,
    (detach_reads linked id).next, if_neg different, if_neg notBefore]

omit linked in
theorem not_below_member {id other : ElementId} (owned : store.parent id = some owner)
    (climb : ReflTransGen store.Under owner other) : ¬ ReflTransGen store.Under other id := by
  intro back
  exact acyclic_iff.mp acyclic ⟨id, TransGen.head' owned (climb.trans back)⟩

theorem destroyOne_sibling {id after : ElementId} (owned : store.parent id = some owner)
    (next : store.next id = some after) : (store.destroyOne id).parent after = some owner := by
  have shared := (linked.siblings id after next).symm.trans owned
  rw [← shared]
  apply destroyOne_parent linked
  intro climb
  rcases ReflTransGen.cases_head climb with same | ⟨above, isOwner, rest⟩
  · exact linked.straight ⟨id, .single (same ▸ next)⟩
  · rw [Under, shared] at isOwner
    cases isOwner
    exact acyclic_iff.mp acyclic ⟨id, TransGen.head' owned rest⟩

theorem destroyAllFor_keeps (count : Nat) (start : Option ElementId)
    (owned : ∀ id, start = some id → store.parent id = some owner) :
    (∀ other, ReflTransGen store.Under owner other →
      (store.destroyAllFor count start).parent other = store.parent other) ∧
    ∀ other, store.parent other = none →
      (store.destroyAllFor count start).next other = store.next other := by
  induction count generalizing store start with
  | zero => exact ⟨fun _ _ => rfl, fun _ _ => rfl⟩
  | succ count ih =>
      cases start with
      | none => exact ⟨fun _ _ => rfl, fun _ _ => rfl⟩
      | some id =>
          have here := owned id rfl
          have prunes := destroyOne_pruned linked id
          -- No member of the body is above its owner, so the owner keeps all that is above it.
          have kept : ∀ other, ReflTransGen store.Under owner other →
              (store.destroyOne id).parent other = store.parent other := fun other climb =>
            destroyOne_parent linked (not_below_member acyclic here climb)
          have climbs : ∀ other, ReflTransGen store.Under owner other →
              ReflTransGen (store.destroyOne id).Under owner other := by
            intro other climb
            induction climb with
            | refl => exact .refl
            | tail before owned ihClimb => exact ihClimb.tail ((kept _ before).trans owned)
          obtain ⟨parents, nexts⟩ := ih (destroyOne_linked linked id)
            (acyclic_of_parents acyclic prunes.parent) (store.next id)
            fun after next => destroyOne_sibling linked acyclic here next
          constructor
          · intro other climb
            exact (parents other (climbs other climb)).trans (kept other climb)
          · intro other unowned
            exact (nexts other (prunes.unowned unowned)).trans
              (destroyOne_next linked here unowned)

end Emptying

end Stencil.Store
