import Stencil.Proofs.Attempt
import Stencil.Proofs.SiblingChain

/-!
Splices. Each operation on links is first read off as four functions of the links
before it, and then shown to keep the store linked. A splice adds at most two
edges to a chain from which one was taken away, and neither of them closes a
circle: the position is no member of the chain that is put beside it, and a chain
without an owner is entered and left at its ends only.
-/

namespace Stencil.Store

open Relation

section SetParents

variable (store : Store) (owner : Option ElementId) (members : List ElementId) (other : ElementId)

theorem kept_setParents {Value : Type} (read : Store → Value)
    (kept : ∀ store id, read (store.setParent id owner) = read store) :
    read (store.setParents owner members) = read store := by
  induction members generalizing store with
  | nil => rfl
  | cons id rest ih => exact (ih _).trans (kept store id)

@[simp] theorem size_setParents : (store.setParents owner members).size = store.size :=
  kept_setParents store owner members size fun _ _ => size_setParent ..

@[simp] theorem next_setParents :
    (store.setParents owner members).next other = store.next other :=
  kept_setParents store owner members (·.next other) fun _ _ => next_setParent ..

@[simp] theorem prev_setParents :
    (store.setParents owner members).prev other = store.prev other :=
  kept_setParents store owner members (·.prev other) fun _ _ => prev_setParent ..

@[simp] theorem child_setParents :
    (store.setParents owner members).child other = store.child other :=
  kept_setParents store owner members (·.child other) fun _ _ => child_setParent ..

@[simp] theorem label_setParents :
    (store.setParents owner members).label other = store.label other :=
  kept_setParents store owner members (·.label other) fun _ _ => label_setParent ..

theorem parent_setParents (inside : ∀ id ∈ members, id < store.size) :
    (store.setParents owner members).parent other =
      if other ∈ members then owner else store.parent other := by
  induction members generalizing store with
  | nil => rfl
  | cons id rest ih =>
      have head : id < store.size := inside id (by simp)
      have tail := ih (store.setParent id owner) (fun later member => by
        rw [size_setParent]
        exact inside later (List.mem_cons_of_mem id member))
      change ((store.setParent id owner).setParents owner rest).parent other = _
      rw [tail, parent_setParent head]
      by_cases same : id = other
      · simp [same]
      · simp [same, Ne.symm same]

end SetParents

/-- Neighbours in a chain, or an end of a chain and nothing beside it. -/
structure Gap (store : Store) (left right owner : Option ElementId) : Prop where
  next : ∀ id, left = some id → store.next id = right
  prev : ∀ id, right = some id → store.prev id = left
  left_owner : ∀ id, left = some id → store.parent id = owner
  right_owner : ∀ id, right = some id → store.parent id = owner
  placed : left ≠ none ∨ right ≠ none

structure Spliced (store spliced : Store) (left right owner : Option ElementId)
    (first last : ElementId) (members : List ElementId) : Prop where
  next : ∀ id, spliced.next id =
    if left = some id then some first else if id = last then right else store.next id
  prev : ∀ id, spliced.prev id =
    if right = some id then some last else if id = first then left else store.prev id
  parent : ∀ id, spliced.parent id = if id ∈ members then owner else store.parent id
  child : ∀ id, spliced.child id =
    if left = none ∧ owner = some id then some first else store.child id

section Splice

variable {store spliced : Store} {left right owner : Option ElementId}
variable {first last : ElementId} {members : List ElementId}

theorem spliced_straight (linked : store.Linked) (loose : store.Loose first last members)
    (gap : store.Gap left right owner) (leftApart : ∀ id, left = some id → id ∉ members)
    (rightApart : ∀ id, right = some id → id ∉ members)
    (reads : Spliced store spliced left right owner first last members) :
    ¬ Circular spliced.Follows := by
  -- The left neighbour gives its edge up. Of the two new edges one leads from it into
  -- the chain, the other from the end of the chain to the right neighbour.
  let kept := fun before after => store.Follows before after ∧ left ≠ some before
  let entered := Joined kept (left = some ·) first
  have keptOnward : ∀ before after, ReflTransGen kept before after → store.Onward before after :=
    ReflTransGen.mono fun _ _ step => step.1
  have keptStraight : ¬ Circular kept := fun circular =>
    linked.straight (circular_of_subset (fun _ _ step => step.1) circular)
  have enteredStraight : ¬ Circular entered := by
    rw [joined_circular_iff keptStraight]
    rintro ⟨id, isLeft, walk⟩
    exact leftApart id isLeft (loose.onward loose.first_mem (keptOnward _ _ walk))
  have covered : ∀ before after, spliced.Follows before after →
      entered before after ∨ (before = last ∧ right = some after) := by
    intro before after step
    rw [Follows, reads.next] at step
    by_cases isLeft : left = some before
    · rw [if_pos isLeft] at step
      exact Or.inl (Or.inr ⟨isLeft, (Option.some.inj step).symm⟩)
    · rw [if_neg isLeft] at step
      by_cases isLast : before = last
      · rw [if_pos isLast] at step
        exact Or.inr ⟨isLast, step⟩
      · rw [if_neg isLast] at step
        exact Or.inl (Or.inl ⟨step, isLeft⟩)
  cases isRight : right with
  | none =>
      refine fun circular => enteredStraight (circular_of_subset ?_ circular)
      intro before after step
      rcases covered before after step with old | ⟨_, none⟩
      · exact old
      · rw [isRight] at none
        cases none
  | some following =>
      have leavingStraight : ¬ Circular (Joined entered (· = last) following) := by
        -- A way back from the right neighbour would enter the chain, or close an old circle.
        apply joined_straight enteredStraight
        intro walk
        rcases reflTransGen_iff_eq_or_transGen.mp walk with same | walk
        · exact rightApart following isRight (same ▸ loose.last_mem)
        · rcases joined_walk walk with old | ⟨id, isLeft, reach, _⟩
          · have onward := keptOnward _ _ old.to_reflTransGen
            exact rightApart following isRight (loose.back linked loose.last_mem onward)
          · have step : store.Follows id following := (gap.next id isLeft).trans isRight
            exact linked.straight ⟨id, TransGen.head' step (keptOnward _ _ reach)⟩
      refine fun circular => leavingStraight (circular_of_subset ?_ circular)
      intro before after step
      rcases covered before after step with old | ⟨isLast, isAfter⟩
      · exact Or.inl old
      · exact Or.inr ⟨isLast, Option.some.inj (isAfter.symm.trans isRight)⟩

/-- A chain without an owner may be put into any gap of another chain. -/
theorem spliced_linked (linked : store.Linked) (loose : store.Loose first last members)
    (gap : store.Gap left right owner) (leftApart : ∀ id, left = some id → id ∉ members)
    (rightApart : ∀ id, right = some id → id ∉ members)
    (reads : Spliced store spliced left right owner first last members) : spliced.Linked where
  next_prev := by
    intro before after
    have old := linked.next_prev before after
    have fromLeft := gap.next before
    have toRight := gap.prev after
    have noBefore := loose.no_prev
    have noAfter := loose.no_next
    have firstMember := loose.first_mem
    have lastMember := loose.last_mem
    rw [reads.next, reads.prev]
    grind
  siblings := by
    intro before after step
    have old := linked.siblings before after
    have back := linked.next_prev before after
    have forward := loose.forward before
    have backward := loose.backward after
    have fromLeft := gap.left_owner before
    have toRight := gap.right_owner after
    have firstMember := loose.first_mem
    have lastMember := loose.last_mem
    rw [reads.next] at step
    rw [reads.parent, reads.parent]
    grind
  first := by
    intro host id
    have old := linked.first host id
    have unowned := loose.unowned id
    have onlyFirst := loose.only_first id
    have firstMember := loose.first_mem
    have toRight := gap.prev id
    have rightOwned := gap.right_owner id
    -- A gap without a left neighbour is at the front, so its right one heads the body.
    have headed : left = none → owner = some host → store.child host = right := by
      intro noLeft owned
      cases isRight : right with
      | none => exact absurd isRight (gap.placed.resolve_left (not_not_intro noLeft))
      | some following =>
          apply (linked.first host following).mpr
          constructor
          · rw [gap.right_owner following isRight, owned]
          · rw [gap.prev following isRight, noLeft]
    rw [reads.child, reads.parent, reads.prev]
    grind
  straight := spliced_straight linked loose gap leftApart rightApart reads

end Splice

section Linking

def linkBack (store : Store) (target link : Option ElementId) : Store :=
  match target with
  | some id => store.setPrev id link
  | none => store

def linkOn (store : Store) (target link : Option ElementId) : Store :=
  match target with
  | some id => store.setNext id link
  | none => store

def linkFirst (store : Store) (before owner : Option ElementId) (position first : ElementId) :
    Store :=
  match before, owner with
  | some before, _ => store.setNext before (some first)
  | none, some owner =>
      if store.child owner = some position then store.setChild owner (some first) else store
  | none, none => store

variable (store : Store) (target link before owner : Option ElementId)
variable (position first other : ElementId)

@[simp] theorem size_linkBack : (store.linkBack target link).size = store.size := by
  cases target <;> simp [linkBack]

@[simp] theorem next_linkBack : (store.linkBack target link).next other = store.next other := by
  cases target <;> simp [linkBack]

@[simp] theorem parent_linkBack :
    (store.linkBack target link).parent other = store.parent other := by
  cases target <;> simp [linkBack]

@[simp] theorem child_linkBack :
    (store.linkBack target link).child other = store.child other := by
  cases target <;> simp [linkBack]

@[simp] theorem size_linkOn : (store.linkOn target link).size = store.size := by
  cases target <;> simp [linkOn]

@[simp] theorem prev_linkOn : (store.linkOn target link).prev other = store.prev other := by
  cases target <;> simp [linkOn]

@[simp] theorem parent_linkOn : (store.linkOn target link).parent other = store.parent other := by
  cases target <;> simp [linkOn]

@[simp] theorem child_linkOn : (store.linkOn target link).child other = store.child other := by
  cases target <;> simp [linkOn]

@[simp] theorem label_linkBack :
    (store.linkBack target link).label other = store.label other := by
  cases target <;> simp [linkBack]

@[simp] theorem label_linkOn : (store.linkOn target link).label other = store.label other := by
  cases target <;> simp [linkOn]

variable {store target} in
theorem prev_linkBack (inside : ∀ id, target = some id → id < store.size) :
    (store.linkBack target link).prev other =
      if target = some other then link else store.prev other := by
  cases target with
  | none => simp [linkBack]
  | some id =>
      rw [linkBack, prev_setPrev (inside id rfl)]
      simp

variable {store target} in
theorem next_linkOn (inside : ∀ id, target = some id → id < store.size) :
    (store.linkOn target link).next other =
      if target = some other then link else store.next other := by
  cases target with
  | none => simp [linkOn]
  | some id =>
      rw [linkOn, next_setNext (inside id rfl)]
      simp

theorem kept_linkFirst {Value : Type} (read : Store → Value)
    (next : ∀ id link, read (store.setNext id link) = read store)
    (child : ∀ id link, read (store.setChild id link) = read store) :
    read (store.linkFirst before owner position first) = read store := by
  unfold linkFirst
  split
  · exact next _ _
  · split
    · exact child _ _
    · rfl
  · rfl

@[simp] theorem prev_linkFirst :
    (store.linkFirst before owner position first).prev other = store.prev other :=
  kept_linkFirst store before owner position first (·.prev other) (fun _ _ => prev_setNext ..)
    fun _ _ => prev_setChild ..

@[simp] theorem parent_linkFirst :
    (store.linkFirst before owner position first).parent other = store.parent other :=
  kept_linkFirst store before owner position first (·.parent other) (fun _ _ => parent_setNext ..)
    fun _ _ => parent_setChild ..

variable {store before} in
theorem next_linkFirst (inside : ∀ id, before = some id → id < store.size) :
    (store.linkFirst before owner position first).next other =
      if before = some other then some first else store.next other := by
  cases before with
  | none =>
      cases owner with
      | none => simp [linkFirst]
      | some host =>
          simp only [linkFirst]
          split <;> simp
  | some id =>
      rw [linkFirst, next_setNext (inside id rfl)]
      simp

variable {store before owner position} in
theorem child_linkFirst
    (headed : ∀ host, before = none → owner = some host → store.child host = some position) :
    (store.linkFirst before owner position first).child other =
      if before = none ∧ owner = some other then some first else store.child other := by
  cases before with
  | some id => simp [linkFirst]
  | none =>
      cases owner with
      | none => simp [linkFirst]
      | some host =>
          have heads := headed host rfl rfl
          simp only [linkFirst, heads, if_true]
          rw [child_setChild (inside_of_child heads)]
          simp

end Linking

section Adopt

theorem label_spliceAfter (store : Store) (position first last other : ElementId) :
    (spliceAfter position store first last).label other = store.label other := by
  simp only [spliceAfter]
  split <;> simp

theorem label_spliceBefore (store : Store) (position first last other : ElementId) :
    (spliceBefore position store first last).label other = store.label other := by
  simp only [spliceBefore]
  split
  · simp
  · split <;> simp
  · simp

variable {store : Store} {position first last : ElementId} {members : List ElementId}

theorem Linked.gap_after (linked : store.Linked) (position : ElementId) :
    store.Gap (some position) (store.next position) (store.parent position) where
  next := by
    rintro id ⟨⟩
    rfl
  prev := fun id next => (linked.next_prev position id).mp next
  left_owner := by
    rintro id ⟨⟩
    rfl
  right_owner := fun id next => (linked.siblings position id next).symm
  placed := Or.inl (by simp)

theorem Linked.gap_before (linked : store.Linked) (position : ElementId) :
    store.Gap (store.prev position) (some position) (store.parent position) where
  next := fun id prev => (linked.next_prev id position).mpr prev
  prev := by
    rintro id ⟨⟩
    rfl
  left_owner := fun id prev => linked.siblings id position ((linked.next_prev id position).mpr prev)
  right_owner := by
    rintro id ⟨⟩
    rfl
  placed := Or.inr (by simp)

variable (linked : store.Linked) (loose : store.Loose first last members)
variable (hostInside : position < store.size) (apart : position ∉ members)
include linked loose hostInside apart

theorem spliceAfter_reads :
    Spliced store
      (spliceAfter position (store.setParents (store.parent position) members) first last)
      (some position) (store.next position) (store.parent position) first last members := by
  have firstInside := loose.inside first loose.first_mem
  have lastInside := loose.inside last loose.last_mem
  have different : position ≠ last := fun same => apart (same ▸ loose.last_mem)
  let owned := store.setParents (store.parent position) members
  let joined := ((owned.setPrev first (some position)).setNext last (store.next position)).setNext
    position (some first)
  have nexts : ∀ id, joined.next id = if some position = some id then some first
      else if id = last then store.next position else store.next id := by
    intro id
    rw [next_setNext (by simpa [owned] using hostInside),
      next_setNext (by simpa [owned] using lastInside)]
    simp [owned, eq_comm]
  have prevs : ∀ id, joined.prev id = if id = first then some position else store.prev id := by
    intro id
    simp only [joined, prev_setNext]
    rw [prev_setPrev (by simpa [owned] using firstInside)]
    simp [owned, eq_comm]
  have result : spliceAfter position owned first last =
      joined.linkBack (store.next position) (some last) := by
    -- The last member is linked first and read again afterwards.
    have reread : joined.next last = store.next position := by
      rw [nexts, if_neg (by simpa using different), if_pos rfl]
    simp only [spliceAfter, next_setPrev, owned, next_setParents]
    change joined.linkBack (joined.next last) (some last) = _
    rw [reread]
  have parents : ∀ id, joined.parent id =
      if id ∈ members then store.parent position else store.parent id := by
    intro id
    simp only [joined, owned, parent_setNext, parent_setPrev]
    exact parent_setParents store (store.parent position) members id loose.inside
  have nextInside : ∀ after, store.next position = some after → after < joined.size := by
    intro after next
    simpa [joined, owned] using inside_of_prev ((linked.next_prev position after).mp next)
  rw [result]
  constructor
  · intro id
    rw [next_linkBack, nexts]
  · intro id
    rw [prev_linkBack _ _ nextInside, prevs]
  · intro id
    rw [parent_linkBack, parents]
  · intro id
    simp [joined, owned]

theorem spliceBefore_reads :
    Spliced store
      (spliceBefore position (store.setParents (store.parent position) members) first last)
      (store.prev position) (some position) (store.parent position) first last members := by
  have firstInside := loose.inside first loose.first_mem
  have lastInside := loose.inside last loose.last_mem
  have different : position ≠ first := fun same => apart (same ▸ loose.first_mem)
  let owned := store.setParents (store.parent position) members
  let joined := ((owned.setPrev first (store.prev position)).setNext last (some position)).setPrev
    position (some last)
  have nexts : ∀ id, joined.next id = if id = last then some position else store.next id := by
    intro id
    rw [next_setPrev, next_setNext (by simpa [owned] using lastInside)]
    simp [owned, eq_comm]
  have prevs : ∀ id, joined.prev id = if some position = some id then some last
      else if id = first then store.prev position else store.prev id := by
    intro id
    rw [prev_setPrev (by simpa [owned] using hostInside), prev_setNext,
      prev_setPrev (by simpa [owned] using firstInside)]
    simp [owned, eq_comm]
  have parents : ∀ id, joined.parent id =
      if id ∈ members then store.parent position else store.parent id := by
    intro id
    simp only [joined, owned, parent_setNext, parent_setPrev]
    exact parent_setParents store (store.parent position) members id loose.inside
  have children : ∀ id, joined.child id = store.child id := fun id => by simp [joined, owned]
  have result : spliceBefore position owned first last =
      joined.linkFirst (store.prev position) (store.parent position) position first := by
    -- The first member and the owner are read again after they were linked.
    have rereadPrev : joined.prev first = store.prev position := by
      rw [prevs, if_neg (by simpa using different), if_pos rfl]
    have rereadParent : joined.parent position = store.parent position := by
      rw [parents, if_neg apart]
    simp only [spliceBefore, owned, prev_setParents]
    change joined.linkFirst (joined.prev first) (joined.parent position) position first = _
    rw [rereadPrev, rereadParent]
  have prevInside : ∀ before, store.prev position = some before → before < joined.size := by
    intro before prev
    simpa [joined, owned] using inside_of_next ((linked.next_prev before position).mpr prev)
  have headed : ∀ host, store.prev position = none → store.parent position = some host →
      joined.child host = some position := by
    intro host noPrev isOwner
    rw [children]
    exact (linked.first host position).mpr ⟨isOwner, noPrev⟩
  rw [result]
  constructor
  · intro id
    rw [next_linkFirst _ _ _ _ prevInside, nexts]
  · intro id
    rw [prev_linkFirst, prevs]
  · intro id
    rw [parent_linkFirst, parents]
  · intro id
    rw [child_linkFirst _ _ headed, children]

end Adopt

section Link

variable {store : Store} {splice : ElementId → Store → ElementId → ElementId → Store}

def taken (store : Store) (splice : ElementId → Store → ElementId → ElementId → Store)
    (host id : ElementId) : Store :=
  let members := (store.visit (some id)).1
  splice host (store.setParents (store.parent host) members) id (members.getLast?.getD id)

theorem linkWith_takes (straight : ¬ Circular store.Follows) (checks : Bool)
    {host id : ElementId} (noPrev : store.prev id = none) (noParent : store.parent id = none)
    (apart : host ∉ (store.visit (some id)).1) :
    store.linkWith checks (some host) (some id) splice =
      .ok { store := store.taken splice host id } := by
  have accepted : (if checks then store.linkRefusal (some host) (some id) else none) = none := by
    cases checks <;> simp [linkRefusal, noPrev, noParent]
  have outside : (checks && (store.visit (some id)).1.contains host) = false := by
    cases checks <;> simp [apart]
  have ended := visit_ends straight (some id)
  simp only [linkWith, accepted, present, ok_bind, adopt, outside, ended]
  rfl

/-- With checks on, a call is refused and changes nothing, or it takes a chain
that is unlinked and does not hold the position. -/
theorem linkWith_cases (straight : ¬ Circular store.Follows) (position element : Option ElementId)
    (splice : ElementId → Store → ElementId → ElementId → Store) :
    (∃ refusal, store.linkWith true position element splice = .ok refusal ∧
      refusal.store = store ∧ refusal.status ≠ .ok) ∨
    ∃ host id, position = some host ∧ element = some id ∧ store.prev id = none ∧
      store.parent id = none ∧ host ∉ (store.visit (some id)).1 ∧
      store.linkWith true position element splice =
        .ok { store := store.taken splice host id } := by
  cases position with
  | none => exact Or.inl ⟨{ store, status := .invalidParameter }, rfl, rfl, by simp⟩
  | some host =>
      cases element with
      | none => exact Or.inl ⟨{ store, status := .invalidParameter }, rfl, rfl, by simp⟩
      | some id =>
          by_cases used : (store.prev id).isSome || (store.parent id).isSome
          · left
            refine ⟨{ store, status := .elementInUse, notices := [.elementLinked] }, ?_, rfl,
              by simp⟩
            simp [linkWith, linkRefusal, used]
          · simp only [Bool.or_eq_true, not_or, Option.not_isSome_iff_eq_none] at used
            by_cases held : host ∈ (store.visit (some id)).1
            · left
              refine ⟨{ store, status := .elementInUse, notices := [.positionInChain] }, ?_, rfl,
                by simp⟩
              simp [linkWith, linkRefusal, used, present, adopt, held]
            · exact Or.inr ⟨host, id, rfl, rfl, used.1, used.2, held,
                linkWith_takes straight true used.1 used.2 held⟩

variable (linked : store.Linked) {host id : ElementId} (hostInside : host < store.size)
variable (inside : id < store.size) (noPrev : store.prev id = none)
variable (noParent : store.parent id = none) (apart : host ∉ (store.visit (some id)).1)
include linked hostInside inside noPrev noParent apart

theorem taken_after_reads :
    Spliced store (store.taken spliceAfter host id) (some host) (store.next host)
      (store.parent host) id ((store.visit (some id)).1.getLast?.getD id)
      (store.visit (some id)).1 := by
  simp only [taken]
  exact spliceAfter_reads linked (linked.loose inside noPrev noParent) hostInside apart

theorem taken_before_reads :
    Spliced store (store.taken spliceBefore host id) (store.prev host) (some host)
      (store.parent host) id ((store.visit (some id)).1.getLast?.getD id)
      (store.visit (some id)).1 := by
  simp only [taken]
  exact spliceBefore_reads linked (linked.loose inside noPrev noParent) hostInside apart

theorem taken_after_linked : (store.taken spliceAfter host id).Linked := by
  have loose := linked.loose inside noPrev noParent
  refine spliced_linked linked loose (linked.gap_after host) ?_ ?_
    (taken_after_reads linked hostInside inside noPrev noParent apart)
  · rintro _ ⟨⟩
    exact apart
  · intro after next member
    exact apart (loose.backward after member host ((linked.next_prev host after).mp next))

theorem taken_before_linked : (store.taken spliceBefore host id).Linked := by
  have loose := linked.loose inside noPrev noParent
  refine spliced_linked linked loose (linked.gap_before host) ?_ ?_
    (taken_before_reads linked hostInside inside noPrev noParent apart)
  · intro before prev member
    exact apart (loose.forward before member host ((linked.next_prev before host).mpr prev))
  · rintro _ ⟨⟩
    exact apart

end Link

end Stencil.Store
