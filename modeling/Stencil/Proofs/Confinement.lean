import Stencil.Proofs.Planting

/-!
What a destruction leaves alone. A change of a cell of an enclosed region is confined to
it if no link leads out of the cell afterwards, and what is done by such changes one after
the other is. A destruction follows links and writes to what it finds, so it is confined
to every enclosed region that it begins in. A chain that stands by itself is enclosed. An
enclosed region shares a cell with such a chain only if it holds the head of it, so the
destruction of a chain leaves alone every enclosed region without its head, in particular
every other chain that stands by itself.
-/

namespace Stencil.Store

section Region

variable {store changed : Store} {region other : ElementId → Prop}

-- The links of a region decide whether it is enclosed, and its cells hold them.
theorem Enclosed.kept (enclosed : store.Enclosed region)
    (same : ∀ id, region id → changed.get? id = store.get? id) : changed.Enclosed region := by
  have links := fun id member => links_of_get? (same id member)
  constructor
  · intro id member after next
    exact enclosed.next id member after ((links id member).1.symm.trans next)
  · intro id member before prev
    exact enclosed.prev id member before ((links id member).2.1.symm.trans prev)
  · intro id member below child
    exact enclosed.child id member below ((links id member).2.2.1.symm.trans child)
  · intro id member owner parent
    exact enclosed.parent id member owner ((links id member).2.2.2.symm.trans parent)

theorem enclosed_none (store : Store) : store.Enclosed fun _ => False :=
  ⟨fun _ => False.elim, fun _ => False.elim, fun _ => False.elim, fun _ => False.elim⟩

theorem Enclosed.union (left : store.Enclosed region) (right : store.Enclosed other) :
    store.Enclosed fun id => region id ∨ other id := by
  constructor
  · intro id member after next
    exact member.imp (left.next id · after next) (right.next id · after next)
  · intro id member before prev
    exact member.imp (left.prev id · before prev) (right.prev id · before prev)
  · intro id member below child
    exact member.imp (left.child id · below child) (right.child id · below child)
  · intro id member owner parent
    exact member.imp (left.parent id · owner parent) (right.parent id · owner parent)

theorem Enclosed.reached (enclosed : store.Enclosed region) {id after : ElementId}
    (member : region id) (reached : store.Reached [id] after) : region after := by
  obtain ⟨start, isStart, walk⟩ := reached
  have same := List.mem_singleton.mp isStart
  subst same
  induction walk with
  | refl => exact member
  | tail _ step ih =>
      rcases step with next | child
      · exact enclosed.next _ ih _ next
      · exact enclosed.child _ ih _ child

end Region

/-- Only cells of the region changed, and it is enclosed as before. -/
structure Confined (store changed : Store) (region : ElementId → Prop) : Prop where
  beyond : ∀ id, ¬ region id → changed.get? id = store.get? id
  enclosed : changed.Enclosed region

def Into (region : ElementId → Prop) (link : Option ElementId) : Prop :=
  ∀ id, link = some id → region id

structure Inward (region : ElementId → Prop) (cell : Element) : Prop where
  next : Into region cell.next
  prev : Into region cell.prev
  child : Into region cell.child
  parent : Into region cell.parent

section Changes

variable {store between changed : Store} {region : ElementId → Prop}

theorem into_none : Into region none := nofun

theorem into_some {id : ElementId} (inside : region id) : Into region (some id) := by
  rintro _ ⟨⟩
  exact inside

theorem Confined.refl (enclosed : store.Enclosed region) : Confined store store region :=
  ⟨fun _ _ => rfl, enclosed⟩

theorem Confined.of_eq (same : changed = store) (enclosed : store.Enclosed region) :
    Confined store changed region := by
  rw [same]
  exact .refl enclosed

theorem Confined.trans (first : Confined store between region)
    (second : Confined between changed region) : Confined store changed region :=
  ⟨fun id outside => (second.beyond id outside).trans (first.beyond id outside), second.enclosed⟩

theorem Confined.then (first : Confined store between region)
    (second : between.Enclosed region → Confined between changed region) :
    Confined store changed region :=
  first.trans (second first.enclosed)

theorem Enclosed.inward (enclosed : store.Enclosed region) {id : ElementId} {cell : Element}
    (inside : region id) (found : store.get? id = some cell) : Inward region cell := by
  obtain ⟨next, prev, child, parent⟩ := links_of_cell found
  exact ⟨fun other link => enclosed.next id inside other (next.trans link),
    fun other link => enclosed.prev id inside other (prev.trans link),
    fun other link => enclosed.child id inside other (child.trans link),
    fun other link => enclosed.parent id inside other (parent.trans link)⟩

theorem enclosed_of_inward
    (inward : ∀ id cell, region id → store.get? id = some cell → Inward region cell) :
    store.Enclosed region := by
  constructor
  all_goals
    intro id inside other link
    obtain ⟨cell, found, link⟩ := Option.bind_eq_some_iff.mp link
  · exact (inward id cell inside found).next other link
  · exact (inward id cell inside found).prev other link
  · exact (inward id cell inside found).child other link
  · exact (inward id cell inside found).parent other link

variable (enclosed : store.Enclosed region) {id : ElementId} (inside : region id)
include enclosed inside

theorem Enclosed.update {change : Element → Element}
    (keeps : ∀ cell, Inward region cell → Inward region (change cell)) :
    Confined store (store.update id change) region := by
  refine ⟨fun other outside => get?_update_elsewhere store id other change ?_,
    enclosed_of_inward ?_⟩
  · rintro rfl
    exact outside inside
  · intro other cell here found
    rw [get?_update] at found
    split at found
    · obtain ⟨old, was, rfl⟩ := Option.map_eq_some_iff.mp found
      exact keeps old (enclosed.inward here was)
    · exact enclosed.inward here found

variable {link : Option ElementId} (into : Into region link)

section Links

include into

theorem Enclosed.setNext : Confined store (store.setNext id link) region :=
  enclosed.update inside fun _ inward => ⟨into, inward.prev, inward.child, inward.parent⟩

theorem Enclosed.setPrev : Confined store (store.setPrev id link) region :=
  enclosed.update inside fun _ inward => ⟨inward.next, into, inward.child, inward.parent⟩

theorem Enclosed.setChild : Confined store (store.setChild id link) region :=
  enclosed.update inside fun _ inward => ⟨inward.next, inward.prev, into, inward.parent⟩

theorem Enclosed.setParent : Confined store (store.setParent id link) region :=
  enclosed.update inside fun _ inward => ⟨inward.next, inward.prev, inward.child, into⟩

end Links

theorem Enclosed.release : Confined store (store.release id) region :=
  enclosed.update inside fun _ _ => ⟨into_none, into_none, into_none, into_none⟩

end Changes

section Destruction

variable {store : Store} {region : ElementId → Prop}

theorem Enclosed.linkBack (enclosed : store.Enclosed region) {target link : Option ElementId}
    (here : Into region target) (into : Into region link) :
    Confined store (store.linkBack target link) region := by
  cases target with
  | none => exact .refl enclosed
  | some id => exact enclosed.setPrev (here id rfl) into

theorem Enclosed.linkOn (enclosed : store.Enclosed region) {target link : Option ElementId}
    (here : Into region target) (into : Into region link) :
    Confined store (store.linkOn target link) region := by
  cases target with
  | none => exact .refl enclosed
  | some id => exact enclosed.setNext (here id rfl) into

theorem releaseFor_confined (enclosed : store.Enclosed region) (count : Nat)
    (waiting : List ElementId) (members : ∀ id ∈ waiting, region id) :
    Confined store (store.releaseFor count waiting) region := by
  induction count generalizing store waiting with
  | zero => exact .refl enclosed
  | succ count ih =>
      cases waiting with
      | nil => exact .refl enclosed
      | cons id rest =>
          have inside := members id List.mem_cons_self
          refine (enclosed.release inside).then fun enclosed' => ih enclosed' _ ?_
          intro other member
          rcases List.mem_append.mp member with reached | waits
          · rcases List.mem_append.mp reached with next | child
            · exact enclosed.next id inside other (Option.mem_toList.mp next)
            · exact enclosed.child id inside other (Option.mem_toList.mp child)
          · exact members other (List.mem_cons_of_mem id waits)

variable (enclosed : store.Enclosed region) {id : ElementId} (inside : region id)
include enclosed inside

theorem Enclosed.passHead : Confined store (store.passHead id) region := by
  unfold Store.passHead
  split
  · rename_i owner owned
    split
    · exact enclosed.setChild (enclosed.parent id inside owner owned) (enclosed.next id inside)
    · exact .refl enclosed
  · exact .refl enclosed

/-- Taking an element out writes to its neighbours and to its owner only. -/
theorem detach_confined : Confined store (store.detach id) region := by
  have next := enclosed.next id inside
  have prev := enclosed.prev id inside
  rw [detach_eq]
  refine (enclosed.passHead inside).then fun passed => ?_
  refine (passed.linkBack next prev).then fun back => ?_
  refine (back.linkOn prev next).then fun on => ?_
  exact on.update inside fun _ inward => ⟨into_none, into_none, inward.child, into_none⟩

theorem destroyOne_confined : Confined store (store.destroyOne id) region := by
  refine (detach_confined enclosed inside).then fun taken => ?_
  refine (taken.release inside).then fun released => releaseFor_confined released _ _ ?_
  intro other member
  exact taken.child id inside other (Option.mem_toList.mp member)

omit inside in
theorem destroyAllFor_confined (count : Nat) {start : Option ElementId}
    (into : Into region start) : Confined store (store.destroyAllFor count start) region := by
  induction count generalizing store start with
  | zero => exact .refl enclosed
  | succ count ih =>
      cases start with
      | none => exact .refl enclosed
      | some id =>
          have inside := into id rfl
          exact (destroyOne_confined enclosed inside).then fun left =>
            ih left (enclosed.next id inside)

omit inside in
theorem destroyAll_confined {start : Option ElementId} (into : Into region start) :
    Confined store (store.destroyAll start) region :=
  destroyAllFor_confined enclosed _ into

end Destruction

section Standing

variable {store : Store} {head : ElementId} {forest : Forest} {ids : List ElementId}

theorem Planted.enclosed {start : Option ElementId}
    (planted : store.Planted none none start forest ids) : store.Enclosed (· ∈ ids) := by
  constructor
  · intro id member after next
    exact ((planted.forward id member).1 after next).1
  · intro id member before prev
    exact ((planted.answered member).1 before prev).1
  · intro id member below child
    exact ((planted.forward id member).2 below child).1
  · intro id member owner parent
    rcases planted.owned id member with unowned | ⟨other, inside, owned⟩
    · rw [unowned] at parent
      cases parent
    · rw [parent] at owned
      exact Option.some.inj owned ▸ inside

theorem Planted.head_unique {other : ElementId} {otherForest : Forest} {otherIds : List ElementId}
    (planted : store.Planted none none (some head) forest ids)
    (otherPlanted : store.Planted none none (some other) otherForest otherIds)
    (member : other ∈ ids) : other = head := by
  obtain ⟨_, noPrev, noParent⟩ := otherPlanted.start_links
  rcases planted.backward other member with isStart | ⟨_, _, prev, _⟩ | ⟨_, _, _, parent, _⟩
  · exact (Option.some.inj isStart).symm
  · rw [noPrev] at prev
    cases prev
  · rw [noParent] at parent
    cases parent

theorem Planted.head_of_meets {region : ElementId → Prop}
    (planted : store.Planted none none (some head) forest ids) (enclosed : store.Enclosed region)
    {id : ElementId} (member : id ∈ ids) (meets : region id) : region head := by
  obtain ⟨start, isStart, inside⟩ := planted.start_of_meets
    (fun id here other prev _ => enclosed.prev id here other prev)
    (fun id here _ other parent _ => enclosed.parent id here other parent) member meets
  exact Option.some.inj isStart ▸ inside

/-- The destruction of a chain leaves alone what is enclosed without its head. -/
theorem destroyAll_elsewhere (planted : store.Planted none none (some head) forest ids)
    {region : ElementId → Prop} (enclosed : store.Enclosed region) (apart : ¬ region head)
    (id : ElementId) (member : region id) :
    (store.destroyAll (some head)).get? id = store.get? id := by
  have confined : Confined store (store.destroyAll (some head)) (· ∈ ids) :=
    destroyAll_confined planted.enclosed (into_some planted.start_links.1)
  apply confined.beyond
  exact fun inside => apart (planted.head_of_meets enclosed inside member)

theorem Planted.outlives {start : Option ElementId} {other : Forest} {otherIds : List ElementId}
    (stands : store.Planted none none start other otherIds)
    (gone : store.Planted none none (some head) forest ids) (different : start ≠ some head) :
    (store.destroyAll (some head)).Planted none none start other otherIds := by
  apply stands.kept
  apply destroyAll_elsewhere gone stands.enclosed
  intro inside
  cases start with
  | none =>
      cases stands
      cases inside
  | some first => exact different (congrArg some (stands.head_unique gone inside).symm)

end Standing

end Stencil.Store
