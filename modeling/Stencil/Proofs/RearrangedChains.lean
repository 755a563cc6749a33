import Stencil.Proofs.ParsedTree
import Stencil.Proofs.WholeChains

/-!
Chains that are rearranged. A store in which one chain got other members is told by
the list of these and by what was left alone: only members, their owner and what is
gone from the chain have links that changed. Taking an element out rearranges its
chain so, and the element keeps its body with all that is below it.
-/

namespace Stencil.Store

open Relation

section Nodes

variable (store : Store) (id other : ElementId) (link : Option ElementId)

theorem node?_update (change : Element → Element)
    (kept : ∀ cell, (change cell).toNode = cell.toNode) :
    (store.update id change).node? other = store.node? other := by
  rw [node?, get?_update]
  by_cases same : id = other
  · cases found : store.get? other <;> simp [node?, same, found, kept]
  · simp [node?, same]

@[simp] theorem node?_setNext : (store.setNext id link).node? other = store.node? other :=
  node?_update store id other _ fun _ => rfl

@[simp] theorem node?_setPrev : (store.setPrev id link).node? other = store.node? other :=
  node?_update store id other _ fun _ => rfl

@[simp] theorem node?_setChild : (store.setChild id link).node? other = store.node? other :=
  node?_update store id other _ fun _ => rfl

@[simp] theorem node?_setParents (members : List ElementId) :
    (store.setParents link members).node? other = store.node? other :=
  kept_setParents store link members (·.node? other) fun store id =>
    node?_update store id other _ fun _ => rfl

@[simp] theorem node?_linkBack (target : Option ElementId) :
    (store.linkBack target link).node? other = store.node? other := by
  cases target <;> simp [linkBack]

@[simp] theorem node?_linkOn (target : Option ElementId) :
    (store.linkOn target link).node? other = store.node? other := by
  cases target <;> simp [linkOn]

@[simp] theorem node?_unlink : (store.unlink id).node? other = store.node? other :=
  node?_update store id other _ fun _ => rfl

theorem node?_detach : (store.detach id).node? other = store.node? other := by
  have passed : (store.passHead id).node? other = store.node? other :=
    kept_passHead store id (·.node? other) fun _ _ => node?_setChild ..
  simp [detach_eq, passed]

end Nodes

section Cells

variable {store changed : Store}

theorem get?_eq_reads (store : Store) (id : ElementId) :
    store.get? id = (store.node? id).map fun node =>
      ⟨node, store.next id, store.prev id, store.child id, store.parent id⟩ := by
  unfold node? next prev child parent
  cases store.get? id <;> simp

theorem get?_of_reads {id : ElementId} (node : changed.node? id = store.node? id)
    (links : changed.next id = store.next id ∧ changed.prev id = store.prev id ∧
      changed.child id = store.child id ∧ changed.parent id = store.parent id) :
    changed.get? id = store.get? id := by
  obtain ⟨next, prev, child, parent⟩ := links
  rw [get?_eq_reads changed, get?_eq_reads store, node, next, prev, child, parent]

theorem eq_of_get? (same : ∀ id, changed.get? id = store.get? id) : changed = store := by
  have cells : changed.cells = store.cells := Array.ext_getElem? same
  cases changed
  cases store
  exact congrArg Store.mk cells

end Cells

/-- A chain was rearranged. It has these members and this owner now, and the body of the
owner begins with the first of them. Nothing else was written, but in elements that are
gone from the chain. -/
structure Rearranged (store changed : Store) (owner : Option ElementId)
    (members : List ElementId) (gone : ElementId → Prop) : Prop where
  linked : changed.Linked
  acyclic : changed.Acyclic
  consistent : store.Consistent → changed.Consistent
  whole : changed.Whole members
  owned : ∀ id ∈ members, changed.parent id = owner
  headed : ∀ host, owner = some host → changed.child host = members.head?
  nodes : ∀ id, ¬ gone id → changed.node? id = store.node? id
  bodies : ∀ id, ¬ gone id → owner ≠ some id → changed.child id = store.child id
  others : ∀ id, ¬ gone id → id ∉ members → changed.next id = store.next id ∧
    changed.prev id = store.prev id ∧ changed.parent id = store.parent id

theorem Rearranged.get? {store changed : Store} {owner : Option ElementId}
    {members : List ElementId} {gone : ElementId → Prop}
    (rearranged : Rearranged store changed owner members gone) {id : ElementId}
    (stays : ¬ gone id) (apart : id ∉ members) (notOwner : owner ≠ some id) :
    changed.get? id = store.get? id := by
  obtain ⟨next, prev, parent⟩ := rearranged.others id stays apart
  exact get?_of_reads (rearranged.nodes id stays)
    ⟨next, prev, rearranged.bodies id stays notOwner, parent⟩

section Segments

variable {store changed : Store} {start stop beyond : Option ElementId}
variable {members : List ElementId}

theorem Segment.turned (segment : store.Segment start members stop) (nodup : members.Nodup)
    (same : ∀ id ∈ members, members.getLast? ≠ some id → changed.next id = store.next id)
    (turned : ∀ last, members.getLast? = some last → changed.next last = beyond) :
    changed.Segment (members.head?.or beyond) members beyond := by
  rcases List.eq_nil_or_concat members with rfl | ⟨front, last, rfl⟩
  · exact .nil beyond
  · rw [List.concat_eq_append] at *
    obtain ⟨between, before, single⟩ := segment_append.mp segment
    obtain ⟨rfl, _⟩ := segment_single.mp single
    have notIn : last ∉ front := by
      intro again
      exact (List.nodup_append'.mp nodup).2.2 again (List.mem_singleton_self last)
    have start_ : start = (front ++ [last]).head?.or beyond := by
      rw [segment.start_eq]
      cases front <;> rfl
    rw [← start_]
    apply segment_append.mpr
    refine ⟨some last, before.congr fun id member => ?_, segment_single.mpr ⟨rfl, ?_⟩⟩
    · apply same id (List.mem_append_left _ member)
      rw [List.getLast?_concat]
      rintro ⟨⟩
      exact notIn member
    · exact turned last List.getLast?_concat

end Segments

section Heads

variable {store : Store} (linked : store.Linked) {members : List ElementId} {host : ElementId}
include linked

theorem Linked.whole_headed (whole : store.Whole members) (filled : members ≠ [])
    (owned : ∀ id ∈ members, store.parent id = some host) :
    store.child host = members.head? := by
  cases members with
  | nil => exact absurd rfl filled
  | cons first rest =>
      apply (linked.first host first).mpr
      exact ⟨owned first List.mem_cons_self, whole.2 first rfl⟩

end Heads

section Siblings

variable {store : Store} (acyclic : store.Acyclic)
variable {members : List ElementId} {id other owner : ElementId}
include acyclic

/-- No member of a chain is below another one. -/
theorem Linked.not_below_sibling (linked : store.Linked) (whole : store.Whole members)
    (member : id ∈ members) (sibling : other ∈ members) : ¬ Above store id other := by
  intro isAbove
  obtain ⟨owner, owned, climb⟩ := above_owner.mp isAbove
  rw [linked.whole_owned whole sibling member] at owned
  exact acyclic_iff.mp acyclic ⟨id, TransGen.head' owned climb⟩

theorem not_above_owner (owned : store.parent id = some owner) : ¬ Above store id owner := by
  intro isAbove
  exact acyclic id (above_owner.mpr ⟨owner, owned, (above_iff.mp isAbove).to_reflTransGen⟩)

end Siblings

section Detach

variable {store : Store} (linked : store.Linked) (acyclic : store.Acyclic)
variable {id : ElementId} {left right : List ElementId}
variable (chain : store.Whole (left ++ id :: right))
include linked chain

theorem whole_others {other : ElementId} (member : other ∈ left ++ right) :
    other ∈ left ++ id :: right ∧ other ≠ id := by
  have nodup := linked.whole_nodup chain
  rw [List.nodup_middle, List.nodup_cons] at nodup
  constructor
  · simp only [List.mem_append, List.mem_cons] at member ⊢
    exact member.imp_right Or.inr
  · rintro rfl
    exact nodup.1 member

theorem detach_begins (first : ElementId) (isFirst : (left ++ right).head? = some first) :
    (store.detach id).prev first = none := by
  have beside := linked.whole_beside chain
  have different : first ≠ id := (whole_others linked chain (List.mem_of_mem_head? isFirst)).2
  rw [(detach_reads linked id).prev, if_neg different]
  cases left with
  | nil =>
      have isNext : store.next id = some first := beside.2.trans isFirst
      rw [if_pos isNext, beside.1]
      rfl
  | cons start others =>
      obtain rfl : start = first := by simpa using isFirst
      have parted := (List.nodup_append'.mp (linked.whole_nodup chain)).2.2
      have notNext : store.next id ≠ some start := by
        rw [beside.2]
        intro isHead
        exact parted List.mem_cons_self (List.mem_cons_of_mem id (List.mem_of_mem_head? isHead))
      rw [if_neg notNext]
      exact chain.2 start rfl

theorem detach_whole : (store.detach id).Whole (left ++ right) := by
  have reads := detach_reads linked id
  have beside := linked.whole_beside chain
  obtain ⟨between, before, behind⟩ := segment_append.mp (linked.whole_iff.mp chain).1
  obtain ⟨rfl, rest⟩ := segment_cons.mp behind
  obtain ⟨leftNodup, _, parted⟩ := List.nodup_append'.mp (linked.whole_nodup chain)
  rw [beside.2] at rest
  have notLeft : ∀ other ∈ left, other ≠ id := fun other member =>
    (whole_others linked chain (List.mem_append_left right member)).2
  have notRight : ∀ other ∈ right, other ≠ id := fun other member =>
    (whole_others linked chain (List.mem_append_right left member)).2
  have newLeft : (store.detach id).Segment (left.head?.or right.head?) left right.head? := by
    apply before.turned leftNodup
    · intro other member notLast
      rw [reads.next, if_neg (notLeft other member), beside.1, if_neg notLast]
    · intro last isLast
      rw [reads.next, if_neg (notLeft last (List.mem_of_getLast? isLast)), beside.1,
        if_pos isLast, beside.2]
  have newRight : (store.detach id).Segment right.head? right none := by
    apply rest.congr
    intro other member
    have notPrev : store.prev id ≠ some other := by
      rw [beside.1]
      exact fun isLast => parted (List.mem_of_getLast? isLast) (List.mem_cons_of_mem id member)
    rw [reads.next, if_neg (notRight other member), if_neg notPrev]
  apply (detach_linked linked id).whole_iff.mpr
  constructor
  · rw [List.head?_append]
    exact segment_append.mpr ⟨_, newLeft, newRight⟩
  · exact detach_begins linked chain

include acyclic

theorem detach_rearranged :
    Rearranged store (store.detach id) (store.parent id) (left ++ right) (· = id) where
  linked := detach_linked linked id
  acyclic := acyclic_of_parents acyclic (detach_pruned linked id).parent
  consistent := fun consistent => (detach_sound consistent.sound id).consistent
  whole := detach_whole linked chain
  owned := by
    intro other member
    obtain ⟨inChain, different⟩ := whole_others linked chain member
    rw [(detach_reads linked id).parent, if_neg different]
    exact linked.whole_owned chain inChain List.mem_append_cons_self
  headed := by
    intro host owned
    have heads : store.child host = (left ++ id :: right).head? := by
      apply linked.whole_headed chain (by simp)
      intro other member
      rw [linked.whole_owned chain member List.mem_append_cons_self, owned]
    rw [(detach_reads linked id).child, heads]
    -- The body began with the element itself, or with what stays in front of it.
    cases left with
    | nil => simpa using (linked.whole_beside chain).2
    | cons start others =>
        have different : start ≠ id := by
          rintro rfl
          simpa using linked.whole_nodup chain
        simp [different]
  nodes := fun other _ => node?_detach store id other
  bodies := by
    intro other _ notOwner
    have notHead : store.child other ≠ some id := fun heads =>
      notOwner ((linked.first other id).mp heads).1
    rw [(detach_reads linked id).child, if_neg notHead]
  others := by
    intro other different missed
    simp only [List.mem_append, not_or] at missed
    have beside := linked.whole_beside chain
    have notPrev : store.prev id ≠ some other := by
      rw [beside.1]
      exact fun isLast => missed.1 (List.mem_of_getLast? isLast)
    have notNext : store.next id ≠ some other := by
      rw [beside.2]
      exact fun isHead => missed.2 (List.mem_of_mem_head? isHead)
    have reads := detach_reads linked id
    rw [reads.next, reads.prev, reads.parent, if_neg different, if_neg notPrev, if_neg different,
      if_neg notNext, if_neg different]
    exact ⟨rfl, rfl, rfl⟩

theorem detach_subtree :
    ((store.detach id).get? id = (store.get? id).map fun cell =>
      { cell with next := none, prev := none, parent := none }) ∧
    ∀ below, Above store id below → (store.detach id).get? below = store.get? below := by
  have reads := detach_reads linked id
  constructor
  · have notSelf : store.child id ≠ some id := by
      intro child
      exact acyclic id (.owner id id ((linked.first id id).mp child).1)
    rw [get?_eq_reads (store.detach id), get?_eq_reads store, node?_detach, reads.next, reads.prev,
      reads.child, reads.parent, if_pos rfl, if_pos rfl, if_pos rfl, if_neg notSelf, Option.map_map]
    rfl
  · intro below isAbove
    apply (detach_rearranged linked acyclic chain).get?
    · rintro rfl
      exact acyclic below isAbove
    · intro member
      have inChain := (whole_others linked chain member).1
      exact linked.not_below_sibling acyclic chain List.mem_append_cons_self inChain isAbove
    · exact fun owned => not_above_owner acyclic owned isAbove

end Detach

end Stencil.Store
