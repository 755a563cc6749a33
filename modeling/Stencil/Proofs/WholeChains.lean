import Stencil.Proofs.Ownership

/-!
Chains as lists. A segment is what a walk along `next` meets between two places. A
whole chain is the list of its members, from one with nothing before it to one with
nothing behind it. In a linked store such a chain is told by any of its members, so
two of them are the same or have no member in common, and a list of its members is
cut at one of them into what stands before it and what stands behind it.
-/

namespace Stencil.Store

open Relation

inductive Segment (store : Store) :
    Option ElementId → List ElementId → Option ElementId → Prop where
  | nil (stop : Option ElementId) : Segment store stop [] stop
  | cons (id : ElementId) (members : List ElementId) (stop : Option ElementId) :
      Segment store (store.next id) members stop → Segment store (some id) (id :: members) stop

def Whole (store : Store) (members : List ElementId) : Prop :=
  store.chain members.head? = .ok members ∧
    ∀ first, members.head? = some first → store.prev first = none

section Segments

variable {store changed : Store} {start stop : Option ElementId}
variable {members front back : List ElementId} {id : ElementId}

theorem segment_cons :
    store.Segment start (id :: members) stop ↔
      start = some id ∧ store.Segment (store.next id) members stop := by
  constructor
  · intro segment
    cases segment with
    | cons _ _ _ rest => exact ⟨rfl, rest⟩
  · rintro ⟨rfl, rest⟩
    exact .cons id members stop rest

theorem segment_append :
    store.Segment start (front ++ back) stop ↔
      ∃ between, store.Segment start front between ∧ store.Segment between back stop := by
  induction front generalizing start with
  | nil =>
      constructor
      · intro segment
        exact ⟨start, .nil start, segment⟩
      · rintro ⟨_, empty, segment⟩
        cases empty
        exact segment
  | cons id front ih => simp only [List.cons_append, segment_cons, ih, and_assoc, exists_and_left]

theorem segment_single :
    store.Segment start [id] stop ↔ start = some id ∧ store.next id = stop := by
  rw [segment_cons]
  constructor
  · rintro ⟨isStart, empty⟩
    generalize next : store.next id = after at empty
    cases empty
    exact ⟨isStart, rfl⟩
  · rintro ⟨isStart, rfl⟩
    exact ⟨isStart, .nil _⟩

theorem Segment.start_eq (segment : store.Segment start members stop) :
    start = members.head?.or stop := by
  cases segment <;> simp

/-- Only the links of its members make a segment. -/
theorem Segment.congr (segment : store.Segment start members stop)
    (same : ∀ id ∈ members, changed.next id = store.next id) :
    changed.Segment start members stop := by
  induction segment with
  | nil => exact .nil _
  | cons id members stop _ ih =>
      apply Segment.cons
      rw [same id List.mem_cons_self]
      exact ih fun other member => same other (List.mem_cons_of_mem id member)

theorem Segment.visitFor (segment : store.Segment start members none) (count : Nat)
    (ended : (store.visitFor count start).2 = none) :
    store.visitFor count start = (members, none) := by
  induction count generalizing start members with
  | zero =>
      cases segment with
      | nil => rfl
      | cons => cases ended
  | succ count ih =>
      cases segment with
      | nil => rfl
      | cons id members _ rest =>
          have tail := ih rest ended
          simp only [Store.visitFor, tail]

theorem segment_of_visitFor (count : Nat)
    (walked : store.visitFor count start = (members, none)) :
    store.Segment start members none := by
  induction count generalizing start members with
  | zero =>
      cases start with
      | none =>
          cases walked
          exact .nil none
      | some id => cases walked
  | succ count ih =>
      cases start with
      | none =>
          cases walked
          exact .nil none
      | some id =>
          obtain ⟨isList, ended⟩ := Prod.mk.inj walked
          subst isList
          exact .cons id _ none (ih (Prod.ext rfl ended))

theorem visitFor_length (store : Store) (count : Nat) (start : Option ElementId) :
    (store.visitFor count start).1.length ≤ count := by
  induction count generalizing start with
  | zero => cases start <;> exact Nat.le_refl 0
  | succ count ih =>
      cases start with
      | none => exact Nat.zero_le _
      | some id => exact Nat.succ_le_succ (ih (store.next id))

end Segments

section Chains

variable {store : Store} (linked : store.Linked)
variable {members other left right : List ElementId} {first id after : ElementId}
include linked

theorem Linked.chain_iff {start : Option ElementId} :
    store.chain start = .ok members ↔ store.Segment start members none := by
  have ended := visit_ends linked.straight start
  rw [chain_eq linked.straight]
  constructor
  · intro same
    exact segment_of_visitFor _ (Prod.ext (Except.ok.inj same) ended)
  · intro segment
    rw [visit, segment.visitFor _ ended]

theorem Linked.whole_iff :
    store.Whole members ↔ store.Segment members.head? members none ∧
      ∀ first, members.head? = some first → store.prev first = none := by
  rw [Whole, linked.chain_iff]

theorem Linked.whole_visited (whole : store.Whole members) :
    (store.visit members.head?).1 = members :=
  Except.ok.inj ((chain_eq linked.straight _).symm.trans whole.1)

theorem Linked.whole_mem_iff (whole : store.Whole (first :: members)) :
    id ∈ first :: members ↔ store.Onward first id := by
  have visited : (store.visit (some first)).1 = first :: members := linked.whole_visited whole
  rw [← visited]
  exact mem_visit_iff linked.straight first id

theorem Linked.whole_nodup (whole : store.Whole members) : members.Nodup := by
  rw [← linked.whole_visited whole]
  exact visitFor_nodup linked.straight _ _

theorem Linked.whole_length (whole : store.Whole members) : members.length ≤ store.size + 1 := by
  rw [← linked.whole_visited whole]
  exact visitFor_length store _ _

theorem Linked.whole_loose (whole : store.Whole (first :: members)) (inside : first < store.size)
    (noParent : store.parent first = none) :
    store.Loose first ((first :: members).getLast?.getD first) (first :: members) := by
  have visited : (store.visit (some first)).1 = first :: members := linked.whole_visited whole
  have loose := linked.loose inside (whole.2 first rfl) noParent
  rwa [visited] at loose

theorem Linked.whole_owned (whole : store.Whole members) (member : id ∈ members)
    (other : after ∈ members) : store.parent id = store.parent after := by
  cases members with
  | nil => cases member
  | cons first rest =>
      rw [linked.parent_of_onward ((linked.whole_mem_iff whole).mp member),
        linked.parent_of_onward ((linked.whole_mem_iff whole).mp other)]

theorem Linked.first_unique {second : ElementId} (onward : store.Onward first id)
    (again : store.Onward second id) (noPrev : store.prev first = none)
    (alsoNoPrev : store.prev second = none) : first = second := by
  induction onward with
  | refl =>
      rcases ReflTransGen.cases_tail again with same | ⟨before, _, step⟩
      · exact same
      · rw [(linked.next_prev before first).mp step] at noPrev
        cases noPrev
  | @tail sibling after _ step ih =>
      rcases ReflTransGen.cases_tail again with same | ⟨before, rest, otherStep⟩
      · rw [← same, (linked.next_prev sibling after).mp step] at alsoNoPrev
        cases alsoNoPrev
      · rw [linked.next_injective otherStep step] at rest
        exact ih rest

/-- A chain is told by any of its members. -/
theorem Linked.whole_unique (whole : store.Whole members) (again : store.Whole other)
    (member : id ∈ members) (inOther : id ∈ other) : members = other := by
  cases members with
  | nil => cases member
  | cons first rest =>
      cases other with
      | nil => cases inOther
      | cons second others =>
          have onward := (linked.whole_mem_iff whole).mp member
          have alsoOnward := (linked.whole_mem_iff again).mp inOther
          obtain rfl :=
            linked.first_unique onward alsoOnward (whole.2 first rfl) (again.2 second rfl)
          exact Except.ok.inj (whole.1.symm.trans again.1)

theorem Linked.cut_unique {before behind : List ElementId}
    (whole : store.Whole (left ++ id :: right)) (again : store.Whole (before ++ id :: behind)) :
    left = before ∧ right = behind := by
  have same := linked.whole_unique whole again List.mem_append_cons_self List.mem_append_cons_self
  have nodup := linked.whole_nodup whole
  rw [List.nodup_middle, List.nodup_cons, List.mem_append, not_or] at nodup
  obtain ⟨sameLeft, _, sameRight⟩ := (List.append_cons_inj_of_notMem nodup.1.1 nodup.1.2).mp same
  exact ⟨sameLeft, sameRight⟩

theorem Linked.exists_whole (id : ElementId) : ∃ left right, store.Whole (left ++ id :: right) := by
  obtain ⟨first, onward, noPrev⟩ := linked.exists_first id
  have walked := chain_eq linked.straight (some first)
  have member := (mem_visit_iff linked.straight first id).mpr onward
  obtain ⟨left, right, parted⟩ := List.append_of_mem member
  refine ⟨left, right, ?_⟩
  rw [← parted]
  refine ⟨walked, fun head isHead => ?_⟩
  cases isHead
  exact noPrev

theorem Linked.whole_beside (whole : store.Whole (left ++ id :: right)) :
    store.prev id = left.getLast? ∧ store.next id = right.head? := by
  obtain ⟨segment, noPrev⟩ := linked.whole_iff.mp whole
  obtain ⟨between, before, behind⟩ := segment_append.mp segment
  obtain ⟨rfl, rest⟩ := segment_cons.mp behind
  constructor
  · rcases List.eq_nil_or_concat left with rfl | ⟨front, last, rfl⟩
    · exact noPrev id rfl
    · rw [List.concat_eq_append] at before ⊢
      obtain ⟨_, _, single⟩ := segment_append.mp before
      rw [List.getLast?_concat]
      exact (linked.next_prev last id).mp (segment_single.mp single).2
  · rw [rest.start_eq, Option.or_none]

end Chains

end Stencil.Store
