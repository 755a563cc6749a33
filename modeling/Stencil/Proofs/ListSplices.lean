import Stencil.Proofs.RearrangedChains

/-!
Linking as an operation on lists. Putting a chain behind or before an element of
another chain puts the list of its members there, taking an element out takes it off
the list, and in both cases nothing else is written but the owner of the members and
the head of the body that they make. So an element that was put somewhere and is
taken out again leaves no trace.
-/

namespace Stencil.Store

open Relation

theorem node?_spliceAfter (store : Store) (position first last other : ElementId) :
    (spliceAfter position store first last).node? other = store.node? other := by
  simp only [spliceAfter]
  split <;> simp

theorem node?_spliceBefore (store : Store) (position first last other : ElementId) :
    (spliceBefore position store first last).node? other = store.node? other := by
  simp only [spliceBefore]
  split
  · simp
  · split <;> simp
  · simp

theorem Gap.headed {store : Store} (linked : store.Linked) {right owner : Option ElementId}
    (gap : store.Gap none right owner) {host : ElementId} (owned : owner = some host) :
    store.child host = right := by
  cases isRight : right with
  | none => exact absurd isRight (gap.placed.resolve_left (not_not_intro rfl))
  | some following =>
      apply (linked.first host following).mpr
      rw [gap.right_owner following isRight, gap.prev following isRight]
      exact ⟨owned, rfl⟩

section Splice

variable {store spliced : Store} {owner : Option ElementId} {first last : ElementId}
variable {front back members : List ElementId}

theorem Spliced.begins
    (reads : Spliced store spliced front.getLast? back.head? owner first last members)
    (nodup : (front ++ back).Nodup) (isFirst : members.head? = some first)
    (apart : ∀ id ∈ members, id ∉ front ++ back)
    (noPrev : ∀ head, (front ++ back).head? = some head → store.prev head = none) (head : ElementId)
    (isHead : (front ++ (members ++ back)).head? = some head) : spliced.prev head = none := by
  have firstTaken : first ∈ members := List.mem_of_mem_head? isFirst
  rw [reads.prev]
  cases front with
  | nil =>
      obtain rfl : first = head := by simpa [List.head?_append, isFirst] using isHead
      have notRight : back.head? ≠ some first := fun isRight =>
        apart first firstTaken (List.mem_of_mem_head? isRight)
      rw [if_neg notRight, if_pos rfl]
      rfl
  | cons start rest =>
      obtain rfl : start = head := by simpa using isHead
      have notRight : back.head? ≠ some start := fun isRight =>
        (List.nodup_append'.mp nodup).2.2 List.mem_cons_self (List.mem_of_mem_head? isRight)
      have notFirst : start ≠ first := by
        rintro rfl
        exact apart start firstTaken List.mem_cons_self
      rw [if_neg notRight, if_neg notFirst]
      exact noPrev start rfl

theorem Spliced.whole (linked : store.Linked) (after : spliced.Linked)
    (reads : Spliced store spliced front.getLast? back.head? owner first last members)
    (whole : store.Whole (front ++ back)) (taken : store.Whole members)
    (isFirst : members.head? = some first) (isLast : members.getLast? = some last)
    (apart : ∀ id ∈ members, id ∉ front ++ back) :
    spliced.Whole (front ++ (members ++ back)) := by
  obtain ⟨segment, noPrev⟩ := linked.whole_iff.mp whole
  obtain ⟨between, before, behind⟩ := segment_append.mp segment
  obtain rfl : between = back.head? := by rw [behind.start_eq, Option.or_none]
  obtain ⟨frontNodup, _, parted⟩ := List.nodup_append'.mp (linked.whole_nodup whole)
  have lastTaken : last ∈ members := List.mem_of_getLast? isLast
  -- All links stay but two, the one into the gap and that of the last member taken.
  have kept : ∀ id, front.getLast? ≠ some id → id ≠ last → spliced.next id = store.next id := by
    intro id notLeft notLast
    rw [reads.next, if_neg notLeft, if_neg notLast]
  have notLast : ∀ id ∈ front ++ back, id ≠ last := by
    rintro id member rfl
    exact apart id lastTaken member
  have newFront : spliced.Segment (front.head?.or (some first)) front (some first) := by
    apply before.turned frontNodup
    · exact fun id member notLeft => kept id notLeft (notLast id (List.mem_append_left back member))
    · intro left isLeft
      rw [reads.next, if_pos isLeft]
  have newMembers : spliced.Segment (members.head?.or back.head?) members back.head? := by
    have leftApart : ∀ id ∈ members, front.getLast? ≠ some id := fun id member isLeft =>
      apart id member (List.mem_append_left back (List.mem_of_getLast? isLeft))
    apply (linked.whole_iff.mp taken).1.turned (linked.whole_nodup taken)
    · intro id member different
      apply kept id (leftApart id member)
      rintro rfl
      exact different isLast
    · intro last isAlso
      obtain rfl := Option.some.inj (isLast.symm.trans isAlso)
      rw [reads.next, if_neg (leftApart _ lastTaken), if_pos rfl]
  rw [isFirst, Option.some_or] at newMembers
  have newBack : spliced.Segment back.head? back none := by
    apply behind.congr
    intro id member
    apply kept id _ (notLast id (List.mem_append_right front member))
    exact fun isLeft => parted (List.mem_of_getLast? isLeft) member
  apply after.whole_iff.mpr
  constructor
  · rw [List.head?_append, List.head?_append, isFirst, Option.some_or]
    exact segment_append.mpr ⟨_, newFront, segment_append.mpr ⟨_, newMembers, newBack⟩⟩
  · exact reads.begins (linked.whole_nodup whole) isFirst apart noPrev

/-- A chain was put into a gap, and nothing else happened. -/
theorem Spliced.rearranged (linked : store.Linked) (after : spliced.Linked)
    (acyclic : spliced.Acyclic) (consistent : store.Consistent → spliced.Consistent)
    (reads : Spliced store spliced front.getLast? back.head? owner first last members)
    (nodes : ∀ id, spliced.node? id = store.node? id)
    (whole : store.Whole (front ++ back)) (taken : store.Whole members)
    (isFirst : members.head? = some first) (isLast : members.getLast? = some last)
    (apart : ∀ id ∈ members, id ∉ front ++ back) (filled : front ++ back ≠ [])
    (owned : ∀ id ∈ front ++ back, store.parent id = owner) :
    Rearranged store spliced owner (front ++ (members ++ back)) fun _ => False where
  linked := after
  acyclic := acyclic
  consistent := consistent
  whole := reads.whole linked after whole taken isFirst isLast apart
  owned := by
    intro id member
    rw [reads.parent]
    by_cases inside : id ∈ members
    · rw [if_pos inside]
    · rw [if_neg inside]
      apply owned
      simpa [inside] using member
  headed := by
    rintro host rfl
    rw [reads.child, linked.whole_headed whole filled owned]
    cases front with
    | nil => simp [List.head?_append, isFirst]
    | cons start rest => simp
  nodes := fun id _ => nodes id
  bodies := by
    intro id _ notOwner
    rw [reads.child, if_neg fun heads => notOwner heads.2]
  others := by
    intro id _ missed
    simp only [List.mem_append, not_or] at missed
    obtain ⟨notFront, notTaken, notBack⟩ := missed
    have notLeft : front.getLast? ≠ some id := fun isLeft => notFront (List.mem_of_getLast? isLeft)
    have notRight : back.head? ≠ some id := fun isRight => notBack (List.mem_of_mem_head? isRight)
    have notFirst : id ≠ first := fun same => notTaken (same ▸ List.mem_of_mem_head? isFirst)
    have notLast : id ≠ last := fun same => notTaken (same ▸ List.mem_of_getLast? isLast)
    rw [reads.next, reads.prev, reads.parent, if_neg notLeft, if_neg notLast, if_neg notRight,
      if_neg notFirst, if_neg notTaken]
    exact ⟨rfl, rfl, rfl⟩

theorem Spliced.undone {left right : Option ElementId} {id : ElementId} (linked : store.Linked)
    (after : spliced.Linked) (gap : store.Gap left right owner)
    (reads : Spliced store spliced left right owner id id [id])
    (nodes : ∀ other, spliced.node? other = store.node? other) (taken : store.Whole [id])
    (unowned : store.parent id = none) (notLeft : left ≠ some id) (notRight : right ≠ some id) :
    spliced.detach id = store := by
  have undone := detach_reads after id
  have single : store.Whole ([] ++ id :: []) := taken
  have alone := linked.whole_beside single
  have before : spliced.prev id = left := by rw [reads.prev, if_neg notRight, if_pos rfl]
  have behind : spliced.next id = right := by rw [reads.next, if_neg notLeft, if_pos rfl]
  apply eq_of_get?
  intro other
  apply get?_of_reads
  · rw [node?_detach, nodes]
  have notHeld : store.child other ≠ some id := by
    intro held
    rw [((linked.first other id).mp held).1] at unowned
    cases unowned
  have headed : left = none → owner = some other → store.child other = right := by
    rintro rfl owned
    exact gap.headed linked owned
  have fromLeft := gap.next other
  have toRight := gap.prev other
  rw [undone.next, undone.prev, undone.child, undone.parent, before, behind, reads.next,
    reads.prev, reads.child, reads.parent]
  constructor
  · grind
  constructor
  · grind
  constructor
  · grind
  · grind

end Splice

/-- The chain from `element` on may be put beside the position: it is unlinked, and the
position is none of its members and below none of them. -/
structure Offered (store : Store) (position element : ElementId) (others : List ElementId) :
    Prop where
  whole : store.Whole (element :: others)
  unowned : store.parent element = none
  apart : position ∉ element :: others
  above : ∀ member ∈ element :: others, ¬ Above store member position

section Link

variable {store : Store} (linked : store.Linked) (acyclic : store.Acyclic)
variable {position element : ElementId} {left right others : List ElementId}
variable (there : position < store.size) (here : element < store.size)
variable (chain : store.Whole (left ++ position :: right))
variable (offered : store.Offered position element others)

section Offer

include linked offered

theorem Offered.visited : (store.visit (some element)).1 = element :: others :=
  linked.whole_visited offered.whole

theorem Offered.not_visited : position ∉ (store.visit (some element)).1 := by
  rw [offered.visited linked]
  exact offered.apart

include chain

theorem Offered.disjoint : ∀ id ∈ element :: others, id ∉ left ++ position :: right := by
  intro id member inChain
  have same := linked.whole_unique offered.whole chain member inChain
  apply offered.apart
  rw [same]
  simp

end Offer

include linked there here offered

theorem taken_after_spliced : Spliced store (store.taken spliceAfter position element)
    (some position) (store.next position) (store.parent position) element
    ((element :: others).getLast?.getD element) (element :: others) := by
  have reads := taken_after_reads linked there here (offered.whole.2 element rfl) offered.unowned
    (offered.not_visited linked)
  rwa [offered.visited linked] at reads

theorem taken_before_spliced : Spliced store (store.taken spliceBefore position element)
    (store.prev position) (some position) (store.parent position) element
    ((element :: others).getLast?.getD element) (element :: others) := by
  have reads := taken_before_reads linked there here (offered.whole.2 element rfl) offered.unowned
    (offered.not_visited linked)
  rwa [offered.visited linked] at reads

include acyclic chain

omit there in
theorem taken_rearranged {splice : ElementId → Store → ElementId → ElementId → Store}
    {front back : List ElementId} (parted : front ++ back = left ++ position :: right)
    (after : (store.taken splice position element).Linked)
    (labels : ∀ (store : Store) first last other,
      (splice position store first last).label other = store.label other)
    (nodes : ∀ (store : Store) first last other,
      (splice position store first last).node? other = store.node? other)
    (reads : Spliced store (store.taken splice position element) front.getLast? back.head?
      (store.parent position) element ((element :: others).getLast?.getD element)
      (element :: others))
    (heads : front.getLast? = none → store.prev position = none) :
    Rearranged store (store.taken splice position element) (store.parent position)
      (front ++ (element :: others ++ back)) fun _ => False := by
  have loose := linked.whole_loose offered.whole here offered.unowned
  have inChain : position ∈ left ++ position :: right := by simp
  apply reads.rearranged linked after
  · apply (reads.acyclic_iff acyclic loose).mpr
    rintro ⟨member, isMember, isAbove⟩
    exact offered.above member isMember isAbove
  · intro consistent
    exact (taken_sound consistent.sound after labels reads heads).consistent
  · intro id
    simp only [taken, nodes, node?_setParents]
  · exact parted ▸ chain
  · exact offered.whole
  · rfl
  · simp [List.getLast?_cons]
  · exact parted ▸ offered.disjoint linked chain
  · simp [parted]
  · rw [parted]
    exact fun id member => linked.whole_owned chain member inChain

theorem append_rearranged :
    (∀ checks, store.append checks (some position) (some element) =
      .ok { store := store.taken spliceAfter position element }) ∧
    Rearranged store (store.taken spliceAfter position element) (store.parent position)
      (left ++ position :: (element :: others ++ right)) fun _ => False := by
  have noPrev := offered.whole.2 element rfl
  have apart := offered.not_visited linked
  constructor
  · intro checks
    exact linkWith_takes linked.straight checks noPrev offered.unowned apart
  · have reads := taken_after_spliced linked there here offered
    rw [(linked.whole_beside chain).2, ← List.getLast?_concat (l := left)] at reads
    have after := taken_after_linked linked there here noPrev offered.unowned apart
    have rearranged : Rearranged store (store.taken spliceAfter position element)
        (store.parent position) (left ++ [position] ++ (element :: others ++ right))
        fun _ => False := by
      have parted : left ++ [position] ++ right = left ++ position :: right := by simp
      apply taken_rearranged linked acyclic here chain offered parted after
        (label_spliceAfter · position) (node?_spliceAfter · position) reads
      simp
    simpa using rearranged

theorem insert_rearranged :
    (∀ checks, store.insert checks (some position) (some element) =
      .ok { store := store.taken spliceBefore position element }) ∧
    Rearranged store (store.taken spliceBefore position element) (store.parent position)
      (left ++ (element :: others ++ position :: right)) fun _ => False := by
  have noPrev := offered.whole.2 element rfl
  have apart := offered.not_visited linked
  constructor
  · intro checks
    exact linkWith_takes linked.straight checks noPrev offered.unowned apart
  · have reads := taken_before_spliced linked there here offered
    have isPrev := (linked.whole_beside chain).1
    rw [isPrev] at reads
    have after := taken_before_linked linked there here noPrev offered.unowned apart
    apply taken_rearranged linked acyclic here chain offered rfl after
      (label_spliceBefore · position) (node?_spliceBefore · position) reads
    exact isPrev.trans

end Link

section Restored

variable {store : Store} (linked : store.Linked) {position element : ElementId}
variable (there : position < store.size) (here : element < store.size)
variable (offered : store.Offered position element [])
include linked there here offered

/-- A single element that was put beside another one is taken out again without a trace. -/
theorem taken_restored :
    (store.taken spliceAfter position element).detach element = store ∧
      (store.taken spliceBefore position element).detach element = store := by
  have noPrev := offered.whole.2 element rfl
  have apart := offered.not_visited linked
  have different : position ≠ element := by simpa using offered.apart
  have alone := linked.whole_beside (show store.Whole ([] ++ element :: []) from offered.whole)
  constructor
  · apply (taken_after_spliced linked there here offered).undone linked
    · exact taken_after_linked linked there here noPrev offered.unowned apart
    · exact linked.gap_after position
    · intro other
      simp only [taken, node?_spliceAfter, node?_setParents]
    · exact offered.whole
    · exact offered.unowned
    · simpa using different
    · intro next
      rw [(linked.next_prev position element).mp next] at noPrev
      cases noPrev
  · apply (taken_before_spliced linked there here offered).undone linked
    · exact taken_before_linked linked there here noPrev offered.unowned apart
    · exact linked.gap_before position
    · intro other
      simp only [taken, node?_spliceBefore, node?_setParents]
    · exact offered.whole
    · exact offered.unowned
    · intro prev
      have next := (linked.next_prev element position).mpr prev
      rw [alone.2] at next
      cases next
    · simpa using different

end Restored

theorem empty_acyclic : ({} : Store).Acyclic := by
  intro id isAbove
  obtain ⟨owner, owned, _⟩ := above_owner.mp isAbove
  exact absurd (inside_of_parent owned) (Nat.not_lt_zero id)

/-- A chain that is put beside an element, and an element that is taken out, are spliced
into and out of the list of a chain, and nothing else changes. A single element that
is put somewhere and taken out again leaves no trace. -/
theorem linking_splices {store : Store} (linked : store.Linked) (acyclic : store.Acyclic) :
    (∀ position left right element others, position < store.size → element < store.size →
      store.Whole (left ++ position :: right) → store.Offered position element others →
      ∃ appended inserted,
        (∀ checks, store.append checks (some position) (some element) =
          .ok { store := appended }) ∧
        Rearranged store appended (store.parent position)
          (left ++ position :: (element :: others ++ right)) (fun _ => False) ∧
        (∀ checks, store.insert checks (some position) (some element) =
          .ok { store := inserted }) ∧
        Rearranged store inserted (store.parent position)
          (left ++ (element :: others ++ position :: right)) (fun _ => False) ∧
        (others = [] → appended.remove (some element) = { store } ∧
          inserted.remove (some element) = { store })) ∧
    ∀ id left right, store.Whole (left ++ id :: right) →
      ∃ removed, store.remove (some id) = { store := removed } ∧
        Rearranged store removed (store.parent id) (left ++ right) (· = id) ∧
        (removed.get? id = (store.get? id).map fun cell =>
          { cell with next := none, prev := none, parent := none }) ∧
        ∀ below, Above store id below → removed.get? below = store.get? below := by
  constructor
  · intro position left right element others there here chain offered
    obtain ⟨appends, appended⟩ := append_rearranged linked acyclic there here chain offered
    obtain ⟨inserts, inserted⟩ := insert_rearranged linked acyclic there here chain offered
    refine ⟨_, _, appends, appended, inserts, inserted, ?_⟩
    rintro rfl
    obtain ⟨afterAppend, afterInsert⟩ := taken_restored linked there here offered
    exact ⟨by rw [remove, afterAppend], by rw [remove, afterInsert]⟩
  · intro id left right chain
    obtain ⟨own, below⟩ := detach_subtree linked acyclic chain
    exact ⟨_, rfl, detach_rearranged linked acyclic chain, own, below⟩

def woven : Store := ⟨#[{ kind := .command, text := some "a", child := some 1 },
  { kind := .text, text := some "b", next := some 2, parent := some 0 },
  { kind := .text, text := some "c", prev := some 1, parent := some 0 },
  { kind := .command, text := some "d", next := some 5, child := some 4 },
  { kind := .text, text := some "e", parent := some 3 },
  { kind := .text, text := some "f", prev := some 3 },
  { kind := .text, text := some "g" }]⟩

theorem woven_straight : woven.Linked ∧ woven.Acyclic := by
  let text (said : String) (rest : Forest) : Forest := .cons ⟨.text, some said, {}⟩ .nil rest
  let owner : Forest := .cons ⟨.command, some "a", {}⟩ (text "b" (text "c" .nil)) .nil
  let chain : Forest := .cons ⟨.command, some "d", {}⟩ (text "e" .nil) (text "f" .nil)
  let first := ({} : Store).plant none none owner
  let second := first.1.plant none none chain
  have same : woven = (second.1.plant none none (text "g" .nil)).1 := by decide +kernel
  have firstLinked := grown_linked (plant_grown {} owner) empty_sound.linked
  have secondLinked := grown_linked (plant_grown first.1 chain) firstLinked
  have firstAcyclic := (plant_grown {} owner).acyclic empty_sound.linked empty_acyclic
  have secondAcyclic := (plant_grown first.1 chain).acyclic firstLinked firstAcyclic
  rw [same]
  exact ⟨grown_linked (plant_grown second.1 _) secondLinked,
    (plant_grown second.1 _).acyclic secondLinked secondAcyclic⟩

/-- The chain of two is put beside the first text of the body, which is taken out as
well; the single text comes and goes. -/
theorem linking_splices_woven :
    woven.Linked ∧ woven.Acyclic ∧ woven.Whole [1, 2] ∧ woven.Offered 1 3 [5] ∧
      woven.Offered 1 6 [] ∧
      (∃ appended inserted, woven.append true (some 1) (some 3) = .ok { store := appended } ∧
        Rearranged woven appended (some 0) [1, 3, 5, 2] (fun _ => False) ∧
        woven.insert true (some 1) (some 3) = .ok { store := inserted } ∧
        Rearranged woven inserted (some 0) [3, 5, 1, 2] (fun _ => False)) ∧
      (∃ appended, woven.append true (some 1) (some 6) = .ok { store := appended } ∧
        appended.remove (some 6) = { store := woven }) ∧
      ∃ removed, woven.remove (some 1) = { store := removed } ∧
        Rearranged woven removed (some 0) [2] (· = 1) := by
  obtain ⟨linked, acyclic⟩ := woven_straight
  have whole : ∀ members, woven.chain members.head? = .ok members →
      members.head?.all (fun first => (woven.prev first).isNone) → woven.Whole members := by
    intro members walked isFirst
    exact ⟨walked, fun first same => by simpa [same] using isFirst⟩
  have above : ∀ member, Above woven member 1 → member = 0 := by
    intro member isAbove
    obtain ⟨owner, owned, climb⟩ := above_owner.mp isAbove
    cases owned
    rcases ReflTransGen.cases_head climb with same | ⟨_, owned, _⟩
    · exact same.symm
    · cases owned
  have body : woven.Whole [1, 2] := whole _ rfl rfl
  have pair : woven.Offered 1 3 [5] := by
    constructor
    · exact whole _ rfl rfl
    · rfl
    · decide
    · intro member isMember isAbove
      rw [above member isAbove] at isMember
      exact absurd isMember (by decide)
  have single : woven.Offered 1 6 [] := by
    constructor
    · exact whole _ rfl rfl
    · rfl
    · decide
    · intro member isMember isAbove
      rw [above member isAbove] at isMember
      exact absurd isMember (by decide)
  obtain ⟨links, removes⟩ := linking_splices linked acyclic
  obtain ⟨appended, inserted, appends, behind, inserts, before, _⟩ :=
    links 1 [] [2] 3 [5] (by decide) (by decide) body pair
  obtain ⟨other, _, appendsOther, _, _, _, undone⟩ :=
    links 1 [] [2] 6 [] (by decide) (by decide) body single
  obtain ⟨removed, ran, rearranged, _⟩ := removes 1 [] [2] body
  exact ⟨linked, acyclic, body, pair, single,
    ⟨appended, inserted, appends true, behind, inserts true, before⟩,
    ⟨other, appendsOther true, (undone rfl).1⟩, removed, ran, rearranged⟩

end Stencil.Store
