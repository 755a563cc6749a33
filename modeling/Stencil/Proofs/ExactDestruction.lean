import Stencil.Proofs.ListSplices
import Stencil.Proofs.ScanLoops

/-!
What a destruction releases. An element that is destroyed is released with all that is
below it, and no element besides; its chain goes on without it. Destroying an element
with all that follows it releases each of these so, and what stood before it is the whole
chain that is left. Both come to an end: a release uses up an entry of the waiting list
or a link with every step, and the chain that is left to destroy gets shorter.
-/

namespace Stencil.Store

open Relation

def Covers (store : Store) (members : List ElementId) (id : ElementId) : Prop :=
  ∃ member ∈ members, id = member ∨ Above store member id

/-- A chain lost members, and these were released with all that is below them: they keep
their kind and their text, and nothing else. -/
structure Destroys (store destroyed : Store) (owner : Option ElementId)
    (members : List ElementId) (gone : ElementId → Prop) : Prop
    extends Rearranged store destroyed owner members gone where
  released : ∀ id, gone id → destroyed.get? id =
    (store.get? id).map fun cell => { kind := cell.kind, text := cell.text }

section Cover

variable {store changed : Store} {members : List ElementId} {id other owner : ElementId}

theorem covers_iff :
    store.Covers members id ↔ ∃ member ∈ members, ReflTransGen store.Under id member := by
  constructor
  · rintro ⟨member, isMember, same | isAbove⟩
    · exact ⟨member, isMember, same ▸ .refl⟩
    · exact ⟨member, isMember, (above_iff.mp isAbove).to_reflTransGen⟩
  · rintro ⟨member, isMember, climb⟩
    rcases reflTransGen_iff_eq_or_transGen.mp climb with same | climb
    · exact ⟨member, isMember, Or.inl same.symm⟩
    · exact ⟨member, isMember, Or.inr (above_iff.mpr climb)⟩

theorem covers_single : store.Covers [id] other ↔ ReflTransGen store.Under other id := by
  simp [covers_iff]

theorem released_of_label (same : changed.label id = store.label id) :
    ((changed.get? id).map fun cell => ({ kind := cell.kind, text := cell.text } : Element)) =
      (store.get? id).map fun cell => { kind := cell.kind, text := cell.text } := by
  have read : ∀ store : Store,
      ((store.get? id).map fun cell => ({ kind := cell.kind, text := cell.text } : Element)) =
        (store.label id).map fun said => { kind := said.1, text := said.2 } := by
    intro store
    simp [label, Function.comp_def]
  rw [read, read, same]

theorem get?_release (store : Store) (id : ElementId) :
    (store.release id).get? id =
      (store.get? id).map fun cell => { kind := cell.kind, text := cell.text } := by
  rw [release, get?_update, if_pos rfl]

end Cover

section Rearranging

variable {store between changed : Store} {owner : Option ElementId}
variable {members : List ElementId} {gone region : ElementId → Prop}

theorem Rearranged.narrowed (first : Rearranged store between owner members gone)
    (linked : changed.Linked) (acyclic : changed.Acyclic)
    (consistent : store.Consistent → changed.Consistent)
    (same : ∀ id, ¬ region id → changed.get? id = between.get? id)
    (wider : ∀ id, gone id → region id) (apart : ∀ id ∈ members, ¬ region id)
    (ownerApart : ∀ host, owner = some host → ¬ region host) :
    Rearranged store changed owner members region := by
  have links : ∀ id, ¬ region id → _ := fun id stays => links_of_get? (same id stays)
  constructor
  · exact linked
  · exact acyclic
  · exact consistent
  · obtain ⟨segment, noPrev⟩ := first.linked.whole_iff.mp first.whole
    apply linked.whole_iff.mpr
    constructor
    · exact segment.congr fun id member => (links id (apart id member)).1
    · intro head isHead
      rw [(links head (apart head (List.mem_of_mem_head? isHead))).2.1]
      exact noPrev head isHead
  · intro id member
    rw [(links id (apart id member)).2.2.2]
    exact first.owned id member
  · intro host owned
    rw [(links host (ownerApart host owned)).2.2.1]
    exact first.headed host owned
  · intro id stays
    rw [node?, same id stays]
    exact first.nodes id fun left => stays (wider id left)
  · intro id stays notOwner
    rw [(links id stays).2.2.1]
    exact first.bodies id (fun left => stays (wider id left)) notOwner
  · intro id stays missed
    rw [(links id stays).1, (links id stays).2.1, (links id stays).2.2.2]
    exact first.others id (fun left => stays (wider id left)) missed

theorem Rearranged.trans {wide : List ElementId} {lost : ElementId → Prop}
    (first : Rearranged store between owner wide gone)
    (second : Rearranged between changed owner members lost)
    (left : ∀ id, gone id → region id) (leftAgain : ∀ id, lost id → region id)
    (dropped : ∀ id ∈ wide, id ∉ members → region id) :
    Rearranged store changed owner members region := by
  have stays : ∀ id, ¬ region id → ¬ gone id ∧ ¬ lost id := fun id kept =>
    ⟨fun isGone => kept (left id isGone), fun isLost => kept (leftAgain id isLost)⟩
  constructor
  · exact second.linked
  · exact second.acyclic
  · exact fun consistent => second.consistent (first.consistent consistent)
  · exact second.whole
  · exact second.owned
  · exact second.headed
  · intro id kept
    exact (second.nodes id (stays id kept).2).trans (first.nodes id (stays id kept).1)
  · intro id kept notOwner
    rw [second.bodies id (stays id kept).2 notOwner, first.bodies id (stays id kept).1 notOwner]
  · intro id kept missed
    have missedBefore : id ∉ wide := fun member => kept (dropped id member missed)
    obtain ⟨next, prev, parent⟩ := second.others id (stays id kept).2 missed
    rw [next, prev, parent]
    exact first.others id (stays id kept).1 missedBefore

end Rearranging

section One

variable {store : Store} (linked : store.Linked) {id other : ElementId}

section Reach

include linked

/-- Once it was taken out, an element reaches what is below it, and nothing else. -/
theorem detached_reached_iff :
    (store.detach id).Reached [id] other ↔ store.Covers [id] other := by
  rw [covers_single]
  constructor
  · exact detached_climb linked
  · intro climb
    have detached := detach_linked linked id
    have climbs : ReflTransGen (store.detach id).Under other id := by
      induction climb using ReflTransGen.head_induction_on with
      | refl => exact .refl
      | @head below above owned _ ih =>
          by_cases same : below = id
          · exact same ▸ .refl
          · have still : (store.detach id).Under below above := by
              rw [Under, (detach_reads linked id).parent, if_neg same]
              exact owned
            exact .head still ih
    refine ⟨id, List.mem_singleton_self id, ?_⟩
    rcases reflTransGen_iff_eq_or_transGen.mp climbs with same | climbs
    · exact same ▸ .refl
    · exact (detached.leads_of_climb climbs).to_reflTransGen

/-- What is below one of several elements stays below one of them when the first of them
is destroyed, unless it is destroyed with it. -/
theorem covers_cons {rest : List ElementId} (covered : store.Covers (id :: rest) other) :
    store.Covers [id] other ∨ (store.destroyOne id).Covers rest other := by
  rw [covers_single]
  obtain ⟨member, isMember, climb⟩ := covers_iff.mp covered
  rcases List.mem_cons.mp isMember with rfl | inRest
  · exact Or.inl climb
  · induction climb using ReflTransGen.head_induction_on with
    | refl => exact Or.inr (covers_iff.mpr ⟨member, inRest, .refl⟩)
    | @head below above owned upward ih =>
        by_cases falls : ReflTransGen store.Under below id
        · exact Or.inl falls
        · have still : (store.destroyOne id).Under below above :=
            (destroyOne_parent linked falls).trans owned
          rcases ih (covers_iff.mpr ⟨member, isMember, upward⟩) with aboveFalls | stays
          · exact absurd (aboveFalls.head owned) falls
          · obtain ⟨last, inLast, onward⟩ := covers_iff.mp stays
            exact Or.inr (covers_iff.mpr ⟨last, inLast, onward.head still⟩)

omit linked in
theorem Pruned.covers {pruned : Store} (prunes : Pruned store pruned) {members : List ElementId}
    (covered : pruned.Covers members other) : store.Covers members other := by
  obtain ⟨member, isMember, climb⟩ := covers_iff.mp covered
  refine covers_iff.mpr ⟨member, isMember, ReflTransGen.mono ?_ _ _ climb⟩
  intro below above owned
  rcases prunes.parent below with same | gone
  · exact same.symm.trans owned
  · rw [Under, gone] at owned
    cases owned

end Reach

variable (acyclic : store.Acyclic) {left right : List ElementId}

section Apart

include acyclic

omit linked in
theorem owner_uncovered {host : ElementId} (owned : store.parent id = some host) :
    ¬ store.Covers [id] host := by
  rw [covers_single]
  exact not_below_member acyclic owned .refl

include linked

theorem sibling_uncovered (chain : store.Whole (left ++ id :: right)) :
    ∀ sibling ∈ left ++ right, ¬ store.Covers [id] sibling := by
  rintro sibling member ⟨_, isId, covered⟩
  obtain rfl := List.mem_singleton.mp isId
  rcases covered with rfl | isAbove
  · have nodup := linked.whole_nodup chain
    rw [List.nodup_middle, List.nodup_cons] at nodup
    exact nodup.1 member
  · apply linked.not_below_sibling acyclic chain List.mem_append_cons_self _ isAbove
    simp only [List.mem_append, List.mem_cons] at member ⊢
    exact member.imp_right Or.inr

end Apart

include linked acyclic

theorem destroyOne_destroys (chain : store.Whole (left ++ id :: right)) :
    Destroys store (store.destroyOne id) (store.parent id) (left ++ right)
      (store.Covers [id]) := by
  have clears := destroyOne_cleared linked id
  have taken := detach_rearranged linked acyclic chain
  have rearranged : Rearranged store (store.destroyOne id) (store.parent id) (left ++ right)
      (store.Covers [id]) := by
    apply taken.narrowed
    · exact destroyOne_linked linked id
    · exact acyclic_of_parents acyclic (destroyOne_pruned linked id).parent
    · exact fun consistent => (destroyOne_sound consistent.sound id).consistent
    · intro other stays
      exact clears.beyond other fun reached => stays ((detached_reached_iff linked).mp reached)
    · rintro other rfl
      exact covers_single.mpr .refl
    · exact sibling_uncovered linked acyclic chain
    · exact fun host owned => owner_uncovered acyclic owned
  refine ⟨rearranged, fun other covered => ?_⟩
  rw [clears.within other ((detached_reached_iff linked).mpr covered), get?_release]
  exact released_of_label ((detach_pruned linked id).label other)

/-- Destroying an element and what follows it leaves what stood before it. -/
theorem destroyAllFor_destroys (count : Nat) (enough : right.length < count)
    (chain : store.Whole (left ++ id :: right)) :
    Destroys store (store.destroyAllFor count (some id)) (store.parent id) left
      (store.Covers (id :: right)) := by
  induction right generalizing store id count with
  | nil =>
      obtain ⟨count, rfl⟩ : ∃ fewer, count = fewer + 1 := ⟨count - 1, by omega⟩
      have first := destroyOne_destroys linked acyclic chain
      have last : store.destroyAllFor (count + 1) (some id) = store.destroyOne id := by
        rw [destroyAllFor, (linked.whole_beside chain).2]
        cases count <;> rfl
      rw [List.append_nil] at first
      rwa [last]
  | cons after rest ih =>
      obtain ⟨count, rfl⟩ : ∃ fewer, count = fewer + 1 := ⟨count - 1, by omega⟩
      have first := destroyOne_destroys linked acyclic chain
      have step : store.destroyAllFor (count + 1) (some id) =
          (store.destroyOne id).destroyAllFor count (some after) := by
        rw [destroyAllFor, (linked.whole_beside chain).2]
        rfl
      have prunes := destroyOne_pruned linked id
      have second := ih first.linked first.acyclic count (by simpa using enough) first.whole
      rw [first.owned after (by simp)] at second
      rw [step]
      constructor
      · apply first.toRearranged.trans second.toRearranged
        · exact fun other covered => covered.imp fun member => And.imp_left (by simp_all)
        · intro other covered
          exact (prunes.covers covered).imp fun member => And.imp_left (List.mem_cons_of_mem id)
        · intro other member dropped
          exact ⟨other, by simp_all, Or.inl rfl⟩
      · intro other covered
        by_cases again : (store.destroyOne id).Covers (after :: rest) other
        · rw [second.released other again]
          exact released_of_label (prunes.label other)
        · -- It was destroyed with the first one, and the others leave it alone.
          have gone := (covers_cons linked covered).resolve_right again
          rw [second.toRearranged.get? again]
          · exact first.released other gone
          · intro inLeft
            exact sibling_uncovered linked acyclic chain other (List.mem_append_left _ inLeft) gone
          · exact fun owned => owner_uncovered acyclic owned gone

end One

/-! The loop of a destruction, without a bound on its turns. -/
section Loop

def emptied (store : Store) (id : ElementId) (following : Option ElementId) :
    Store × List ElementId × Option ElementId :=
  ((store.detach id).release id, ((store.detach id).child id).toList, following)

/-- The first of the waiting elements is released, and what it leads to waits instead.
When none waits any more, the element that follows is destroyed. -/
def destroyTurn : Store × List ElementId × Option ElementId →
    Except Fault (Turn (Store × List ElementId × Option ElementId) Store)
  | (store, id :: waiting, following) =>
      .ok (.again (store.release id, store.leadsTo id ++ waiting, following))
  | (store, [], some id) => .ok (.again (store.emptied id (store.next id)))
  | (store, [], none) => .ok (.done store)

variable {store : Store} {following : Option ElementId} {result : Except Fault Store}

theorem releaseFor_ends (count : Nat) (ids : List ElementId)
    (enough : store.linkCount + ids.length ≤ count)
    (rest : Ends destroyTurn (store.releaseFor count ids, [], following) result) :
    Ends destroyTurn (store, ids, following) result := by
  induction count generalizing store ids with
  | zero =>
      obtain rfl : ids = [] := List.length_eq_zero_iff.mp (by omega)
      exact rest
  | succ count ih =>
      cases ids with
      | nil => exact rest
      | cons id waiting =>
          have balance := linkCount_release store id
          have within : (store.release id).linkCount + (store.leadsTo id ++ waiting).length ≤
              count := by
            simp only [List.length_append, List.length_cons] at enough ⊢
            omega
          exact .again _ _ _ rfl (ih (store.leadsTo id ++ waiting) within rest)

theorem destroyOne_ends (id : ElementId)
    (rest : Ends destroyTurn (store.destroyOne id, [], following) result) :
    Ends destroyTurn (store.emptied id following) result := by
  have bound := linkCount_le ((store.detach id).release id)
  exact releaseFor_ends _ _ (by omega) rest

theorem destroyAllFor_ends (linked : store.Linked) (count : Nat) (start : Option ElementId)
    (ended : (store.visitFor count start).2 = none) :
    Ends destroyTurn (store, [], start) (.ok (store.destroyAllFor count start)) := by
  induction count generalizing store start with
  | zero =>
      cases start with
      | none => exact .done _ _ rfl
      | some id => cases ended
  | succ count ih =>
      cases start with
      | none => exact .done _ _ rfl
      | some id =>
          apply Ends.again _ (store.emptied id (store.next id)) _ rfl
          apply destroyOne_ends
          exact ih (destroyOne_linked linked id) _ (destroyOne_ended linked count id ended)

end Loop

/-- A destruction comes to an end. It answers with the element that followed, takes the
element off its chain and releases it with all that is below it, and changes nothing
else. The destruction of what follows as well releases each of these so, and what stood
before them is left. -/
theorem destruction_exact {store : Store} (linked : store.Linked) (acyclic : store.Acyclic)
    (id : ElementId) : ∃ left right, store.Whole (left ++ id :: right) ∧
    (∃ destroyed, store.destroy (some id) = (destroyed, right.head?) ∧
      Ends destroyTurn (store.emptied id none) (.ok destroyed) ∧
      Destroys store destroyed (store.parent id) (left ++ right) (store.Covers [id])) ∧
    ∃ destroyed, store.destroyAll (some id) = destroyed ∧
      Ends destroyTurn (store, [], some id) (.ok destroyed) ∧
      Destroys store destroyed (store.parent id) left (store.Covers (id :: right)) := by
  obtain ⟨left, right, chain⟩ := linked.exists_whole id
  refine ⟨left, right, chain, ?_, ?_⟩
  · refine ⟨store.destroyOne id, ?_, ?_, ?_⟩
    · rw [destroy, (linked.whole_beside chain).2]
    · exact destroyOne_ends id (.done _ _ rfl)
    · exact destroyOne_destroys linked acyclic chain
  · refine ⟨_, rfl, ?_, ?_⟩
    · apply destroyAllFor_ends linked
      exact visitFor_more (by omega) _ (visit_ends linked.straight (some id))
    · have bound := linked.whole_length chain
      simp only [List.length_append, List.length_cons] at bound
      exact destroyAllFor_destroys linked acyclic _ (by omega) chain

/-- The command in front of a text is destroyed with the text in its body, and the second
text of a body leaves the first one. -/
theorem destruction_exact_woven :
    woven.Linked ∧ woven.Acyclic ∧
      (∃ destroyed, woven.destroy (some 3) = (destroyed, some 5) ∧
        Ends destroyTurn (woven.emptied 3 none) (.ok destroyed) ∧
        Destroys woven destroyed none [5] (woven.Covers [3])) ∧
      ∃ destroyed, woven.destroyAll (some 2) = destroyed ∧
        Ends destroyTurn (woven, [], some 2) (.ok destroyed) ∧
        Destroys woven destroyed (some 0) [1] (woven.Covers [2]) := by
  obtain ⟨linked, acyclic⟩ := woven_straight
  have chain : woven.Whole ([] ++ 3 :: [5]) := ⟨rfl, fun first isFirst => by cases isFirst; rfl⟩
  have body : woven.Whole ([1] ++ 2 :: []) := ⟨rfl, fun first isFirst => by cases isFirst; rfl⟩
  obtain ⟨left, right, whole, destroys, _⟩ := destruction_exact linked acyclic 3
  obtain ⟨rfl, rfl⟩ := linked.cut_unique whole chain
  obtain ⟨before, behind, wholeBody, _, destroysAll⟩ := destruction_exact linked acyclic 2
  obtain ⟨rfl, rfl⟩ := linked.cut_unique wholeBody body
  exact ⟨linked, acyclic, destroys, destroysAll⟩

end Stencil.Store
