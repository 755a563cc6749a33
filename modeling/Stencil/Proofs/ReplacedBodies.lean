import Stencil.Proofs.Burial
import Stencil.Proofs.ExactDestruction

/-!
Bodies that are replaced. The old body is taken down through the head that its owner
names, one element after the other, and all that its owner is above is released so.
A chain that nothing owns has no member there, and if the owner is below none of its
members, it is whole as before and becomes the body. The members get an owner and the
owner a head, and nothing else is written.
-/

namespace Stencil.Store

open Relation

/-- An element got a new body with these members. What it was above is released; of the
other elements only the members have another owner, and only it has another body. -/
structure Refilled (store changed : Store) (owner : ElementId) (members : List ElementId) :
    Prop where
  consistent : changed.Consistent
  acyclic : changed.Acyclic
  whole : changed.Whole members
  headed : changed.child owner = members.head?
  owned : ∀ id, changed.parent id = some owner ↔ id ∈ members
  released : ∀ id, Above store owner id → changed.get? id =
    (store.get? id).map fun cell => { kind := cell.kind, text := cell.text }
  others : ∀ id, ¬ Above store owner id → changed.get? id = (store.get? id).map fun cell =>
    { cell with
      child := if id = owner then members.head? else cell.child
      parent := if id ∈ members then some owner else cell.parent }

theorem inside_of_kind {store : Store} {id : ElementId} {kind : Kind}
    (isKind : store.kind? id = some kind) : id < store.size := by
  obtain ⟨cell, found, _⟩ := Option.map_eq_some_iff.mp isKind
  exact inside_of_get? found

section OldBody

variable {store : Store} (linked : store.Linked) {owner id first : ElementId}
variable {right : List ElementId}
include linked

theorem Linked.not_above_bare (bare : store.child owner = none) : ¬ Above store owner id := by
  intro isAbove
  obtain ⟨member, _, owned⟩ := TransGen.tail'_iff.mp (above_iff.mp isAbove)
  obtain ⟨head, heads, _⟩ := linked.exists_child owned
  rw [bare] at heads
  cases heads

/-- The members of a body cover what its owner is above. -/
theorem Linked.covers_body (heads : store.child owner = some first)
    (body : store.Whole (first :: right)) :
    store.Covers (first :: right) id ↔ Above store owner id := by
  rw [covers_iff, above_iff, TransGen.tail'_iff]
  constructor
  · rintro ⟨member, isMember, climb⟩
    refine ⟨member, climb, ?_⟩
    rw [Under, linked.whole_owned body isMember List.mem_cons_self]
    exact ((linked.first owner first).mp heads).1
  · rintro ⟨member, climb, owned⟩
    obtain ⟨head, isHead, onward⟩ := linked.exists_child owned
    obtain rfl := Option.some.inj (heads.symm.trans isHead)
    exact ⟨member, (linked.whole_mem_iff body).mpr onward, climb⟩

theorem Linked.exists_body (heads : store.child owner = some first) :
    ∃ right, store.Whole (first :: right) := by
  obtain ⟨left, right, whole⟩ := linked.exists_whole first
  have noPrev := ((linked.first owner first).mp heads).2
  rw [(linked.whole_beside whole).1, List.getLast?_eq_none_iff] at noPrev
  rw [noPrev] at whole
  exact ⟨right, whole⟩

omit linked in
theorem bare_cell (bare : store.child owner = none) (id : ElementId) :
    (store.get? id).map (fun cell =>
      { cell with child := if id = owner then none else cell.child }) = store.get? id := by
  cases found : store.get? id with
  | none => rfl
  | some cell =>
      by_cases isOwner : id = owner
      · have noBody : cell.child = none := by simpa [child, isOwner ▸ found] using bare
        simp [isOwner, ← noBody]
      · simp [isOwner]

omit linked in
theorem Destroys.cell {changed : Store} {gone : ElementId → Prop}
    (destroys : Destroys store changed (some owner) [] gone) (stays : ¬ gone id) :
    changed.get? id = (store.get? id).map fun cell =>
      { cell with child := if id = owner then none else cell.child } := by
  obtain ⟨next, prev, parent⟩ := destroys.others id stays List.not_mem_nil
  have child : changed.child id = if id = owner then none else store.child id := by
    by_cases isOwner : id = owner
    · rw [if_pos isOwner, isOwner]
      exact destroys.headed owner rfl
    · rw [if_neg isOwner]
      exact destroys.bodies id stays fun same => isOwner (Option.some.inj same).symm
  rw [get?_eq_reads changed, get?_eq_reads store, destroys.nodes id stays, next, prev, child,
    parent, Option.map_map]
  rfl

variable (acyclic : store.Acyclic)
include acyclic

theorem emptied_cells (owner : ElementId) :
    (∀ id, Above store owner id → (store.destroyAll (store.child owner)).get? id =
      (store.get? id).map fun cell => { kind := cell.kind, text := cell.text }) ∧
    ∀ id, ¬ Above store owner id → (store.destroyAll (store.child owner)).get? id =
      (store.get? id).map fun cell =>
        { cell with child := if id = owner then none else cell.child } := by
  cases heads : store.child owner with
  | none =>
      exact ⟨fun id isAbove => absurd isAbove (linked.not_above_bare heads),
        fun id _ => (bare_cell heads id).symm⟩
  | some first =>
      obtain ⟨right, body⟩ := linked.exists_body heads
      have enough : right.length < 4 * store.size + 4 := by
        have bound := linked.whole_length body
        simp only [List.length_cons] at bound
        omega
      have destroys : Destroys store (store.destroyAll (some first)) (store.parent first) []
          (store.Covers (first :: right)) :=
        destroyAllFor_destroys linked acyclic _ enough body
      rw [((linked.first owner first).mp heads).1] at destroys
      have covers : ∀ id, store.Covers (first :: right) id ↔ Above store owner id := fun id =>
        linked.covers_body heads body
      constructor
      · exact fun id isAbove => destroys.released id ((covers id).mpr isAbove)
      · exact fun id notAbove => destroys.cell fun covered => notAbove ((covers id).mp covered)

end OldBody

section NewBody

variable {store : Store} (linked : store.Linked) (acyclic : store.Acyclic)
variable {owner : ElementId} {members : List ElementId}
variable (whole : store.Whole members) (admitted : store.Admitted owner members.head?)
include linked whole admitted

theorem Admitted.unowned : ∀ id ∈ members, store.parent id = none := by
  intro id member
  cases members with
  | nil => cases member
  | cons head rest =>
      rw [linked.whole_owned whole member List.mem_cons_self]
      exact (admitted head rfl).2.1

theorem Admitted.not_above : ∀ id ∈ members, ¬ Above store owner id := by
  intro id member isAbove
  obtain ⟨_, owned, _⟩ := above_owner.mp isAbove
  rw [admitted.unowned linked whole id member] at owned
  cases owned

theorem Admitted.owner_apart : owner ∉ members := by
  intro member
  cases members with
  | nil => cases member
  | cons head rest =>
      have visited : (store.visit (some head)).1 = head :: rest := linked.whole_visited whole
      exact (admitted head rfl).2.2 (visited ▸ member)

include acyclic

theorem emptied_whole : (store.destroyAll (store.child owner)).Whole members := by
  have links : ∀ id ∈ members,
      (store.destroyAll (store.child owner)).get? id = store.get? id := by
    intro id member
    have different : id ≠ owner := by
      rintro rfl
      exact admitted.owner_apart linked whole member
    rw [(emptied_cells linked acyclic owner).2 id (admitted.not_above linked whole id member)]
    simp [different]
  obtain ⟨segment, noPrev⟩ := linked.whole_iff.mp whole
  apply (destroyAll_linked linked _).whole_iff.mpr
  constructor
  · exact segment.congr fun id member => (links_of_get? (links id member)).1
  · intro first isFirst
    rw [(links_of_get? (links first (List.mem_of_mem_head? isFirst))).2.1]
    exact noPrev first isFirst

end NewBody

section Refill

variable {store : Store} {owner : ElementId} {members : List ElementId}

theorem Installed.cells {emptied installed : Store} {content : Option ElementId}
    (reads : Installed emptied installed owner content members)
    (nodes : ∀ id, installed.node? id = emptied.node? id) (id : ElementId) :
    installed.get? id = (emptied.get? id).map fun cell =>
      { cell with
        child := if id = owner then content else cell.child
        parent := if id ∈ members then some owner else cell.parent } := by
  rw [get?_eq_reads installed, get?_eq_reads emptied, nodes, reads.next, reads.prev, reads.child,
    reads.parent, Option.map_map]
  rfl

/-- A chain that is admitted becomes the body of the owner if none of its members is
above it. -/
theorem installed_refilled (sound : store.Sound) (acyclic : store.Acyclic) {kind : Kind}
    (isKind : store.kind? owner = some kind) (noText : kind ≠ .text)
    (whole : store.Whole members)
    (inside : ∀ head, members.head? = some head → head < store.size)
    (admitted : store.Admitted owner members.head?)
    (unburied : ∀ member ∈ members, ¬ Above store member owner) :
    Refilled store (store.installed owner members.head?) owner members := by
  have linked := sound.linked
  have hostInside := inside_of_kind isKind
  have stands := emptied_whole linked acyclic whole admitted
  have emptied := destroyAll_linked linked (store.child owner)
  have reads := installed_reads linked hostInside inside admitted
  rw [emptied.whole_visited stands] at reads
  have cells := reads.cells fun id => by simp [installed]
  have now := installed_linked linked hostInside inside admitted
  obtain ⟨released, others⟩ := emptied_cells linked acyclic owner
  constructor
  · exact (installed_sound sound hostInside inside isKind noText admitted).consistent
  · rw [installed_acyclic_iff sound acyclic hostInside inside admitted]
    rintro ⟨head, isHead, _, _, member, visited, isAbove⟩
    rw [← isHead, linked.whole_visited whole] at visited
    exact unburied member visited isAbove
  · obtain ⟨segment, noPrev⟩ := emptied.whole_iff.mp stands
    apply now.whole_iff.mpr
    constructor
    · exact segment.congr fun id _ => reads.next id
    · exact fun first isFirst => (reads.prev first).trans (noPrev first isFirst)
  · rw [reads.child, if_pos rfl]
  · intro id
    rw [reads.parent]
    by_cases member : id ∈ members
    · simp [member]
    · -- The owner has no body in between, so it owns nothing but the members.
      rw [if_neg member]
      refine iff_of_false (fun owned => ?_) member
      obtain ⟨head, heads, _⟩ := emptied.exists_child owned
      rw [destroyAll_child linked owner] at heads
      cases heads
  · intro id isAbove
    have different : id ≠ owner := by
      rintro rfl
      exact acyclic id isAbove
    have missed : id ∉ members := fun member =>
      admitted.not_above linked whole id member isAbove
    rw [cells, released id isAbove, Option.map_map]
    simp only [if_neg different, if_neg missed]
    rfl
  · intro id notAbove
    rw [cells, others id notAbove, Option.map_map]
    congr 1
    funext cell
    by_cases isOwner : id = owner <;> simp [isOwner]

theorem install_refills (sound : store.Sound) (acyclic : store.Acyclic) {kind : Kind}
    (isKind : store.kind? owner = some kind) (noText : kind ≠ .text)
    (whole : store.Whole members)
    (inside : ∀ head, members.head? = some head → head < store.size)
    (admitted : store.Admitted owner members.head?)
    (unburied : ∀ member ∈ members, ¬ Above store member owner) :
    ∃ changed, store.install true owner members.head? = .ok { store := changed } ∧
      Refilled store changed owner members := by
  rcases install_cases sound.linked owner members.head? with ⟨barred, _⟩ | ⟨_, installs⟩
  · exact absurd admitted barred
  · exact ⟨_, installs,
      installed_refilled sound acyclic isKind noText whole inside admitted unburied⟩

theorem Offered.installs (sound : store.Sound) (acyclic : store.Acyclic) {kind : Kind}
    (isKind : store.kind? owner = some kind) (noText : kind ≠ .text) {head : ElementId}
    {others : List ElementId} (inside : head < store.size)
    (offered : store.Offered owner head others) :
    ∃ changed, store.install true owner (some head) = .ok { store := changed } ∧
      Refilled store changed owner (head :: others) := by
  apply install_refills sound acyclic isKind noText offered.whole
  · rintro _ ⟨⟩
    exact inside
  · rintro _ ⟨⟩
    exact ⟨offered.whole.2 head rfl, offered.unowned, offered.not_visited sound.linked⟩
  · exact offered.above

end Refill

section Parsed

variable {store grown : Store} {start : Option ElementId} {forest : Forest}
variable {ids : List ElementId} (grows : Grown store grown start forest ids)
include grows

theorem Grown.climb_new {id above : ElementId} (member : id ∈ ids)
    (climb : ReflTransGen grown.Under id above) : above ∈ ids := by
  induction climb with
  | refl => exact member
  | tail _ owned ih =>
      rcases grows.planted.owned _ ih with unowned | ⟨host, inside, isHost⟩
      · rw [Under, unowned] at owned
        cases owned
      · rw [Under, isHost] at owned
        exact Option.some.inj owned ▸ inside

theorem Grown.above_iff (linked : store.Linked) {owner : ElementId} (old : owner < store.size)
    (id : ElementId) : Above grown owner id ↔ Above store owner id := by
  rw [above_owner, above_owner]
  constructor
  · rintro ⟨host, owned, climb⟩
    by_cases isOld : id < store.size
    · have oldOwned : store.parent id = some host := (grows.links isOld).2.2.2.symm.trans owned
      obtain ⟨_, child, _⟩ := linked.exists_child oldOwned
      exact ⟨host, oldOwned, (grows.climb linked (inside_of_child child) climb).1⟩
    · have new := grows.all id (Nat.le_of_not_lt isOld) (inside_of_parent owned)
      have ownerNew := grows.climb_new new (climb.head owned)
      exact absurd old (Nat.not_lt_of_le (grows.fresh owner ownerNew))
  · rintro ⟨host, owned, climb⟩
    have kept : ∀ below above, store.Under below above → grown.Under below above := by
      intro below above owned
      exact (grows.links (inside_of_parent owned)).2.2.2.trans owned
    exact ⟨host, kept id host owned, ReflTransGen.mono kept _ _ climb⟩

end Parsed

theorem Grown.offered {store grown : Store} {forest : Forest} {ids : List ElementId}
    {head : ElementId} (grows : Grown store grown (some head) forest ids)
    (grownLinked : grown.Linked) (linked : store.Linked) {owner : ElementId}
    (old : owner < store.size) : ∃ others, grown.Offered owner head others := by
  obtain ⟨isMember, noPrev, noParent⟩ := grows.planted.start_links
  obtain ⟨left, others, whole⟩ := grownLinked.exists_whole head
  rw [(grownLinked.whole_beside whole).1, List.getLast?_eq_none_iff] at noPrev
  rw [noPrev, List.nil_append] at whole
  have new : ∀ member ∈ head :: others, store.size ≤ member := fun member inChain =>
    grows.fresh member (grows.onward isMember ((grownLinked.whole_mem_iff whole).mp inChain))
  refine ⟨others, whole, noParent, fun inChain => ?_, fun member inChain isAbove => ?_⟩
  · exact Nat.not_lt_of_le (new owner inChain) old
  · have climb := (Store.above_iff.mp isAbove).to_reflTransGen
    exact Nat.not_lt_of_le (new member inChain) (grows.climb linked old climb).2

/-- Replacing the body of an element by no chain, by an unlinked chain that does not hold
the element and is not above it, or by a text that can be parsed succeeds. The members of
the chain become the body in their order, what the element was above is released, and
nothing else is written. A parse adds elements before and leaves the others alone. -/
theorem setBody_refills {store : Store} (consistent : store.Consistent) (acyclic : store.Acyclic)
    {kind : Kind} (noText : kind ≠ .text) {owner : ElementId}
    (isKind : store.kind? owner = some kind) :
    (∃ changed, store.setBody true kind (some owner) none = .ok { store := changed } ∧
      Refilled store changed owner []) ∧
    (∀ head others, head < store.size → store.Offered owner head others →
      ∃ changed, store.setBody true kind (some owner) (some head) = .ok { store := changed } ∧
        Refilled store changed owner (head :: others)) ∧
    ∀ text first last parsed head, store.parse true text first last = .ok parsed →
      parsed.result = .ok head →
      (∀ id, id < store.size → parsed.store.get? id = store.get? id) ∧
      (∀ id, Above parsed.store owner id ↔ Above store owner id) ∧
      ∃ others changed, parsed.store.Whole (head :: others) ∧
        store.setBodyText true kind (some owner) text first last = .ok { store := changed } ∧
        Refilled parsed.store changed owner (head :: others) := by
  have sound := consistent.sound
  have accepted : store.kindRefusal kind (some owner) = none := by simp [kindRefusal, isKind]
  have runs : ∀ content, store.setBody true kind (some owner) content =
      store.install true owner content := by
    intro content
    simp [setBody, accepted, present]
  refine ⟨?_, ?_, ?_⟩
  · have whole : store.Whole [] := ⟨rfl, fun first isFirst => by cases isFirst⟩
    rw [runs]
    apply install_refills sound acyclic isKind noText whole
    · rintro head ⟨⟩
    · rintro head ⟨⟩
    · intro member isMember
      cases isMember
  · intro head others inside offered
    rw [runs]
    exact offered.installs sound acyclic isKind noText inside
  · intro text first last parsed head parses result
    rcases parse_cases store text first last with ⟨_, report, fails, _, failed⟩ |
      ⟨forest, grown, ids, succeeds, grows, proper⟩
    · rw [fails] at parses
      cases parses
      rw [failed] at result
      cases result
    · rw [succeeds] at parses
      cases parses
      cases result
      have grownSound := sound.grow grows proper
      have old := inside_of_kind isKind
      have sameKind : grown.kind? owner = some kind := by
        rw [← isKind, kind?, kind?, grows.kept owner old]
      -- The chain of the text stands in new cells, so it is not above the owner.
      obtain ⟨others, offered⟩ := grows.offered grownSound.linked sound.linked old
      obtain ⟨changed, installs, refilled⟩ := offered.installs grownSound
        (grows.acyclic sound.linked acyclic) sameKind noText grows.start_inside
      refine ⟨grows.kept, grows.above_iff sound.linked old, others, changed, offered.whole, ?_,
        refilled⟩
      simp [setBodyText, accepted, succeeds, present, installs]

theorem woven_consistent : woven.Consistent := by
  have cells : ∀ id < woven.size, (woven.kind? id = some .text → woven.child id = none) ∧
      (woven.text id).any isName = true := by decide +kernel
  have named : ∀ id kind, woven.kind? id = some kind →
      ∃ name, woven.text id = some name ∧ isName name = true := by
    intro id kind isKind
    exact (Option.any_eq_true _ _).mp (cells id (inside_of_kind isKind)).2
  refine Sound.consistent ⟨woven_straight.1, fun id isText => ?_, fun id kind isKind _ => ?_,
    fun id isSome => ?_⟩
  · exact (cells id (inside_of_kind isText)).1 isText
  · exact named id kind isKind
  · obtain ⟨kind, isKind⟩ := Option.isSome_iff_exists.mp isSome
    obtain ⟨name, isName, _⟩ := named id kind isKind
    exact isName ▸ rfl

/-- The command with two texts in its body loses it, or gets the chain of a command and a
text, or a text that is parsed. -/
theorem setBody_refills_woven :
    woven.Consistent ∧ woven.Acyclic ∧
      woven.kind? 0 = some .command ∧ woven.Offered 0 3 [5] ∧
      (∃ changed, woven.setBody true .command (some 0) none = .ok { store := changed } ∧
        Refilled woven changed 0 []) ∧
      (∃ changed, woven.setBody true .command (some 0) (some 3) = .ok { store := changed } ∧
        Refilled woven changed 0 [3, 5]) ∧
      ∃ parsed others changed, woven.parse true "h" none none = .ok parsed ∧
        parsed.result = .ok 7 ∧
        woven.setBodyText true .command (some 0) "h" none none = .ok { store := changed } ∧
        Refilled parsed.store changed 0 (7 :: others) := by
  have acyclic := woven_straight.2
  have offered : woven.Offered 0 3 [5] := by
    refine ⟨⟨rfl, fun first isFirst => by cases isFirst; rfl⟩, rfl, by decide, ?_⟩
    intro member _ isAbove
    obtain ⟨_, owned, _⟩ := above_owner.mp isAbove
    cases owned
  have parses : woven.parse true "h" none none =
      .ok { store := woven.add ⟨.text, some "h", {}⟩, result := .ok 7 } := by rfl
  have isCommand : woven.kind? 0 = some .command := rfl
  obtain ⟨clears, takes, reads⟩ :=
    setBody_refills woven_consistent acyclic (by decide) isCommand
  obtain ⟨_, _, others, changed, _, ran, refilled⟩ := reads "h" none none _ 7 parses rfl
  exact ⟨woven_consistent, acyclic, isCommand, offered, clears, takes 3 [5] (by decide) offered,
    _, others, changed, parses, rfl, ran, refilled⟩

end Stencil.Store
