import Stencil.Proofs.Editing
import Stencil.Proofs.SeparateValues
import Stencil.Proofs.UncheckedSessions

/-!
What a name has once a chain was stored under it. The name has the chain, and the chain
has all its elements as they were, unless the element that the name had before has been
linked into the chain since. This one is destroyed with what follows it, and the only
care that is taken is for a chain that begins with it. So an old value that still has
nothing before it and no owner does no harm, and one that has come to stand behind the
head of the new chain or below it is gone from there.
-/

namespace Stencil

open Relation

namespace Store

section Destroyed

variable {store changed : Store} {head id : ElementId}

theorem Spares.visitFor (spares : Spares store changed head) (count : Nat)
    (reached : store.Reached [head] id) :
    changed.visitFor count (some id) = store.visitFor count (some id) := by
  induction count generalizing id with
  | zero => rfl
  | succ count ih =>
      have next : changed.next id = store.next id := (links_of_get? (spares id reached)).1
      simp only [Store.visitFor, next]
      cases isNext : store.next id with
      | none => cases count <;> rfl
      | some after =>
          have onward : store.Reached [head] after :=
            reached_single.mpr ((reached_single.mp reached).tail (Or.inl isNext))
          rw [ih onward]

theorem Spares.chain (spares : Spares store changed head) (size : changed.size = store.size) :
    changed.chain (some head) = store.chain (some head) := by
  have same := spares.visitFor (store.size + 1) (reached_single.mpr .refl)
  simp only [Store.chain, visit, size, same]

theorem destroyAll_root (linked : store.Linked) (inside : id < store.size) :
    (store.destroyAll (some id)).Root id := by
  have alone := (destroyOne_cleared linked id).unlinked id (reached_single.mpr .refl)
  have first : (store.destroyOne id).Root id :=
    ⟨(destroyOne_pruned linked id).size.symm ▸ inside, alone.2.1, alone.2.2.2⟩
  exact first.pruned (destroyAllFor_pruned (destroyOne_linked linked id) _ _)

/-- A root keeps all that is reached from it exactly if what is destroyed does not begin
in there. -/
theorem Root.spares_iff (root : store.Root head) (linked : store.Linked) (different : id ≠ head) :
    Spares store (store.destroyAll (some id)) head ↔ ¬ store.Reached [head] id := by
  refine ⟨fun spares reached => ?_, fun apart other reached => ?_⟩
  · have inside := root.reached_inside linked reached
    have links := links_of_get? (spares id reached)
    have destroyed := destroyAll_root linked inside
    have isRoot : store.Root id :=
      ⟨inside, links.2.1.symm.trans destroyed.prev, links.2.2.2.symm.trans destroyed.parent⟩
    exact different (isRoot.reached linked reached)
  · exact (root.enclosed linked).destroyAll linked apart reached

end Destroyed

end Store

namespace World

open Store

/-- The element that the name has for its value stands in the chain, but not at its head. -/
def Absorbs (world : World) (name : Option String) (chain previous : ElementId) : Prop :=
  world.context.chainOf name = some previous ∧ previous ≠ chain ∧
    world.store.Reached [chain] previous

section Stored

variable {settings : Settings} {world : World} {name : Option String} {chain : ElementId}
variable {readOnly : Bool}

theorem setVariable_accepted
    (accepted : (world.setVariable settings name (some chain) readOnly).1 = .ok) :
    (world.setVariable settings name (some chain) readOnly).2 =
      (world.retirePrevious name (some chain)).withContext fun context =>
        { context with cache := context.cache.put name ⟨some chain, readOnly⟩ } := by
  unfold setVariable at accepted ⊢
  split
  · rename_i refusal refused
    rw [refused] at accepted
    split at refused
    · exact absurd accepted (cacheRefusal_status name (some chain) refused)
    · cases refused
  · rfl

theorem setVariable_releases (unpinned : world.context.pins = [])
    (accepted : (world.setVariable settings name (some chain) readOnly).1 = .ok) :
    (world.setVariable settings name (some chain) readOnly).2.store = world.store ∧
        (∀ previous, ¬ world.Absorbs name chain previous) ∨
      ∃ old, world.context.chainOf name = some old ∧ old ≠ chain ∧
        (world.setVariable settings name (some chain) readOnly).2.store =
          world.store.destroyAll (some old) := by
  rw [setVariable_accepted accepted]
  simp only [withContext, retirePrevious]
  cases cached : world.context.chainOf name with
  | none =>
      refine Or.inl ⟨rfl, ?_⟩
      rintro previous ⟨isPrevious, _⟩
      rw [cached] at isPrevious
      cases isPrevious
  | some old =>
      by_cases same : chain = old
      · simp only [same, if_true]
        refine Or.inl ⟨trivial, ?_⟩
        rintro previous ⟨isPrevious, different, _⟩
        exact different (Option.some.inj (isPrevious.symm.trans cached))
      · simp only [Option.some.injEq, same, if_false]
        refine Or.inr ⟨old, rfl, Ne.symm same, ?_⟩
        simp only [retire, Context.isPinned, unpinned, List.contains_nil, Bool.false_eq_true,
          if_false, destroyAll]

end Stored

/-- A name has the chain that was stored under it, and the chain is as it was with all its
elements exactly if it has not absorbed the old value of the name. If it has, the old value
is lost from it. -/
theorem setVariable_stores {settings : Settings} {world : World} {name : Option String}
    {chain : ElementId} {readOnly : Bool} (reachable : Reachable world.store)
    (unpinned : world.context.pins = []) (root : world.store.Root chain)
    (accepted : (world.setVariable settings name (some chain) readOnly).1 = .ok) :
    let stored := (world.setVariable settings name (some chain) readOnly).2
    stored.context.cache.get? name = some ⟨some chain, readOnly⟩ ∧
    (Spares world.store stored.store chain ↔ ∀ previous, ¬ world.Absorbs name chain previous) ∧
    (Spares world.store stored.store chain →
      stored.store.chain (some chain) = world.store.chain (some chain)) ∧
    ∀ previous, world.Absorbs name chain previous → ¬ stored.store.Reached [chain] previous := by
  intro stored
  have linked := reachable.sound.linked
  constructor
  · simp only [stored, setVariable_accepted accepted, withContext, Table.get?_put, if_true]
  rcases setVariable_releases unpinned accepted with ⟨same, none⟩ | ⟨old, cached, different, same⟩
  · have kept : stored.store = world.store := same
    rw [kept]
    exact ⟨iff_of_true (fun _ _ => rfl) none, fun _ => rfl,
      fun previous absorbs => absurd absorbs (none previous)⟩
  · have destroyed : stored.store = world.store.destroyAll (some old) := same
    have only : ∀ previous, world.Absorbs name chain previous → previous = old :=
      fun previous absorbs => Option.some.inj (absorbs.1.symm.trans cached)
    rw [destroyed]
    refine ⟨?_, fun spares => spares.chain (destroyAll_pruned linked _).size, ?_⟩
    · rw [root.spares_iff linked different]
      refine ⟨fun apart previous absorbs => ?_, fun none reached => ?_⟩
      · exact apart (only previous absorbs ▸ absorbs.2.2)
      · exact none old ⟨cached, different, reached⟩
    · intro previous absorbs again
      obtain rfl := only previous absorbs
      have isRoot := destroyAll_root linked (root.reached_inside linked absorbs.2.2)
      exact different (isRoot.reached (destroyAll_linked linked _) again)

/-- A command with a body takes the place of a text. -/
theorem setVariable_stores_command :
    let world : World :=
      { store := unrelated, context := { cache := ⟨[(some "v", ⟨some 0, false⟩)]⟩ } }
    let stored := (world.setVariable {} (some "v") (some 1) true).2
    Reachable unrelated ∧ stored.context.cache.get? (some "v") = some ⟨some 1, true⟩ ∧
      Spares unrelated stored.store 1 ∧ stored.store.chain (some 1) = .ok [1] := by
  intro world stored
  have text : Reachable ⟨#[{ kind := .text, text := some "a" }]⟩ :=
    .step _ _ (.addText "a") .empty (by simp [Edit.Known, Edit.mentions]) (by rfl)
  have command : Reachable ⟨#[{ kind := .text, text := some "a" },
      { kind := .command, text := some "b" }]⟩ :=
    .step _ _ (.addNamed .command "b") text (by simp [Edit.Known, Edit.mentions]) (by rfl)
  have body : Reachable ⟨#[{ kind := .text, text := some "a" },
      { kind := .command, text := some "b" }, { kind := .text, text := some "c" }]⟩ :=
    .step _ _ (.addText "c") command (by simp [Edit.Known, Edit.mentions]) (by rfl)
  have reachable : Reachable unrelated := .step _ _ (.setCommand (some 1) (.chain (some 2))) body
    (by simp [Edit.Known, Edit.mentions, Edit.heads, size]) (by rfl)
  have root : unrelated.Root 1 := ⟨by decide, rfl, rfl⟩
  have accepted : (world.setVariable {} (some "v") (some 1) true).1 = .ok := by decide
  have stores := setVariable_stores reachable rfl root accepted
  have apart : ∀ previous, ¬ world.Absorbs (some "v") 1 previous := by
    rintro previous ⟨⟨⟩, different, reached⟩
    have isRoot : unrelated.Root 0 := ⟨by decide, rfl, rfl⟩
    exact different (isRoot.reached reachable.sound.linked reached)
  have spares := stores.2.1.mpr apart
  exact ⟨reachable, stores.1, spares, (stores.2.2.1 spares).trans (by rfl)⟩

/-- A text is the value of a name, a second one is put before it and stored under the name:
what is stored has lost the text behind it. -/
theorem absorbed_value_lost :
    let steps : List Step := [.addText "a", .request (.cache (some "v") (some 0) false),
      .addText "b", .request (.insert (some 0) (some 1))]
    ∃ before after, session? {} 1 {} steps =
        some ([.element (some 0), .status .ok, .element (some 1), .status .ok], before) ∧
      session? {} 1 before [.request (.cache (some "v") (some 1) false)] =
        some ([.status .ok], after) ∧
      Reachable before.store ∧ before.context.pins = [] ∧ before.store.Root 1 ∧
      before.store.chain (some 1) = .ok [1, 0] ∧
      after.context.chainOf (some "v") = some 1 ∧ after.store.chain (some 1) = .ok [1] := by
  intro steps
  have text : Reachable ⟨#[{ kind := .text, text := some "a" }]⟩ :=
    .step _ _ (.addText "a") .empty (by simp [Edit.Known, Edit.mentions]) (by rfl)
  have texts := Reachable.step _ _ (.addText "b") text (by simp [Edit.Known, Edit.mentions])
    (by rfl)
  have linked := Reachable.step _ _ (.insert (some 0) (some 1)) texts
    (by simp [Edit.Known, Edit.mentions, size, add]) (by rfl)
  exact ⟨_, _, rfl, rfl, linked, rfl, ⟨by decide, rfl, rfl⟩, rfl, rfl, rfl⟩

end World

end Stencil
