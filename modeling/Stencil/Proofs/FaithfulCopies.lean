import Stencil.Proofs.CopyTurns
import Stencil.Proofs.ListSplices
import Stencil.Proofs.RootedChains
import Stencil.Proofs.SecludedSessions
import Stencil.Proofs.UntouchedRegion

/-!
Copies. A copy of an element, or of it and all that follows, reads as what it was made of:
the same nodes at the same depths in the same order. It stands by itself in new elements,
and no old one has changed. So no link leads from the one to the other, and whatever is
done with the copy alone leaves the original as it is, as what is done with the original
alone leaves the copy.
-/

namespace Stencil.Store

open Relation World

section Reading

variable {store copied : Store} {owner before : Option ElementId} {head id : ElementId}
variable {forest : Forest} {ids : List ElementId}

theorem Planted.reached (planted : store.Planted owner before (some head) forest ids)
    (member : id ∈ ids) : ReflTransGen store.Leads head id := by
  induction forest generalizing owner before head ids with
  | nil => cases planted
  | cons node body rest ihBody ihRest =>
      cases planted with
      | cons _ _ next child _ _ _ _ bodyIds restIds found bodyPlanted restPlanted =>
          have links := links_of_cell found
          rcases List.mem_cons.mp member with same | deeper
          · exact same ▸ .refl
          rcases List.mem_append.mp deeper with below | behind
          · cases child with
            | none =>
                cases bodyPlanted
                cases below
            | some first => exact .head (Or.inr links.2.2.1) (ihBody bodyPlanted below)
          · cases next with
            | none =>
                cases restPlanted
                cases behind
            | some after => exact .head (Or.inl links.1) (ihRest restPlanted behind)

end Reading

/-- The store with a copy more, which reads as the forest and begins with the first new
element. -/
structure Faithful (store copied : Store) (forest : Forest) : Prop where
  kept : ∀ id, id < store.size → copied.get? id = store.get? id
  linked : copied.Linked
  acyclic : copied.Acyclic
  consistent : store.Consistent → copied.Consistent
  root : copied.Root store.size
  reads : copied.forest? (some store.size) = some forest
  new : ∀ id, copied.Reached [store.size] id ↔ store.size ≤ id ∧ id < copied.size
  copy : Confines copied fun id : Nat => store.size ≤ id
  original : Confines copied fun id : Nat => id < store.size ∨ copied.size ≤ id

section Faithful

variable {store copied : Store} {forest : Forest} {ids : List ElementId} {id : ElementId}

variable (linked : store.Linked) (acyclic : store.Acyclic)
include linked acyclic

/-- A chain that was put into all of the new cells is a faithful copy of its forest. -/
theorem Grown.faithful (grows : Grown store copied (some store.size) forest ids)
    (proper : store.Sound → forest.Proper) : Faithful store copied forest := by
  have grownLinked := grown_linked grows linked
  have cells : ∀ id : Nat, id ∈ ids ↔ store.size ≤ id ∧ id < copied.size := fun id =>
    ⟨fun member => ⟨grows.fresh id member, grows.planted.inside id member⟩,
      fun new => grows.all id new.1 new.2⟩
  have enclosed := grows.planted.enclosed
  have copyRealm : copied.Realm fun id : Nat => store.size ≤ id := by
    refine ⟨enclosed_of_inward fun id cell new found => ?_, fun id later => ?_⟩
    · have member := grows.all id new (inside_of_get? found)
      exact (enclosed.inward member found).mono grows.fresh
    · exact Nat.le_trans (Nat.le_of_lt grows.start_inside) later
  have restRealm : copied.Realm fun id : Nat => id < store.size ∨ copied.size ≤ id := by
    refine ⟨enclosed_of_inward fun id cell old found => ?_, fun id later => Or.inr later⟩
    have outside : id ∉ ids := fun member => by
      have new := (cells id).mp member
      omega
    refine ((enclosed.beyond grownLinked).inward outside found).mono fun other apart => ?_
    have := mt (cells other).mpr apart
    omega
  refine ⟨grows.kept, grownLinked, grows.acyclic linked acyclic, fun consistent => ?_, grows.root,
    grows.planted.forest?, fun id => ?_, confines_realm copyRealm, confines_realm restRealm⟩
  · exact (consistent.sound.grow grows (proper consistent.sound)).consistent
  · rw [← cells, reached_single]
    constructor
    · exact fun walk => enclosed.reached grows.planted.start_links.1 (reached_single.mpr walk)
    · exact grows.planted.reached

end Faithful

/-- A copy of an element and a copy of all that follows as well come to an end, each by
itself and as the loop that it stands for, and each is faithful. -/
theorem copies_faithful {store : Store} (linked : store.Linked) (acyclic : store.Acyclic)
    {id : ElementId} (inside : id < store.size) :
    ∃ tree forest, store.tree? id = some tree ∧ store.forest? (some id) = some forest ∧
    (∃ copied, store.copy id = .ok (copied, some store.size) ∧ Faithful store copied tree) ∧
    (∃ copied, Copies store id (copied, store.size) ∧ Faithful store copied tree) ∧
    (∃ copied, store.copyAll (some id) = .ok (copied, some store.size) ∧
      Faithful store copied forest) ∧
    ∃ copied, CopiesAll store (some id) none none (copied, some store.size) ∧
      Faithful store copied forest := by
  obtain ⟨forest, ids, planted⟩ := linked.exists_planted acyclic id inside
  cases planted with
  | cons _ _ next child _ node body rest bodyIds restIds found bodyPlanted restPlanted =>
      have whole := Planted.cons _ _ next child id node body rest bodyIds restIds found bodyPlanted
        restPlanted
      have forestRead := whole.forest?
      have treeRead : store.tree? id = some (.cons node body .nil) := by
        simp [tree?, found, bodyPlanted.forest?]
      have treeProper : store.Sound → (Forest.cons node body .nil).Proper := fun sound =>
        sound.tree_proper treeRead
      have forestProper : store.Sound → (Forest.cons node body rest).Proper := fun sound =>
        sound.forestFor_proper _ _ forestRead
      refine ⟨_, _, treeRead, forestRead, ?_, ?_, ?_, ?_⟩
      · have stands := (plant_grown store (.cons node body .nil)).faithful linked acyclic treeProper
        exact ⟨_, by rw [copy, treeRead]; rfl, stands⟩
      · obtain ⟨copied, cells, copies, stands⟩ := copies_tree found bodyPlanted
        exact ⟨copied, copies, stands.grown.faithful linked acyclic treeProper⟩
      · have stands := (plant_grown store (.cons node body rest)).faithful linked acyclic
          forestProper
        exact ⟨_, by rw [copyAll, forestRead]; rfl, stands⟩
      · obtain ⟨copied, link, cells, stands, begins, copies⟩ :=
          @copiesAll_chain store _ _ _ _ _ whole none (by simp) (by simp)
        obtain rfl := begins id rfl
        exact ⟨copied, copies none, stands.grown.faithful linked acyclic forestProper⟩

/-- A command is copied with the text in its body, and then with the text behind it too. -/
theorem copies_faithful_woven :
    woven.Linked ∧ woven.Acyclic ∧ 3 < woven.size ∧
    (∃ copied, woven.copy 3 = .ok (copied, some 7) ∧
      Faithful woven copied (.cons ⟨.command, some "d", {}⟩
        (.cons ⟨.text, some "e", {}⟩ .nil .nil) .nil)) ∧
    ∃ copied, CopiesAll woven (some 3) none none (copied, some 7) ∧
      Faithful woven copied (.cons ⟨.command, some "d", {}⟩
        (.cons ⟨.text, some "e", {}⟩ .nil .nil) (.cons ⟨.text, some "f", {}⟩ .nil .nil)) := by
  obtain ⟨linked, acyclic⟩ := woven_straight
  have inside : 3 < woven.size := by decide
  obtain ⟨tree, forest, treeRead, forestRead, copies, _, _, copiesAll⟩ :=
    copies_faithful linked acyclic inside
  obtain rfl := Option.some.inj (treeRead.symm.trans (by rfl))
  obtain rfl := Option.some.inj (forestRead.symm.trans (by rfl))
  exact ⟨linked, acyclic, inside, copies, copiesAll⟩

end Stencil.Store
