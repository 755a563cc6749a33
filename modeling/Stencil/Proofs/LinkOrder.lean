import Mathlib.Logic.Relation
import Mathlib.Order.WellFoundedSet

/-!
Relations without circles. New edges that all lead to one target close a circle
exactly if the target already leads back to one of their sources. On finitely
many numbers a relation without circles can be followed only so far.
-/

namespace Stencil

open Relation

variable {Point : Type} {edge : Point → Point → Prop}

def Circular (edge : Point → Point → Prop) : Prop := ∃ point, TransGen edge point point

def Joined (edge : Point → Point → Prop) (source : Point → Prop) (target : Point) :
    Point → Point → Prop :=
  fun before after => edge before after ∨ (source before ∧ after = target)

theorem circular_of_subset {other : Point → Point → Prop}
    (included : ∀ before after, edge before after → other before after)
    (circular : Circular edge) : Circular other := by
  obtain ⟨point, round⟩ := circular
  exact ⟨point, TransGen.mono included _ _ round⟩

/-- A walk along joined edges uses old edges only, or it takes new edges, first
from some source and last into the target. -/
theorem joined_walk {source : Point → Prop} {target before after : Point}
    (walk : TransGen (Joined edge source target) before after) :
    TransGen edge before after ∨
      ∃ point, source point ∧ ReflTransGen edge before point ∧ ReflTransGen edge target after := by
  -- On the last edge: a new one leads to the target, so the walk starts afresh there.
  induction walk with
  | single step =>
      rcases step with old | ⟨isSource, rfl⟩
      · exact Or.inl (.single old)
      · exact Or.inr ⟨before, isSource, .refl, .refl⟩
  | tail _ step ih =>
      rcases step with old | ⟨isSource, rfl⟩
      · rcases ih with oldWalk | ⟨point, pointSource, reach, rest⟩
        · exact Or.inl (oldWalk.tail old)
        · exact Or.inr ⟨point, pointSource, reach, rest.tail old⟩
      · rcases ih with oldWalk | ⟨point, pointSource, reach, _⟩
        · exact Or.inr ⟨_, isSource, oldWalk.to_reflTransGen, .refl⟩
        · exact Or.inr ⟨point, pointSource, reach, .refl⟩

theorem joined_circular_iff {source : Point → Prop} {target : Point}
    (straight : ¬ Circular edge) :
    Circular (Joined edge source target) ↔
      ∃ point, source point ∧ ReflTransGen edge target point := by
  constructor
  · rintro ⟨start, round⟩
    rcases joined_walk round with old | ⟨point, isSource, reach, rest⟩
    · exact absurd ⟨start, old⟩ straight
    · exact ⟨point, isSource, rest.trans reach⟩
  · rintro ⟨point, isSource, back⟩
    have kept : ReflTransGen (Joined edge source target) target point :=
      ReflTransGen.mono (fun _ _ old => Or.inl old) _ _ back
    exact ⟨point, TransGen.head' (Or.inr ⟨isSource, rfl⟩) kept⟩

theorem joined_straight {source target : Point} (straight : ¬ Circular edge)
    (apart : ¬ ReflTransGen edge target source) :
    ¬ Circular (Joined edge (· = source) target) := by
  rw [joined_circular_iff straight]
  rintro ⟨point, rfl, back⟩
  exact apart back

/-- The points before a point can be exhausted, if all that have a point after
them lie below a bound. -/
theorem straight_wellFounded {step : Nat → Nat → Prop} (bound : Nat)
    (bounded : ∀ before after, step before after → before < bound)
    (straight : ¬ Circular step) : WellFounded step := by
  have strict : IsStrictOrder Nat (TransGen step) :=
    { irrefl := fun point round => straight ⟨point, round⟩
      trans := fun _ _ _ first second => first.trans second }
  -- Below the bound there are finitely many points, and every step goes off from one.
  have inside : Set.WellFoundedOn {point | point < bound} (TransGen step) :=
    (Set.finite_lt_nat bound).wellFoundedOn
  have reach : ∀ point, point < bound → Acc step point := by
    intro point
    induction point using (Set.wellFoundedOn_iff.mp inside).induction with
    | h point ih =>
        intro below
        refine ⟨point, fun before edge => ?_⟩
        exact ih before ⟨.single edge, bounded _ _ edge, below⟩ (bounded _ _ edge)
  exact ⟨fun point => ⟨point, fun before edge => reach before (bounded _ _ edge)⟩⟩

end Stencil
