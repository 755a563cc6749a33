import Stencil.Proofs.CommandMeaning

/-!
Fuel only bounds how far an evaluation gets. What it comes to with some fuel, it comes
to with more. So one run that ends says what all longer ones yield.
-/

namespace Stencil.World

structure Lasts (settings : Settings) (fuel : Nat) : Prop where
  render : ∀ world start toEnd rendered, render settings fuel world start toEnd = some rendered →
    render settings (fuel + 1) world start toEnd = some rendered
  follow : ∀ world id toEnd rendered, renderFrom settings fuel world id toEnd = some rendered →
    renderFrom settings (fuel + 1) world id toEnd = some rendered
  one : ∀ world id rendered, renderOne settings fuel world id = some rendered →
    renderOne settings (fuel + 1) world id = some rendered
  value : ∀ world name rendered, renderCached settings fuel world name = some rendered →
    renderCached settings (fuel + 1) world name = some rendered
  call : ∀ world handler element replied, call settings fuel world handler element = some replied →
    call settings (fuel + 1) world handler element = some replied
  run : ∀ world element actions output replied,
    run settings fuel world element actions output = some replied →
    run settings (fuel + 1) world element actions output = some replied

section Lasts

variable {settings : Settings} {fuel : Nat} (below : Lasts settings fuel)
include below

theorem render_lasts (world : World) (start : Option ElementId) (toEnd : Bool)
    (rendered : Rendered) (ran : render settings (fuel + 1) world start toEnd = some rendered) :
    render settings (fuel + 2) world start toEnd = some rendered := by
  cases start with
  | none => exact ran
  | some id =>
      simp only [World.render] at ran ⊢
      split
      · rename_i reached
        rwa [if_pos reached] at ran
      · rename_i left
        rw [if_neg left] at ran
        obtain ⟨inner, follows, done⟩ := Option.bind_eq_some_iff.mp ran
        exact Option.bind_eq_some_iff.mpr ⟨inner, below.follow _ _ _ _ follows, done⟩

theorem renderFrom_lasts (world : World) (id : ElementId) (toEnd : Bool) (rendered : Rendered)
    (ran : renderFrom settings (fuel + 1) world id toEnd = some rendered) :
    renderFrom settings (fuel + 2) world id toEnd = some rendered := by
  simp only [renderFrom] at ran ⊢
  obtain ⟨⟨output, between⟩, first, rest⟩ := Option.bind_eq_some_iff.mp ran
  refine Option.bind_eq_some_iff.mpr ⟨(output, between), below.one _ _ _ first, ?_⟩
  cases output with
  | error fault => exact rest
  | ok output =>
      simp only at rest ⊢
      split at rest
      · exact rest
      · obtain ⟨later, follows, done⟩ := Option.bind_eq_some_iff.mp rest
        exact Option.bind_eq_some_iff.mpr ⟨later, below.follow _ _ _ _ follows, done⟩

theorem renderOne_lasts (world : World) (id : ElementId) (rendered : Rendered)
    (ran : renderOne settings (fuel + 1) world id = some rendered) :
    renderOne settings (fuel + 2) world id = some rendered := by
  simp only [renderOne] at ran ⊢
  split at ran
  · exact ran
  · exact ran
  · split at ran
    · obtain ⟨inner, renders, done⟩ := Option.bind_eq_some_iff.mp ran
      exact Option.bind_eq_some_iff.mpr ⟨inner, below.render _ _ _ _ renders, done⟩
    · exact below.value _ _ _ ran
  · split at ran
    · exact ran
    · obtain ⟨replied, calls, done⟩ := Option.bind_eq_some_iff.mp ran
      exact Option.bind_eq_some_iff.mpr ⟨replied, below.call _ _ _ _ calls, done⟩

theorem renderCached_lasts (world : World) (name : Option String) (rendered : Rendered)
    (ran : renderCached settings (fuel + 1) world name = some rendered) :
    renderCached settings (fuel + 2) world name = some rendered := by
  simp only [renderCached] at ran ⊢
  split at ran
  · exact ran
  · split
    · rename_i marked
      rwa [if_pos marked] at ran
    · rename_i unmarked
      rw [if_neg unmarked] at ran
      obtain ⟨inner, renders, done⟩ := Option.bind_eq_some_iff.mp ran
      exact Option.bind_eq_some_iff.mpr ⟨inner, below.render _ _ _ _ renders, done⟩

theorem call_lasts (world : World) (handler : Handler) (element : Option ElementId)
    (replied : Except Trouble Reply × World)
    (ran : call settings (fuel + 1) world handler element = some replied) :
    call settings (fuel + 2) world handler element = some replied := by
  cases handler with
  | inert => exact ran
  | script actions => exact below.run _ _ _ _ _ ran

theorem run_lasts (world : World) (element : Option ElementId) (actions : List Action)
    (output : String) (replied : Except Trouble Reply × World)
    (ran : run settings (fuel + 1) world element actions output = some replied) :
    run settings (fuel + 2) world element actions output = some replied := by
  cases actions with
  | nil => exact ran
  | cons action rest =>
      simp only [World.run] at ran ⊢
      split at ran
      · exact ran
      · exact ran
      · exact below.run _ _ _ _ _ ran
      · exact ran
      · obtain ⟨⟨added, between⟩, renders, rest⟩ := Option.bind_eq_some_iff.mp ran
        refine Option.bind_eq_some_iff.mpr
          ⟨(added, between), below.render _ _ _ _ renders, ?_⟩
        cases added with
        | error fault => exact rest
        | ok added => exact below.run _ _ _ _ _ rest

end Lasts

theorem lasts (settings : Settings) (fuel : Nat) : Lasts settings fuel := by
  induction fuel with
  | zero =>
      constructor <;> intros <;> rename_i ran <;> cases ran
  | succ fuel below =>
      exact ⟨render_lasts below, renderFrom_lasts below, renderOne_lasts below,
        renderCached_lasts below, call_lasts below, run_lasts below⟩

/-- One run that ends says what there is to yield. -/
theorem yields_of_some {Value : Type} {step : Nat → Option Value} {value : Value} {fuel : Nat}
    (lasts : ∀ fuel, step fuel = some value → step (fuel + 1) = some value)
    (ran : step fuel = some value) : Yields step value := by
  refine ⟨fuel, fun more enough => ?_⟩
  induction enough with
  | refl => exact ran
  | step _ ih => exact lasts _ ih

end Stencil.World
