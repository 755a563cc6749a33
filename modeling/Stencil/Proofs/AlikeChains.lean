import Stencil.Proofs.SufficientFuel
import Stencil.Proofs.UntouchedRegion

/-!
Where a document stands does not matter. Two chains of one store that stand for the same
forest, in a region that the evaluation leaves alone, render to the same output and lead
to the very same world, with the same fuel. By induction on the fuel, one lemma for each
function of the evaluation that is given an element of the document.
-/

namespace Stencil

namespace Store

/-- The forest stands from the start on, all of it in the region. -/
def Lies (store : Store) (region : ElementId → Prop) (start : Option ElementId)
    (forest : Forest) : Prop :=
  ∃ owner before ids, store.Planted owner before start forest ids ∧ ∀ id ∈ ids, region id

structure Tells (store : Store) (region : ElementId → Prop) (id : ElementId) (node : Node)
    (body : Forest) : Prop where
  cell : store.node? id = some node
  inside : region id
  below : store.Lies region (store.child id) body

section Lies

variable {store changed : Store} {region : ElementId → Prop} {start : Option ElementId}
variable {id : ElementId} {node : Node} {forest body rest : Forest}

theorem Lies.kept (lies : store.Lies region start forest)
    (cells : ∀ id, region id → changed.get? id = store.get? id) :
    changed.Lies region start forest := by
  obtain ⟨owner, before, ids, planted, inside⟩ := lies
  exact ⟨owner, before, ids, planted.kept fun id member => cells id (inside id member), inside⟩

theorem Lies.nil (store : Store) (region : ElementId → Prop) : store.Lies region none .nil :=
  ⟨none, none, [], .nil none none, by simp⟩

theorem Grown.lies {ids : List ElementId} (region : ElementId → Prop)
    (grows : Grown store changed start forest ids) :
    changed.Lies (fun id => region id ∨ id ∈ ids) start forest :=
  ⟨none, none, ids, grows.planted, fun _ => Or.inr⟩

theorem Lies.of_nil (lies : store.Lies region start .nil) : start = none := by
  obtain ⟨_, _, _, planted, _⟩ := lies
  cases planted
  rfl

theorem Lies.read (lies : store.Lies region start forest) : store.forest? start = some forest := by
  obtain ⟨_, _, _, planted, _⟩ := lies
  exact planted.forest?

theorem Lies.first (lies : store.Lies region start (.cons node body rest)) :
    ∃ id, start = some id ∧ store.Tells region id node body ∧
      store.Lies region (store.next id) rest := by
  obtain ⟨owner, before, ids, planted, inside⟩ := lies
  cases planted with
  | cons _ _ next child id _ _ _ bodyIds restIds found below beside =>
      obtain ⟨isNext, _, isChild, _⟩ := links_of_cell found
      refine ⟨id, rfl, ⟨by simp [node?, found], inside id List.mem_cons_self, ?_⟩, ?_⟩
      · exact ⟨some id, none, bodyIds, isChild ▸ below, fun other member =>
          inside other (List.mem_cons_of_mem id (List.mem_append_left restIds member))⟩
      · exact ⟨owner, some id, restIds, isNext ▸ beside, fun other member =>
          inside other (List.mem_cons_of_mem id (List.mem_append_right bodyIds member))⟩

theorem Lies.tells (lies : store.Lies region (some id) (.cons node body rest)) :
    store.Tells region id node body ∧ store.Lies region (store.next id) rest := by
  obtain ⟨_, isId, tells, beside⟩ := lies.first
  cases isId
  exact ⟨tells, beside⟩

theorem Tells.kind? (tells : store.Tells region id node body) :
    store.kind? id = some node.kind := by
  obtain ⟨cell, found, isNode⟩ := Option.map_eq_some_iff.mp tells.cell
  simp [Store.kind?, found, ← isNode]

theorem Tells.text (tells : store.Tells region id node body) : store.text id = node.text := by
  obtain ⟨cell, found, isNode⟩ := Option.map_eq_some_iff.mp tells.cell
  simp [Store.text, found, ← isNode]

theorem Tells.properties (tells : store.Tells region id node body) :
    store.properties id = node.properties := by
  obtain ⟨cell, found, isNode⟩ := Option.map_eq_some_iff.mp tells.cell
  simp [Store.properties, found, ← isNode]

theorem Tells.kept (tells : store.Tells region id node body)
    (cells : ∀ id, region id → changed.get? id = store.get? id) :
    changed.Tells region id node body := by
  have same := cells id tells.inside
  refine ⟨?_, tells.inside, ?_⟩
  · rw [node?, same]
    exact tells.cell
  · rw [(links_of_get? same).2.2.1]
    exact tells.below.kept cells

end Lies

end Store

namespace World

open Store

section Alike

variable {settings : Settings} {region : ElementId → Prop} {world after : World}
variable {id other : ElementId} {node : Node} {body : Forest}

theorem render_untouched (aloof : Aloof region world) {fuel : Nat} {start : Option ElementId}
    {toEnd : Bool} {rendered : Rendered}
    (ran : render settings fuel world start toEnd = some rendered) :
    Untouched region world rendered.2 :=
  (untouched_upheld region settings).keeps_through fuel world (.render start toEnd) rendered.2 aloof
    trivial (by simp [Stage.after, ran])

theorem renderOne_untouched (aloof : Aloof region world) {fuel : Nat} {rendered : Rendered}
    (ran : renderOne settings fuel world id = some rendered) : Untouched region world rendered.2 :=
  (untouched_upheld region settings).keeps_through fuel world (.one id) rendered.2 aloof trivial
    (by simp [Stage.after, ran])

/-- Elements that tell the same ask a writing action for the same. -/
theorem perform_alike (settings : Settings) (tells : world.store.Tells region id node body)
    (otherTells : world.store.Tells region other node body) {action : Action}
    (writes : action.Writes) :
    (∃ text, world.perform settings (some id) action = (.ok (.add text), world) ∧
      world.perform settings (some other) action = (.ok (.add text), world)) ∨
    ∃ start otherStart forest notices,
      world.perform settings (some id) action =
        (.ok (.render start true), note settings notices world) ∧
      world.perform settings (some other) action =
        (.ok (.render otherStart true), note settings notices world) ∧
      world.store.Lies region start forest ∧ world.store.Lies region otherStart forest := by
  cases writes with
  | text text => exact Or.inl ⟨text, rfl, rfl⟩
  | propertyWithin key before after =>
      left
      simp only [perform, onElement, tells.properties, otherTells.properties]
      split <;> exact ⟨_, rfl, rfl⟩
  | content =>
      right
      have answers : ∀ place, world.store.Tells region place node body →
          world.perform settings (some place) .content =
            if settings.errorChecks && some node.kind != some .command then
              (.ok (.render none true),
                note settings [.kindDiffers (shown node.text) .command] world)
            else (.ok (.render (world.store.child place) true), note settings [] world) := by
        intro place tells
        simp only [perform, World.bodyOf, Store.bodyOf, present, ok_bind, tells.kind?, tells.text]
        cases settings.errorChecks && some node.kind != some Kind.command <;> rfl
      rw [answers id tells, answers other otherTells]
      split
      · exact ⟨none, none, .nil, _, rfl, rfl, .nil _ _, .nil _ _⟩
      · exact ⟨_, _, body, _, rfl, rfl, tells.below, otherTells.below⟩

structure AlikeFor (settings : Settings) (region : ElementId → Prop) (fuel : Nat) : Prop where
  render : ∀ world start otherStart forest, Aloof region world →
    world.store.Lies region start forest → world.store.Lies region otherStart forest →
    render settings fuel world start true = render settings fuel world otherStart true
  follow : ∀ world id other forest, Aloof region world →
    world.store.Lies region (some id) forest → world.store.Lies region (some other) forest →
    renderFrom settings fuel world id true = renderFrom settings fuel world other true
  one : ∀ world id other node body, Aloof region world →
    world.store.Tells region id node body → world.store.Tells region other node body →
    renderOne settings fuel world id = renderOne settings fuel world other
  call : ∀ world handler id other node body, Aloof region world → handler.Writes →
    world.store.Tells region id node body → world.store.Tells region other node body →
    call settings fuel world handler (some id) = call settings fuel world handler (some other)
  run : ∀ world actions output id other node body, Aloof region world →
    (∀ action ∈ actions, action.Writes) →
    world.store.Tells region id node body → world.store.Tells region other node body →
    run settings fuel world (some id) actions output =
      run settings fuel world (some other) actions output

section Fueled

variable {fuel : Nat} (below : AlikeFor settings region fuel)
include below

theorem render_alike (world : World) (start otherStart : Option ElementId) (forest : Forest)
    (aloof : Aloof region world) (lies : world.store.Lies region start forest)
    (otherLies : world.store.Lies region otherStart forest) :
    render settings (fuel + 1) world start true =
      render settings (fuel + 1) world otherStart true := by
  cases forest with
  | nil => rw [lies.of_nil, otherLies.of_nil]
  | cons node body rest =>
      obtain ⟨id, rfl, _⟩ := lies.first
      obtain ⟨other, rfl, _⟩ := otherLies.first
      have deeper : Aloof region world.deeper := aloof.of_context rfl (fun _ known => known) rfl
      simp only [render, below.follow world.deeper id other _ deeper lies otherLies]

theorem renderFrom_alike (world : World) (id other : ElementId) (forest : Forest)
    (aloof : Aloof region world) (lies : world.store.Lies region (some id) forest)
    (otherLies : world.store.Lies region (some other) forest) :
    renderFrom settings (fuel + 1) world id true =
      renderFrom settings (fuel + 1) world other true := by
  cases forest with
  | nil => cases lies.of_nil
  | cons node body rest =>
      obtain ⟨tells, beside⟩ := lies.tells
      obtain ⟨otherTells, otherBeside⟩ := otherLies.tells
      simp only [renderFrom, ← below.one world id other node body aloof tells otherTells]
      apply Option.bind_congr
      rintro ⟨output, between⟩ ran
      cases output with
      | error fault => rfl
      | ok output =>
          have left := renderOne_untouched aloof ran
          have onward := beside.kept (left.cells aloof)
          have otherOnward := otherBeside.kept (left.cells aloof)
          have same := links_of_get? (left.cells aloof id tells.inside)
          have otherSame := links_of_get? (left.cells aloof other otherTells.inside)
          simp only [if_true, same.1, otherSame.1]
          cases rest with
          | nil => rw [onward.of_nil, otherOnward.of_nil]
          | cons next nextBody later =>
              obtain ⟨next, isNext, _⟩ := onward.first
              obtain ⟨otherNext, isOther, _⟩ := otherOnward.first
              rw [isNext] at onward ⊢
              rw [isOther] at otherOnward ⊢
              simp only [below.follow between next otherNext _ (left.aloof aloof) onward
                otherOnward]

theorem renderOne_alike (world : World) (id other : ElementId) (node : Node) (body : Forest)
    (aloof : Aloof region world) (tells : world.store.Tells region id node body)
    (otherTells : world.store.Tells region other node body) :
    renderOne settings (fuel + 1) world id = renderOne settings (fuel + 1) world other := by
  simp only [renderOne, tells.kind?, otherTells.kind?, tells.text, otherTells.text]
  cases node.kind with
  | text => rfl
  | «variable» =>
      have bodies := tells.below
      have otherBodies := otherTells.below
      cases body with
      | nil => rw [bodies.of_nil, otherBodies.of_nil]
      | cons first firstBody rest =>
          obtain ⟨child, isChild, _⟩ := bodies.first
          obtain ⟨otherChild, isOther, _⟩ := otherBodies.first
          rw [isChild] at bodies ⊢
          rw [isOther] at otherBodies ⊢
          simp only [← below.render world _ _ _ aloof bodies otherBodies]
          apply Option.bind_congr
          rintro ⟨output, between⟩ ran
          cases output with
          | error fault => rfl
          | ok output =>
              -- The copies are copies of one forest.
              have left := render_untouched aloof ran
              have standing := (tells.kept (left.cells aloof)).below.read
              have otherStanding := (otherTells.kept (left.cells aloof)).below.read
              simp only [concludeAssignment, cacheCopy, copyAll, standing, otherStanding]
  | command =>
      cases isHandler : world.context.commands.get? node.text with
      | none => rfl
      | some handler =>
          have writes := aloof.commands _ _ isHandler
          simp only [below.call world handler id other node body aloof writes tells otherTells]

theorem call_alike (world : World) (handler : Handler) (id other : ElementId) (node : Node)
    (body : Forest) (aloof : Aloof region world) (writes : handler.Writes)
    (tells : world.store.Tells region id node body)
    (otherTells : world.store.Tells region other node body) :
    call settings (fuel + 1) world handler (some id) =
      call settings (fuel + 1) world handler (some other) := by
  cases handler with
  | inert => rfl
  | script actions =>
      exact below.run world actions "" id other node body aloof writes tells otherTells

theorem run_alike (world : World) (actions : List Action) (output : String) (id other : ElementId)
    (node : Node) (body : Forest) (aloof : Aloof region world)
    (writes : ∀ action ∈ actions, action.Writes) (tells : world.store.Tells region id node body)
    (otherTells : world.store.Tells region other node body) :
    run settings (fuel + 1) world (some id) actions output =
      run settings (fuel + 1) world (some other) actions output := by
  cases actions with
  | nil => rfl
  | cons action rest =>
      have later : ∀ action ∈ rest, action.Writes := fun other member =>
        writes other (List.mem_cons_of_mem action member)
      rcases perform_alike settings tells otherTells (writes action List.mem_cons_self) with
        ⟨text, performed, otherPerformed⟩ |
        ⟨start, otherStart, forest, notices, performed, otherPerformed, lies, otherLies⟩
      · simp only [run, performed, otherPerformed]
        exact below.run world rest _ id other node body aloof later tells otherTells
      · have noted : Untouched region world _ := note_untouched settings world notices
        have quiet := noted.aloof aloof
        simp only [run, performed, otherPerformed,
          ← below.render (note settings notices world) start otherStart forest quiet lies otherLies]
        apply Option.bind_congr
        rintro ⟨added, between⟩ ran
        cases added with
        | error fault => rfl
        | ok added =>
            have left := render_untouched quiet ran
            exact below.run between rest _ id other node body (left.aloof quiet) later
              (tells.kept (left.cells quiet)) (otherTells.kept (left.cells quiet))

end Fueled

/-- What stands for the same forest leads to the same output and to the same world. -/
theorem alike (settings : Settings) (region : ElementId → Prop) (fuel : Nat) :
    AlikeFor settings region fuel := by
  induction fuel with
  | zero => constructor <;> intros <;> rfl
  | succ fuel below =>
      exact ⟨render_alike below, renderFrom_alike below, renderOne_alike below, call_alike below,
        run_alike below⟩

end Alike

end World

end Stencil
