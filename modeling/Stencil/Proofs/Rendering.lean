import Stencil.Proofs.CacheUpkeep
import Stencil.Proofs.CommandMeaning

/-!
Rendering realizes evaluation. Where a guarded forest stands in a world that
mirrors a state, rendering it gives the output of its evaluation and leads to a
world that mirrors the state behind it; the forest itself, which is guarded, is
left standing. The levels of depth that are left carry the induction, since both
the value of a variable and the content of a command are rendered one level below.
-/

namespace Stencil.World

open Store

structure Scene (settings : Settings) (meaning : Evaluation.Meaning) (world : World)
    (region : ElementId → Prop) (state : Evaluation.State) (expanding : Evaluation.Expanding)
    (levels : Nat) : Prop where
  mirrors : world.Mirrors state
  guards : world.Guards region
  speaks : Speaks world.context.commands meaning
  expands : world.context.expanding = expanding
  left : (settings.maxDepth - world.context.depth).toNat = levels

/-- With enough fuel the step gives the output, and the world behind it mirrors
the state. -/
def Realizes (world : World) (region : ElementId → Prop) (step : Nat → Option Rendered)
    (result : String × Evaluation.State) : Prop :=
  ∃ after, Yields step (.ok result.1, after) ∧ Passes world after region result.2

def Renders (settings : Settings) (meaning : Evaluation.Meaning) (levels : Nat) : Prop :=
  ∀ world region state expanding owner before start forest ids,
    Scene settings meaning world region state expanding levels →
    world.store.Planted owner before start forest ids → (∀ id ∈ ids, region id) →
    forest.Proper →
    Realizes world region (fun fuel => render settings fuel world start true)
      (Evaluation.evaluate meaning levels expanding state forest)

section Parts

variable {settings : Settings} {meaning : Evaluation.Meaning} {world after : World}
variable {region : ElementId → Prop} {state next : Evaluation.State}
variable {expanding : Evaluation.Expanding} {levels : Nat}

theorem Scene.passed (scene : Scene settings meaning world region state expanding levels)
    (passes : Passes world after region next) :
    Scene settings meaning after region next expanding levels where
  mirrors := passes.mirrors
  guards := passes.guards
  speaks := by
    rw [passes.undisturbed.commands]
    exact scene.speaks
  expands := passes.undisturbed.expanding.trans scene.expands
  left := by
    rw [passes.undisturbed.depth]
    exact scene.left

theorem cacheCopy_passes (settings : Settings) (mirrors : world.Mirrors state)
    (guards : world.Guards region) {owner before start : Option ElementId} {forest : Forest}
    {ids : List ElementId} (planted : world.store.Planted owner before start forest ids)
    (proper : forest.Proper) (name : Option String) (named : name.any isName = true) :
    ∃ after, world.cacheCopy settings name start = some after ∧
      Passes world after region (Evaluation.store state name forest) := by
  have grows := plant_grown world.store forest
  have grown := grow_passes mirrors guards grows
  have fresh : ∀ head, (world.store.plant none none forest).2 = some head →
      head ∉ world.context.chains ∧ head ∉ world.context.retired ∧ ¬ region head := by
    intro head isHead
    have stands := grows.planted
    rw [isHead] at stands
    exact mirrors.fresh guards (grows.fresh head stands.start_links.1)
  obtain ⟨after, ran, passes⟩ := setVariable_passes grown.mirrors grown.guards proper
    grows.planted fresh name (world.context.readOnly name) settings fun _ => named
  refine ⟨after, ?_, ?_⟩
  · simp only [cacheCopy, copyAll, planted.forest?]
    rw [ran]
  · rw [Evaluation.store, ← mirrors.readOnly name]
    exact grown.trans passes

theorem renderCached_realizes (below : Renders settings meaning levels)
    (scene : Scene settings meaning world region state expanding levels) (name : Option String) :
    Realizes world region (fun fuel => renderCached settings fuel world name)
      (match Evaluation.value? state name with
        | none => ("", state)
        | some forest =>
            if expanding.contains name then ("", state)
            else Evaluation.evaluate meaning levels (name :: expanding) state forest) := by
  have stays := Passes.refl scene.mirrors scene.guards
  rcases scene.mirrors.value name with ⟨noChain, noValue⟩ |
    ⟨chain, forest, ids, isChain, isValue, cached, proper, planted⟩
  · rw [noValue]
    refine ⟨world, .now fun fuel => ?_, stays⟩
    simp [renderCached, noChain]
  · simp only [isValue]
    by_cases marked : expanding.contains name = true
    · rw [if_pos marked]
      refine ⟨_, .now fun fuel => ?_, stays.note settings [.variableCircular (shown name)]⟩
      have expands : world.context.isExpanding name = true := by
        rw [Context.isExpanding, scene.expands]
        exact marked
      simp [renderCached, isChain, expands]
    · rw [if_neg marked]
      have unmarked : world.context.isExpanding name = false := by
        rw [Context.isExpanding, scene.expands]
        exact Bool.eq_false_iff.mpr marked
      -- The value is pinned as long as it is rendered, so it may be guarded as well.
      have pinned : Scene settings meaning (world.enterPin name (some chain))
          (fun id => region id ∨ id ∈ ids) state (name :: expanding) levels := by
        refine ⟨enterPin_mirrors scene.mirrors, enterPin_guards scene.guards planted scene.mirrors,
          scene.speaks, ?_, scene.left⟩
        change (if world.context.isExpanding name then _ else _) = _
        simp [unmarked, scene.expands]
      obtain ⟨after, yields, passes⟩ := below _ _ _ _ _ _ _ _ _ pinned planted
        (fun id member => Or.inr member) proper
      refine ⟨after.leavePin name (some chain), yields.next fun fuel ran => ?_,
        leavePin_passes scene.guards planted cached unmarked passes⟩
      simp [renderCached, isChain, unmarked, ran]

section Node

variable {id : ElementId} {node : Node} {before next child owner : Option ElementId}
variable {body : Forest} {bodyIds : List ElementId}

theorem variable_realizes (below : Renders settings meaning levels)
    (scene : Scene settings meaning world region state expanding levels)
    (found : world.store.get? id = some ⟨node, next, before, child, owner⟩)
    (isVariable : node.kind = .variable) (named : node.text.any isName = true)
    (inside : region id) (planted : world.store.Planted (some id) none child body bodyIds)
    (guarded : ∀ other ∈ bodyIds, region other) (proper : body.Proper) :
    Realizes world region (fun fuel => renderOne settings fuel world id)
      (Evaluation.node (Evaluation.evaluate meaning levels) meaning expanding state node body) := by
  have isKind : world.store.kind? id = some .variable := by simp [kind?, found, isVariable]
  have isText : world.store.text id = node.text := by simp [text, found]
  have isChild : world.store.child id = child := by simp [Store.child, found]
  cases child with
  | none =>
      cases planted
      obtain ⟨after, yields, passes⟩ := renderCached_realizes below scene node.text
      simp only [Evaluation.node, isVariable]
      refine ⟨after, yields.next fun fuel ran => ?_, passes⟩
      have step : renderOne settings (fuel + 1) world id =
          renderCached settings fuel world node.text := by
        simp [renderOne, isKind, isText, isChild]
      exact step.trans ran
  | some start =>
      obtain ⟨rendered, yields, passes⟩ := below _ _ _ _ _ _ _ _ _ scene planted guarded proper
      -- The body stands as before, so it is a copy of it that is cached.
      have stands := planted.kept fun other member =>
        passes.undisturbed.cells other (guarded other member)
      obtain ⟨after, copied, cachePasses⟩ :=
        cacheCopy_passes settings passes.mirrors passes.guards stands proper node.text named
      have stillChild : rendered.store.child id = some start :=
        (links_of_get? (passes.undisturbed.cells id inside)).2.2.1.trans isChild
      cases planted
      simp only [Evaluation.node, isVariable]
      refine ⟨after, yields.next fun fuel ran => ?_, passes.trans cachePasses⟩
      simp [renderOne, isKind, isText, isChild, ran, concludeAssignment, stillChild, copied]

-- What the actions add is read off the properties, so the world stays as it is.
theorem run_adds {actions : List Action} {text : String}
    (adds : Adds (world.store.properties id) actions text) (rest : List Action) (output : String)
    {result : Except Trouble Reply × World}
    (yields : Yields (fun fuel => run settings fuel world (some id) rest (output ++ text)) result) :
    Yields (fun fuel => run settings fuel world (some id) (actions ++ rest) output) result := by
  induction adds generalizing output with
  | nil => simpa using yields
  | text added actions text _ ih =>
      rw [← String.append_assoc] at yields
      refine (ih (output ++ added) yields).next fun fuel ran => ?_
      simp [run, perform, ran]
  | within key before after actions text _ ih =>
      rw [← String.append_assoc] at yields
      refine (ih _ yields).next fun fuel ran => ?_
      unfold propertyText at ran
      cases value : (world.store.properties id).get? key <;>
        simp_all [run, perform, onElement]

theorem performs_content (isKind : world.store.kind? id = some .command) :
    world.perform settings (some id) .content =
      (.ok (.render (world.store.child id) true), world) := by
  simp [perform, World.bodyOf, Store.bodyOf, present, isKind, note]

-- From the end of the script to its beginning, as each run needs the one behind it.
theorem call_wraps {handler : Handler} {write : Table String String → String → String}
    {opening closing : List Action} (wraps : Wraps handler write opening closing)
    (isKind : world.store.kind? id = some .command)
    (same : after.store.properties id = world.store.properties id) {content : String}
    (rendered : Yields (fun fuel => render settings fuel world (world.store.child id) true)
      (.ok content, after)) :
    Yields (fun fuel => call settings fuel world handler (some id))
      (.ok (.text (write (world.store.properties id) content)), after) := by
  obtain ⟨first, last, opens, closes, texts⟩ := wraps.texts (world.store.properties id)
  rw [← same] at closes
  have ends : Yields (fun fuel => run settings fuel after (some id) []
      ("" ++ first ++ content ++ last)) (.ok (.text ("" ++ first ++ content ++ last)), after) :=
    .now fun fuel => by simp [run]
  have closed := run_adds closes [] _ ends
  rw [List.append_nil] at closed
  have middle : Yields (fun fuel => run settings fuel world (some id) (.content :: closing)
      ("" ++ first)) (.ok (.text ("" ++ first ++ content ++ last)), after) := by
    refine rendered.both closed fun fuel ran others => ?_
    simp only [run, performs_content isKind, ran]
    exact others
  have whole := run_adds opens _ "" middle
  rw [texts, wraps.script]
  simp only [String.empty_append] at whole
  exact whole.next fun fuel ran => ran

theorem command_realizes (below : Renders settings meaning levels)
    (scene : Scene settings meaning world region state expanding levels)
    (found : world.store.get? id = some ⟨node, next, before, child, owner⟩)
    (isCommand : node.kind = .command) (inside : region id)
    (planted : world.store.Planted (some id) none child body bodyIds)
    (guarded : ∀ other ∈ bodyIds, region other) (proper : body.Proper) :
    Realizes world region (fun fuel => renderOne settings fuel world id)
      (Evaluation.node (Evaluation.evaluate meaning levels) meaning expanding state node body) := by
  have isKind : world.store.kind? id = some .command := by simp [kind?, found, isCommand]
  have isText : world.store.text id = node.text := by simp [text, found]
  have isChild : world.store.child id = child := by simp [Store.child, found]
  have stays := Passes.refl scene.mirrors scene.guards
  rcases scene.speaks node.text with ⟨missing, meaningless⟩ |
    ⟨handler, write, opening, closing, isHandler, isMeaning, wraps⟩
  · have result : Evaluation.node (Evaluation.evaluate meaning levels) meaning expanding state node
        body = ("", state) := by
      simp [Evaluation.node, isCommand, meaningless]
    rw [result]
    refine ⟨_, .now fun fuel => ?_, stays.note settings [.commandMissing (shown node.text)]⟩
    simp [renderOne, isKind, isText, missing]
  · obtain ⟨after, yields, passes⟩ := below _ _ _ _ _ _ _ _ _ scene planted guarded proper
    have result : Evaluation.node (Evaluation.evaluate meaning levels) meaning expanding state node
        body = (write node.properties (Evaluation.evaluate meaning levels expanding state body).1,
          (Evaluation.evaluate meaning levels expanding state body).2) := by
      simp [Evaluation.node, isCommand, isMeaning]
    have properties : world.store.properties id = node.properties := by
      simp [Store.properties, found]
    have stillProperties : after.store.properties id = node.properties := by
      rw [← properties, Store.properties, Store.properties, passes.undisturbed.cells id inside]
    have rendered : Yields (fun fuel => render settings fuel world (world.store.child id) true)
        (.ok (Evaluation.evaluate meaning levels expanding state body).1, after) := by
      rw [isChild]
      exact yields
    have called := call_wraps wraps isKind (stillProperties.trans properties.symm) rendered
    rw [result]
    refine ⟨after, called.next fun fuel ran => ?_, passes⟩
    simp [renderOne, isKind, isText, isHandler, ran, concludeCommand, Reply.rendered, properties]

theorem renderOne_realizes (below : Renders settings meaning levels)
    (scene : Scene settings meaning world region state expanding levels)
    (found : world.store.get? id = some ⟨node, next, before, child, owner⟩)
    (nodeProper : node.Proper) (inside : region id)
    (planted : world.store.Planted (some id) none child body bodyIds)
    (guarded : ∀ other ∈ bodyIds, region other) (proper : body.Proper) :
    Realizes world region (fun fuel => renderOne settings fuel world id)
      (Evaluation.node (Evaluation.evaluate meaning levels) meaning expanding state node body) := by
  match isKind : node.kind with
  | .text =>
      obtain ⟨text, isText⟩ := Option.isSome_iff_exists.mp nodeProper.worded
      have result : Evaluation.node (Evaluation.evaluate meaning levels) meaning expanding state
          node body = (Text.unescape text, state) := by
        simp [Evaluation.node, isKind, isText]
      rw [result]
      refine ⟨world, .now fun fuel => ?_, .refl scene.mirrors scene.guards⟩
      simp [renderOne, Store.kind?, Store.text, found, isKind, isText]
  | .variable =>
      obtain ⟨name, isText, valid⟩ := nodeProper.named (by simp [isKind])
      have named : node.text.any isName = true := by simp [isText, valid]
      exact variable_realizes below scene found isKind named inside planted guarded proper
  | .command => exact command_realizes below scene found isKind inside planted guarded proper

end Node

theorem renderFrom_realizes (below : Renders settings meaning levels)
    {owner before : Option ElementId} {id : ElementId} {forest : Forest} {ids : List ElementId}
    (scene : Scene settings meaning world region state expanding levels)
    (planted : world.store.Planted owner before (some id) forest ids)
    (guarded : ∀ other ∈ ids, region other) (proper : forest.Proper) :
    Realizes world region (fun fuel => renderFrom settings fuel world id true)
      (Evaluation.nodes (Evaluation.evaluate meaning levels) meaning expanding state forest) := by
  induction forest generalizing world state owner before id ids with
  | nil => cases planted
  | cons node body rest _ ih =>
      cases planted with
      | cons _ _ next child _ _ _ _ bodyIds restIds found bodyPlanted restPlanted =>
          obtain ⟨nodeProper, _, bodyProper, restProper⟩ := proper
          have inside : region id := guarded id List.mem_cons_self
          have inBody : ∀ other ∈ bodyIds, region other := fun other member =>
            guarded other (List.mem_cons_of_mem id (List.mem_append_left restIds member))
          have inRest : ∀ other ∈ restIds, region other := fun other member =>
            guarded other (List.mem_cons_of_mem id (List.mem_append_right bodyIds member))
          obtain ⟨between, yields, passes⟩ := renderOne_realizes below scene found nodeProper inside
            bodyPlanted inBody bodyProper
          -- The first node may have replaced any value, but nothing that is guarded.
          have stillNext : between.store.next id = next :=
            (links_of_get? (passes.undisturbed.cells id inside)).1.trans (links_of_cell found).1
          have stands := restPlanted.kept fun other member =>
            passes.undisturbed.cells other (inRest other member)
          cases next with
          | none =>
              cases stands
              refine ⟨between, yields.next fun fuel ran => ?_, passes⟩
              simp [renderFrom, ran, stillNext, Evaluation.nodes]
          | some following =>
              obtain ⟨after, restYields, restPasses⟩ :=
                ih (scene.passed passes) stands inRest restProper
              refine ⟨after, yields.both restYields fun fuel ran restRan => ?_,
                passes.trans restPasses⟩
              simp [renderFrom, ran, stillNext, restRan, Evaluation.nodes]

theorem deeper_scene (scene : Scene settings meaning world region state expanding (levels + 1)) :
    Scene settings meaning world.deeper region state expanding levels := by
  obtain ⟨mirrors, guards, speaks, expands, left⟩ := scene
  refine ⟨⟨mirrors.linked, mirrors.cached, mirrors.distinct, mirrors.retired⟩,
    ⟨guards.enclosed, guards.inside, guards.pinned⟩, speaks, expands, ?_⟩
  change (settings.maxDepth - ((world.context.depth + 1 : Nat) : Int)).toNat = levels
  omega

theorem shallower_passes (passes : Passes world.deeper after region next) :
    Passes world after.shallower region next := by
  obtain ⟨mirrors, guards, undisturbed⟩ := passes
  have depth : after.context.depth - 1 = world.context.depth := by
    rw [undisturbed.depth]
    exact Nat.add_sub_cancel ..
  exact ⟨⟨mirrors.linked, mirrors.cached, mirrors.distinct, mirrors.retired⟩,
    ⟨guards.enclosed, guards.inside, guards.pinned⟩,
    ⟨undisturbed.cells, undisturbed.commands, undisturbed.expanding, undisturbed.pins, depth⟩⟩

end Parts

/-- By induction on the levels that are left: what is rendered below an element
has one level less. -/
theorem render_realizes (settings : Settings) (meaning : Evaluation.Meaning) (levels : Nat) :
    Renders settings meaning levels := by
  induction levels with
  | zero =>
      intro world region state expanding owner before start forest ids scene planted _ _
      have stays := Passes.refl scene.mirrors scene.guards
      have reached : settings.maxDepth ≤ world.context.depth := by
        have left := scene.left
        omega
      cases start with
      | none => exact ⟨world, .now fun fuel => rfl, stays⟩
      | some id =>
          refine ⟨_, .now fun fuel => ?_, stays.note settings [.depthReached settings.maxDepth]⟩
          simp [render, reached, Evaluation.evaluate]
  | succ levels ih =>
      intro world region state expanding owner before start forest ids scene planted guarded proper
      cases start with
      | none =>
          cases planted
          exact ⟨world, .now fun fuel => rfl, .refl scene.mirrors scene.guards⟩
      | some id =>
          have free : ¬ settings.maxDepth ≤ world.context.depth := by
            have left := scene.left
            omega
          obtain ⟨after, yields, passes⟩ :=
            renderFrom_realizes ih (deeper_scene scene) planted guarded proper
          refine ⟨after.shallower, yields.next fun fuel ran => ?_, shallower_passes passes⟩
          simp [render, free, ran, Evaluation.evaluate]

end Stencil.World
