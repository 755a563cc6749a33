import Mathlib.Data.Nat.Digits.Lemmas
import Stencil.Proofs.ActionEffects
import Stencil.Proofs.CacheUpkeep
import Stencil.Proofs.ChainCustody
import Stencil.Proofs.Editing
import Stencil.Proofs.EvaluationStages

/-!
The bookkeeping of an evaluation. Depth, expanding names and pins are changed by
the evaluation alone, which takes every change back on each of its ways out, and
no operation of a script comes near them. So they end as they began, whatever the
scripts do, and depth exceeds its limit at no stage unless it did so before. A
rendering ends in two faults only: a text element without a text, and a reply with a
number that has too many digits to be written. Where every text element has a text,
that stays so, and a fault is always that of a handler that was called on the way.
-/

namespace Stencil

def Forest.Worded : Forest → Prop
  | .nil => True
  | .cons node body rest =>
      (node.kind = .text → node.text.isSome) ∧ body.Worded ∧ rest.Worded

theorem Forest.Proper.worded {forest : Forest} (proper : forest.Proper) : forest.Worded := by
  induction forest with
  | nil => trivial
  | cons node body rest ihBody ihRest =>
      obtain ⟨nodeProper, _, bodyProper, restProper⟩ := proper
      exact ⟨fun _ => nodeProper.worded, ihBody bodyProper, ihRest restProper⟩

namespace Store

def Worded (store : Store) : Prop :=
  ∀ id cell, store.get? id = some cell → cell.kind = .text → cell.text.isSome

section Labels

variable {store changed : Store} {id other : ElementId}

theorem label_release : (store.release id).label other = store.label other :=
  label_update store id other _ fun _ => ⟨rfl, rfl⟩

theorem label_releaseFor (count : Nat) (ids : List ElementId) :
    (store.releaseFor count ids).label other = store.label other := by
  induction count generalizing store ids with
  | zero => rfl
  | succ count ih =>
      cases ids with
      | nil => rfl
      | cons id waiting => exact (ih _).trans label_release

theorem label_detach : (store.detach id).label other = store.label other := by
  simp [detach_eq]

theorem label_destroyAll (start : Option ElementId) :
    (store.destroyAll start).label other = store.label other := by
  unfold destroyAll
  generalize 4 * store.size + 4 = count
  induction count generalizing store start with
  | zero => rfl
  | succ count ih =>
      cases start with
      | none => rfl
      | some id =>
          refine (ih _).trans ?_
          simp only [destroyOne, releaseAll, label_releaseFor, label_release, label_detach]

theorem label_append {checks : Bool} {position element : Option ElementId} {outcome : Outcome}
    (ran : store.append checks position element = .ok outcome) :
    outcome.store.label other = store.label other := by
  unfold append linkWith at ran
  split at ran
  · rename_i refusal refused
    cases ran
    split at refused
    · -- A refusal answers the store that it was given.
      unfold linkRefusal at refused
      split at refused
      · split at refused
        · cases refused
          rfl
        · cases refused
      · cases refused
        rfl
    · cases refused
  · obtain ⟨host, _, rest⟩ := bind_eq_ok.mp ran
    obtain ⟨id, _, adopted⟩ := bind_eq_ok.mp rest
    unfold adopt at adopted
    simp only at adopted
    split at adopted
    · cases adopted
      rfl
    · split at adopted
      · cases adopted
      · obtain rfl := Except.ok.inj adopted
        simp only [label_spliceAfter, label_setParents]

theorem bodyRefusal_store {owner : ElementId} {content : Option ElementId} {refusal : Outcome}
    (refused : store.bodyRefusal owner content = .ok (some refusal)) : refusal.store = store := by
  cases content with
  | none => cases refused
  | some head =>
      simp only [bodyRefusal] at refused
      split at refused
      · cases refused
        rfl
      · split at refused
        · cases refused
          rfl
        · split at refused <;> cases refused

theorem label_install {checks : Bool} {owner : ElementId} {content : Option ElementId}
    {outcome : Outcome} (ran : store.install checks owner content = .ok outcome) :
    outcome.store.label other = store.label other := by
  have installs : outcome.store = store ∨ store.replaceBody owner content = .ok outcome := by
    cases checks with
    | false => exact Or.inr ran
    | true =>
        obtain ⟨refusal, refused, rest⟩ := bind_eq_ok.mp (show _ >>= _ = _ from ran)
        cases refusal with
        | none => exact Or.inr rest
        | some refusal =>
            cases rest
            exact Or.inl (bodyRefusal_store refused)
  rcases installs with same | replaces
  · rw [same]
  · obtain ⟨members, _, done⟩ := bind_eq_ok.mp replaces
    obtain rfl := Except.ok.inj done
    simp only [label_setChild, label_setParents, label_destroyAll]

end Labels

section Worded

variable {store changed : Store}

theorem worded_iff : store.Worded ↔ ∀ id, ∀ label, store.label id = some label →
    label.1 = .text → label.2.isSome := by
  constructor
  · intro worded id label isLabel isText
    obtain ⟨cell, found, rfl⟩ := Option.map_eq_some_iff.mp isLabel
    exact worded id cell found isText
  · intro worded id cell found isText
    have isLabel : store.label id = some (cell.kind, cell.text) := by simp [label, found]
    exact worded id _ isLabel isText

theorem Worded.relinked (worded : store.Worded)
    (labels : ∀ id, changed.label id = store.label id) : changed.Worded := by
  rw [worded_iff] at worded ⊢
  exact fun id label isLabel => worded id label ((labels id).symm.trans isLabel)

theorem Planted.worded {owner before start : Option ElementId} {forest : Forest}
    {ids : List ElementId} (planted : store.Planted owner before start forest ids)
    (worded : forest.Worded) :
    ∀ id ∈ ids, ∀ cell, store.get? id = some cell → cell.kind = .text → cell.text.isSome := by
  induction planted with
  | nil => simp
  | cons owner before next child id node body rest bodyIds restIds found _ _ ihBody ihRest =>
      obtain ⟨nodeWorded, bodyWorded, restWorded⟩ := worded
      intro other member cell isCell
      rcases List.mem_cons.mp member with same | deeper
      · subst same
        rw [found] at isCell
        cases isCell
        exact nodeWorded
      · rcases List.mem_append.mp deeper with inBody | inRest
        · exact ihBody bodyWorded other inBody cell isCell
        · exact ihRest restWorded other inRest cell isCell

theorem Worded.grow {start : Option ElementId} {forest : Forest} {ids : List ElementId}
    (worded : store.Worded) (grows : Grown store changed start forest ids)
    (forestWorded : forest.Worded) : changed.Worded := by
  intro id cell found
  by_cases old : id < store.size
  · exact worded id cell ((grows.kept id old).symm.trans found)
  · exact grows.planted.worded forestWorded id
      (grows.all id (Nat.le_of_not_lt old) (inside_of_get? found)) cell found

theorem Worded.forestFor (worded : store.Worded) (count : Nat) (start : Option ElementId)
    {forest : Forest} (read : store.forestFor count start = some forest) : forest.Worded := by
  induction count generalizing start forest with
  | zero =>
      cases start with
      | none =>
          cases read
          exact trivial
      | some id => cases read
  | succ count ih =>
      cases start with
      | none =>
          cases read
          exact trivial
      | some id =>
          simp only [Store.forestFor] at read
          cases found : store.get? id with
          | none => simp [found] at read
          | some cell =>
              simp only [found, Option.bind_eq_bind, Option.bind_eq_some_iff,
                Option.pure_def, Option.some.injEq] at read
              obtain ⟨body, bodyRead, rest, restRead, rfl⟩ := read
              exact ⟨worded id cell found, ih _ bodyRead, ih _ restRead⟩

end Worded

structure Retains (store changed : Store) : Prop where
  labels : ∀ id label, store.label id = some label → changed.label id = some label
  worded : store.Worded → changed.Worded

section Retains

variable {store between changed : Store}

theorem Retains.refl (store : Store) : Retains store store := ⟨fun _ _ => id, id⟩

theorem Retains.trans (first : Retains store between) (second : Retains between changed) :
    Retains store changed :=
  ⟨fun id label known => second.labels id label (first.labels id label known),
    second.worded ∘ first.worded⟩

theorem Retains.of_labels (labels : ∀ id, changed.label id = store.label id) :
    Retains store changed :=
  ⟨fun id _ known => (labels id).trans known, fun worded => worded.relinked labels⟩

theorem Grown.retains {start : Option ElementId} {forest : Forest} {ids : List ElementId}
    (grows : Grown store changed start forest ids) (worded : store.Worded → forest.Worded) :
    Retains store changed := by
  refine ⟨fun id label known => ?_, fun here => here.grow grows (worded here)⟩
  obtain ⟨cell, found, rfl⟩ := Option.map_eq_some_iff.mp known
  have same := (grows.kept id (inside_of_get? found)).trans found
  simp [Store.label, same]

end Retains

end Store

namespace World

open Store

structure Orderly (world after : World) : Prop where
  depth : after.context.depth = world.context.depth
  expanding : after.context.expanding = world.context.expanding
  pins : after.context.pins = world.context.pins
  retains : Retains world.store after.store

section Operations

variable {world between after : World}

theorem Orderly.refl (world : World) : Orderly world world := ⟨rfl, rfl, rfl, .refl _⟩

theorem Orderly.trans (first : Orderly world between) (second : Orderly between after) :
    Orderly world after where
  depth := second.depth.trans first.depth
  expanding := second.expanding.trans first.expanding
  pins := second.pins.trans first.pins
  retains := first.retains.trans second.retains

theorem Orderly.of_context (context : after.context = world.context)
    (retains : Retains world.store after.store) : Orderly world after :=
  ⟨by rw [context], by rw [context], by rw [context], retains⟩

theorem retire_orderly (world : World) (chain : ElementId) :
    Orderly world (world.retire chain) := by
  unfold retire
  split
  · exact ⟨rfl, rfl, rfl, .refl _⟩
  · exact .of_context rfl (.of_labels fun _ => label_destroyAll _)

theorem foldl_retire_orderly (lost : List ElementId) (world : World) :
    Orderly world (lost.foldl retire world) := by
  induction lost generalizing world with
  | nil => exact .refl world
  | cons chain rest ih => exact (retire_orderly world chain).trans (ih _)

theorem setVariable_orderly (settings : Settings) (world : World) (name : Option String)
    (chain : Option ElementId) (readOnly : Bool) :
    Orderly world (world.setVariable settings name chain readOnly).2 := by
  unfold setVariable
  split
  · exact .of_context rfl (.refl _)
  · have kept : Orderly world (world.retirePrevious name chain) := by
      unfold retirePrevious
      split
      · split
        · exact .refl world
        · exact retire_orderly world _
      · exact .refl world
    exact ⟨kept.depth, kept.expanding, kept.pins, kept.retains⟩

theorem eraseVariable_orderly (world : World) (name : Option String) :
    Orderly world (world.eraseVariable name) := by
  have erased : Orderly world (world.withContext fun context =>
      { context with cache := context.cache.erase name }) := ⟨rfl, rfl, rfl, .refl _⟩
  unfold eraseVariable
  split
  · exact erased.trans (retire_orderly _ _)
  · exact erased

theorem clearVariables_orderly (world : World) : Orderly world world.clearVariables := by
  have cleared := foldl_retire_orderly world.context.chains world
  exact ⟨cleared.depth, cleared.expanding, cleared.pins, cleared.retains⟩

theorem cacheCopy_orderly {settings : Settings} {name : Option String} {start : Option ElementId}
    (copied : world.cacheCopy settings name start = some after) : Orderly world after := by
  unfold cacheCopy at copied
  split at copied
  · cases copied
  · rename_i store head ran
    cases copied
    obtain ⟨forest, read, planted⟩ := copyAll_cases ran
    have grows := plant_grown world.store forest
    rw [planted] at grows
    have copies : Orderly world { world with store } :=
      .of_context rfl (grows.retains fun worded => worded.forestFor _ _ read)
    exact copies.trans (setVariable_orderly settings _ name head _)

theorem Brings.orderly {head : Option ElementId} (brings : Brings world after head) :
    Orderly world after := by
  apply Orderly.of_context brings.context
  rcases brings.store with ⟨_, same⟩ | ⟨_, forest, ids, grows, proper⟩
  · exact same ▸ .refl _
  · exact grows.retains fun _ => proper.worded

theorem perform_orderly (settings : Settings) (world : World) (element : Option ElementId)
    (action : Action) : Orderly world (world.perform settings element action).2 := by
  have effect := perform_effect settings world element action
  generalize (world.perform settings element action).2 = after at effect ⊢
  cases effect with
  | idle store context => exact .of_context context (store ▸ .refl _)
  | stored name source readOnly shown brings =>
      exact brings.orderly.trans (setVariable_orderly settings _ _ _ _)
  | erased name => exact eraseVariable_orderly world name
  | cleared => exact clearVariables_orderly world
  | registered name actions =>
      simp only [register]
      split <;> exact ⟨rfl, rfl, rfl, .refl _⟩
  | unregistered name => exact ⟨rfl, rfl, rfl, .refl _⟩
  | removed _ store context => exact .of_context context (store ▸ .of_labels fun _ => label_detach)
  | brought source brings => exact brings.orderly
  | appended source brings ran store context =>
      exact .of_context context
        (store ▸ brings.orderly.retains.trans (.of_labels fun _ => label_append ran))
  | filled source grows proper _ ran store context =>
      exact .of_context context
        (store ▸ (grows.retains fun _ => proper.worded).trans
          (.of_labels fun _ => label_install ran))
  | put key value _ =>
      exact .of_context rfl
        (.of_labels fun id => label_update world.store _ id _ fun _ => ⟨rfl, rfl⟩)

theorem leavePin_orderly {name : Option String} {chain : ElementId}
    (unmarked : world.context.isExpanding name = false)
    (inner : Orderly (world.enterPin name (some chain)) after) :
    Orderly world (after.leavePin name (some chain)) := by
  obtain ⟨expanding, pins⟩ := Context.leave_enter unmarked inner.expanding inner.pins
  have left : Orderly world (after.withContext (·.leave name (some chain))) :=
    ⟨inner.depth, expanding, pins, inner.retains⟩
  simp only [leavePin, Option.toList_some, List.foldl_cons, List.foldl_nil, releaseRetired]
  split
  · exact left.trans ⟨rfl, rfl, rfl, .of_labels fun _ => label_destroyAll _⟩
  · exact left

theorem shallower_orderly (inner : Orderly world.deeper after) : Orderly world after.shallower := by
  have back : after.context.depth - 1 = world.context.depth := by
    rw [inner.depth]
    exact Nat.add_sub_cancel _ 1
  exact ⟨back, inner.expanding, inner.pins, inner.retains⟩

end Operations

/-- An evaluation stays below any bound that is at least its limit, and leaves all
in order. -/
theorem orderly_upheld (settings : Settings) {bound : Int} (high : settings.maxDepth ≤ bound) :
    Upheld settings (fun world => (world.context.depth : Int) ≤ bound) Orderly
      (fun _ _ _ => True) where
  refl := Orderly.refl
  trans _ _ _ := Orderly.trans
  kept world after orderly low := by
    rw [orderly.depth]
    exact low
  note _ _ := ⟨rfl, rfl, rfl, .refl _⟩
  deeper world low left := by
    have deeper : world.deeper.context.depth = world.context.depth + 1 := rfl
    omega
  shallower _ _ := shallower_orderly
  enters _ _ _ low _ := low
  leaves _ _ _ _ _ _ unmarked inner := leavePin_orderly unmarked inner
  assigns _ _ _ _ _ copied := cacheCopy_orderly copied
  calls _ _ _ _ _ _ := trivial
  performs world element action _ _ _ := perform_orderly settings world element action
  runs_on _ _ _ _ _ _ _ := trivial

theorem Stage.fits_any (stage : Stage) : stage.fits fun _ _ _ => True := by
  obtain ⟨fuel, world, task⟩ := stage
  cases task with
  | call handler element => cases handler <;> trivial
  | _ => trivial

theorem Stage.orderly (settings : Settings) (stage : Stage) {after : World}
    (ran : stage.after settings = some after) : Orderly stage.world after := by
  have upheld :=
    orderly_upheld settings (le_max_right (stage.world.context.depth : Int) settings.maxDepth)
  exact upheld.keeps_through stage.fuel stage.world stage.task after (le_max_left _ _)
    stage.fits_any ran

theorem render_orderly {settings : Settings} {fuel : Nat} {world : World}
    {start : Option ElementId} {toEnd : Bool} {rendered : Rendered}
    (ran : render settings fuel world start toEnd = some rendered) : Orderly world rendered.2 :=
  Stage.orderly settings ⟨fuel, world, .render start toEnd⟩ (by simp [Stage.after, ran])

/-- What a task does before it begins another one leaves all in order. -/
theorem Begins.orderly {settings : Settings} {stage next : Stage}
    (begins : Begins settings stage next) : Orderly stage.entered next.world := by
  have upheld :=
    orderly_upheld settings (le_max_right (stage.world.context.depth : Int) settings.maxDepth)
  exact upheld.conduct.keeps_until begins ⟨le_max_left _ _, Stage.fits_any _⟩

section Faults

variable {settings : Settings} {fuel : Nat} {origin next : Stage} {answer : Except Fault String}

theorem bound_le_iff {number : Nat} :
    Digit.bound ≤ number ↔ Digit.limit < (Nat.digits 10 number).length :=
  (Nat.lt_digits_length_iff (by decide) number).symm

/-- Numbers of too many digits are all that cannot be written. -/
theorem rendered_eq_error_iff {reply : Reply} {fault : Fault} :
    reply.rendered = .error fault ↔ fault = .numberTooLong ∧
      ∃ value, reply = .number value ∧ Digit.limit < (Nat.digits 10 value.natAbs).length := by
  simp only [← bound_le_iff]
  cases reply with
  | nothing | text output => simp [Reply.rendered]
  | number value =>
      by_cases short : value.natAbs < Digit.bound
      · simp [Reply.rendered, short]
      · simp [Reply.rendered, short, Nat.le_of_not_lt short, eq_comm]

/-- A handler is called that replies with a number of too many digits. -/
def Stage.Overlong (settings : Settings) : Stage → Prop
  | ⟨fuel, world, .call handler element⟩ => ∃ value after,
      call settings fuel world handler element = some (.ok (.number value), after) ∧
        Digit.limit < (Nat.digits 10 value.natAbs).length
  | _ => False

/-- If the answer is a fault, it is that of a reply at a stage behind the origin. -/
def Explained (settings : Settings) (origin : Stage) (answer : Except Fault String) : Prop :=
  ∀ fault, answer = .error fault → fault = .numberTooLong ∧
    ∃ stage, During settings origin stage ∧ stage.Overlong settings

theorem explained_ok (output : String) : Explained settings origin (.ok output) := nofun

theorem Explained.earlier (explained : Explained settings next answer)
    (begins : Begins settings origin next) : Explained settings origin answer := by
  intro fault isFault
  obtain ⟨tooLong, stage, during, overlong⟩ := explained fault isFault
  exact ⟨tooLong, stage, .head begins during, overlong⟩

theorem Explained.map (explained : Explained settings origin answer) (change : String → String) :
    Explained settings origin (change <$> answer) := by
  cases answer with
  | ok output => exact explained_ok _
  | error fault => exact explained

structure ExplainedFor (settings : Settings) (fuel : Nat) : Prop where
  render : ∀ world start toEnd rendered, world.store.Worded →
    render settings fuel world start toEnd = some rendered →
    Explained settings ⟨fuel, world, .render start toEnd⟩ rendered.1
  follow : ∀ world id toEnd rendered, world.store.Worded →
    renderFrom settings fuel world id toEnd = some rendered →
    Explained settings ⟨fuel, world, .follow id toEnd⟩ rendered.1
  one : ∀ world id rendered, world.store.Worded →
    renderOne settings fuel world id = some rendered →
    Explained settings ⟨fuel, world, .one id⟩ rendered.1
  value : ∀ world name rendered, world.store.Worded →
    renderCached settings fuel world name = some rendered →
    Explained settings ⟨fuel, world, .value name⟩ rendered.1

theorem render_explained (below : ExplainedFor settings fuel) (world : World)
    (start : Option ElementId) (toEnd : Bool) (rendered : Rendered)
    (worded : world.store.Worded)
    (ran : render settings (fuel + 1) world start toEnd = some rendered) :
    Explained settings ⟨fuel + 1, world, .render start toEnd⟩ rendered.1 := by
  cases start with
  | none =>
      cases ran
      exact explained_ok ""
  | some id =>
      simp only [World.render] at ran
      split at ran
      · cases ran
        exact explained_ok ""
      · rename_i left
        obtain ⟨inner, follows, done⟩ := Option.bind_eq_some_iff.mp ran
        cases done
        exact (below.follow world.deeper id toEnd inner worded follows).earlier (.render left)

theorem renderFrom_explained (below : ExplainedFor settings fuel) (world : World) (id : ElementId)
    (toEnd : Bool) (rendered : Rendered) (worded : world.store.Worded)
    (ran : renderFrom settings (fuel + 1) world id toEnd = some rendered) :
    Explained settings ⟨fuel + 1, world, .follow id toEnd⟩ rendered.1 := by
  simp only [renderFrom] at ran
  obtain ⟨⟨output, between⟩, first, rest⟩ := Option.bind_eq_some_iff.mp ran
  have once : Explained settings ⟨fuel + 1, world, .follow id toEnd⟩ output :=
    (below.one world id _ worded first).earlier .one
  have orderly : Orderly world between :=
    Stage.orderly settings ⟨fuel, world, .one id⟩ (by simp [Stage.after, first])
  cases output with
  | error fault =>
      cases rest
      exact once
  | ok output =>
      cases toEnd with
      | false =>
          cases rest
          exact explained_ok output
      | true =>
          simp only [if_true] at rest
          split at rest
          · cases rest
            exact explained_ok output
          · rename_i next isNext
            obtain ⟨later, follows, done⟩ := Option.bind_eq_some_iff.mp rest
            cases done
            have onward := below.follow between next true later
              (orderly.retains.worded worded) follows
            exact (onward.earlier (.next first isNext)).map (output ++ ·)

theorem renderOne_explained (below : ExplainedFor settings fuel) (world : World) (id : ElementId)
    (rendered : Rendered) (worded : world.store.Worded)
    (ran : renderOne settings (fuel + 1) world id = some rendered) :
    Explained settings ⟨fuel + 1, world, .one id⟩ rendered.1 := by
  simp only [renderOne] at ran
  split at ran
  · cases ran
    exact explained_ok ""
  · rename_i isText
    obtain ⟨cell, found, isKind⟩ := Option.map_eq_some_iff.mp isText
    obtain ⟨text, isSome⟩ := Option.isSome_iff_exists.mp (worded id cell found isKind)
    have hasText : world.store.text id = some text := by simp [Store.text, found, isSome]
    rw [hasText] at ran
    cases ran
    exact explained_ok _
  · rename_i isKind
    split at ran
    · rename_i body isBody
      obtain ⟨⟨output, between⟩, first, assigned⟩ := Option.bind_eq_some_iff.mp ran
      have inner := (below.render world (some body) true _ worded first).earlier
        (.body isKind isBody)
      cases output with
      | error fault =>
          cases assigned
          exact inner
      | ok output =>
          obtain ⟨cached, _, rfl⟩ := Option.map_eq_some_iff.mp assigned
          exact explained_ok output
    · rename_i noBody
      exact (below.value world _ rendered worded ran).earlier (.value isKind noBody)
  · rename_i isKind
    split at ran
    · cases ran
      exact explained_ok ""
    · rename_i handler isHandler
      obtain ⟨⟨reply, between⟩, called, concluded⟩ := Option.bind_eq_some_iff.mp ran
      cases concluded
      cases reply with
      | error trouble => exact explained_ok ""
      | ok reply =>
          -- The reply is written outside the handler, so its fault is not caught here.
          intro fault isFault
          obtain ⟨tooLong, value, rfl, long⟩ := rendered_eq_error_iff.mp isFault
          exact ⟨tooLong, ⟨fuel, world, .call handler (some id)⟩,
            .single (.call isKind isHandler), value, between, called, long⟩

theorem renderCached_explained (below : ExplainedFor settings fuel) (world : World)
    (name : Option String) (rendered : Rendered) (worded : world.store.Worded)
    (ran : renderCached settings (fuel + 1) world name = some rendered) :
    Explained settings ⟨fuel + 1, world, .value name⟩ rendered.1 := by
  simp only [renderCached] at ran
  split at ran
  · cases ran
    exact explained_ok ""
  · rename_i chain isChain
    split at ran
    · cases ran
      exact explained_ok ""
    · rename_i marked
      obtain ⟨inner, renders, done⟩ := Option.bind_eq_some_iff.mp ran
      cases done
      have pinned := below.render (world.enterPin name (some chain)) (some chain) true inner worded
        renders
      exact pinned.earlier (.pinned isChain (by simpa using marked))

theorem explained (settings : Settings) (fuel : Nat) : ExplainedFor settings fuel := by
  induction fuel with
  | zero => constructor <;> simp [World.render, renderFrom, renderOne, renderCached]
  | succ fuel below =>
      exact ⟨render_explained below, renderFrom_explained below, renderOne_explained below,
        renderCached_explained below⟩

end Faults

/-- However an evaluation ends, depth, expanding names and pins are what they were. Where
every text element has a text, the only fault that escapes it is that of a called handler
that replied with a number of too many digits. At every stage of it, and at the end of
every stage, the depth is at most what it was at the beginning or the limit. -/
theorem render_restores (settings : Settings) (fuel : Nat) (world : World)
    (start : Option ElementId) (toEnd : Bool) :
    (∀ rendered, render settings fuel world start toEnd = some rendered →
      rendered.2.context.depth = world.context.depth ∧
      rendered.2.context.expanding = world.context.expanding ∧
      rendered.2.context.pins = world.context.pins ∧
      (world.store.Worded → ∀ fault, rendered.1 = .error fault → fault = .numberTooLong ∧
        ∃ stage, During settings ⟨fuel, world, .render start toEnd⟩ stage ∧
          stage.Overlong settings)) ∧
    ∀ stage, During settings ⟨fuel, world, .render start toEnd⟩ stage →
      ∀ moment, moment = stage.world ∨ stage.after settings = some moment →
        (moment.context.depth : Int) ≤ max (world.context.depth : Int) settings.maxDepth := by
  constructor
  · intro rendered ran
    have orderly := render_orderly ran
    exact ⟨orderly.depth, orderly.expanding, orderly.pins, fun worded =>
      (explained settings fuel).render world start toEnd rendered worded ran⟩
  · intro stage during moment isMoment
    have upheld :=
      orderly_upheld settings (le_max_right (world.context.depth : Int) settings.maxDepth)
    obtain ⟨low, _⟩ := upheld.during during (le_max_left _ _) trivial
    rcases isMoment with rfl | ran
    · exact low
    · rw [(stage.orderly settings ran).depth]
      exact low

def counting (value : Int) : World where
  store := ⟨#[{ kind := .command, text := some "c" }]⟩
  context := { commands := ⟨[(some "c", .script [.endNumber value])]⟩ }

/-- Not every fault is caught: no text is missing and the handler does not fail, but the
first number of too many digits cannot be written. -/
theorem overlong_reply_escapes :
    (counting Digit.bound).store.Worded ∧
      (render {} 6 (counting Digit.bound) (some 0) true).map Prod.fst =
        some (.error .numberTooLong) := by
  have replies : ∀ value, renderOne {} 4 (counting value).deeper 0 =
      some ((Reply.number value).rendered, (counting value).deeper) := fun _ => rfl
  have long : Digit.limit < (Nat.digits 10 (Digit.bound : Int).natAbs).length := by
    rw [Int.natAbs_natCast]
    exact bound_le_iff.mp (le_refl Digit.bound)
  have tooLong : (Reply.number Digit.bound).rendered = .error .numberTooLong :=
    rendered_eq_error_iff.mpr ⟨rfl, _, rfl, long⟩
  constructor
  · intro id cell found isText
    obtain rfl : id = 0 := Nat.lt_one_iff.mp (inside_of_get? found)
    cases found
    cases isText
  · have faults : renderOne {} 4 (counting Digit.bound).deeper 0 =
        some (.error .numberTooLong, (counting Digit.bound).deeper) := by
      rw [replies, tooLong]
    rw [render, if_neg (by decide), renderFrom, faults]
    rfl

/-- A command whose handler renders the body of it, a bare variable, erases that
variable and fails. -/
def interrupted : World where
  store := ⟨#[⟨⟨.command, some "c", {}⟩, none, none, some 1, none⟩,
    ⟨⟨.variable, some "v", {}⟩, none, none, none, some 0⟩, { kind := .text, text := some "a" }]⟩
  context := {
    cache := ⟨[(some "v", ⟨some 2, false⟩)]⟩
    commands := ⟨[(some "c", .script [.body, .eraseVariable "v", .fail "late"])]⟩ }

theorem render_restores_interrupted :
    ∃ rendered, render {} 14 interrupted (some 0) true = some rendered ∧ rendered.1 = .ok "" ∧
      rendered.2.context.chains = [] ∧ rendered.2.context.depth = 0 ∧
      rendered.2.context.expanding = [] ∧ rendered.2.context.pins = [] ∧
      (interrupted.deeper.context.depth : Int) ≤ 128 := by
  obtain ⟨ends, stages⟩ := render_restores {} 14 interrupted (some 0) true
  have begins : Begins {} ⟨14, interrupted, .render (some 0) true⟩
      ⟨13, interrupted.deeper, .follow 0 true⟩ := .render (by decide)
  have low := stages _ (Relation.ReflTransGen.single begins) interrupted.deeper (Or.inl rfl)
  have outcome : (render {} 14 interrupted (some 0) true).map
      (fun rendered => (rendered.1, rendered.2.context.chains)) = some (.ok "", []) := by
    rfl
  obtain ⟨rendered, ran, facts⟩ := Option.map_eq_some_iff.mp outcome
  obtain ⟨text, erased⟩ := Prod.mk.inj facts
  obtain ⟨depth, expanding, pins, _⟩ := ends rendered ran
  exact ⟨rendered, ran, text, erased, depth, expanding, pins, low⟩

end World

end Stencil
