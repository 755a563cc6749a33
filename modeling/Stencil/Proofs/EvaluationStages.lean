import Mathlib.Logic.Relation
import Stencil.Render

/-!
The stages of an evaluation. A stage is a world, a task that is begun in it and the
fuel that is left; a task begins others, each in the world that those before it
left behind. So the stages that come of a task are all that happens while it is
carried out, whether it ends or not. What every operation of a task keeps is kept
from its beginning to its end, and what holds at the beginning, if the operations
uphold it, holds at every stage.
-/

namespace Stencil.World

inductive Task where
  | render (start : Option ElementId) (toEnd : Bool)
  /-- Renders an element and, if asked, what follows it. -/
  | follow (id : ElementId) (toEnd : Bool)
  | one (id : ElementId)
  | assign (name : Option String) (variableId : ElementId)
  | value (name : Option String)
  | call (handler : Handler) (element : Option ElementId)
  | run (element : Option ElementId) (actions : List Action) (output : String)

structure Stage where
  fuel : Nat
  world : World
  task : Task

def Stage.after (settings : Settings) : Stage → Option World
  | ⟨fuel, world, .render start toEnd⟩ => Prod.snd <$> render settings fuel world start toEnd
  | ⟨fuel, world, .follow id toEnd⟩ => Prod.snd <$> renderFrom settings fuel world id toEnd
  | ⟨fuel, world, .one id⟩ => Prod.snd <$> renderOne settings fuel world id
  | ⟨_, world, .assign name variableId⟩ =>
      world.cacheCopy settings name (world.store.child variableId)
  | ⟨fuel, world, .value name⟩ => Prod.snd <$> renderCached settings fuel world name
  | ⟨fuel, world, .call handler element⟩ => Prod.snd <$> call settings fuel world handler element
  | ⟨fuel, world, .run element actions output⟩ =>
      Prod.snd <$> run settings fuel world element actions output

inductive Begins (settings : Settings) : Stage → Stage → Prop where
  | render {fuel : Nat} {world : World} {id : ElementId} {toEnd : Bool}
      (left : ¬ settings.maxDepth ≤ world.context.depth) :
      Begins settings ⟨fuel + 1, world, .render (some id) toEnd⟩
        ⟨fuel, world.deeper, .follow id toEnd⟩
  | one {fuel : Nat} {world : World} {id : ElementId} {toEnd : Bool} :
      Begins settings ⟨fuel + 1, world, .follow id toEnd⟩ ⟨fuel, world, .one id⟩
  | next {fuel : Nat} {world between : World} {id next : ElementId} {output : String}
      (rendered : renderOne settings fuel world id = some (.ok output, between))
      (isNext : between.store.next id = some next) :
      Begins settings ⟨fuel + 1, world, .follow id true⟩ ⟨fuel, between, .follow next true⟩
  | body {fuel : Nat} {world : World} {id body : ElementId}
      (isKind : world.store.kind? id = some .variable)
      (isBody : world.store.child id = some body) :
      Begins settings ⟨fuel + 1, world, .one id⟩ ⟨fuel, world, .render (some body) true⟩
  | assign {fuel : Nat} {world between : World} {id body : ElementId} {output : String}
      (isKind : world.store.kind? id = some .variable)
      (isBody : world.store.child id = some body)
      (rendered : render settings fuel world (some body) true = some (.ok output, between)) :
      Begins settings ⟨fuel + 1, world, .one id⟩ ⟨fuel, between, .assign (world.store.text id) id⟩
  | value {fuel : Nat} {world : World} {id : ElementId}
      (isKind : world.store.kind? id = some .variable)
      (noBody : world.store.child id = none) :
      Begins settings ⟨fuel + 1, world, .one id⟩ ⟨fuel, world, .value (world.store.text id)⟩
  | pinned {fuel : Nat} {world : World} {name : Option String} {chain : ElementId}
      (isChain : world.context.chainOf name = some chain)
      (unmarked : world.context.isExpanding name = false) :
      Begins settings ⟨fuel + 1, world, .value name⟩
        ⟨fuel, world.enterPin name (some chain), .render (some chain) true⟩
  | call {fuel : Nat} {world : World} {id : ElementId} {handler : Handler}
      (isKind : world.store.kind? id = some .command)
      (isHandler : world.context.commands.get? (world.store.text id) = some handler) :
      Begins settings ⟨fuel + 1, world, .one id⟩ ⟨fuel, world, .call handler (some id)⟩
  | script {fuel : Nat} {world : World} {actions : List Action} {element : Option ElementId} :
      Begins settings ⟨fuel + 1, world, .call (.script actions) element⟩
        ⟨fuel, world, .run element actions ""⟩
  | added {fuel : Nat} {world changed : World} {element : Option ElementId} {action : Action}
      {rest : List Action} {output text : String}
      (performed : world.perform settings element action = (.ok (.add text), changed)) :
      Begins settings ⟨fuel + 1, world, .run element (action :: rest) output⟩
        ⟨fuel, changed, .run element rest (output ++ text)⟩
  | asked {fuel : Nat} {world changed : World} {element start : Option ElementId}
      {action : Action} {rest : List Action} {output : String} {toEnd : Bool}
      (performed : world.perform settings element action = (.ok (.render start toEnd), changed)) :
      Begins settings ⟨fuel + 1, world, .run element (action :: rest) output⟩
        ⟨fuel, changed, .render start toEnd⟩
  | resumed {fuel : Nat} {world changed between : World} {element start : Option ElementId}
      {action : Action} {rest : List Action} {output text : String} {toEnd : Bool}
      (performed : world.perform settings element action = (.ok (.render start toEnd), changed))
      (rendered : World.render settings fuel changed start toEnd = some (.ok text, between)) :
      Begins settings ⟨fuel + 1, world, .run element (action :: rest) output⟩
        ⟨fuel, between, .run element rest (output ++ text)⟩

def During (settings : Settings) : Stage → Stage → Prop := Relation.ReflTransGen (Begins settings)

/-- The world of a stage as the tasks that it begins first find it. -/
def Stage.entered : Stage → World
  | ⟨_, world, .render _ _⟩ => world.deeper
  | ⟨_, world, .value name⟩ => world.enterPin name (world.context.chainOf name)
  | ⟨_, world, _⟩ => world

/-- How the tasks of an evaluation are led. A good task begins good ones only, as long
as what came before them `keeps` the world, and what each of them keeps, all do. -/
structure Conduct (settings : Settings) (good : World → Task → Prop)
    (keeps : World → World → Prop) : Prop where
  refl : ∀ world, keeps world world
  trans : ∀ world between after, keeps world between → keeps between after → keeps world after
  note : ∀ world notices, keeps world (note settings notices world)
  begins : ∀ stage next, Begins settings stage next → good stage.world stage.task →
    keeps stage.entered next.world → good next.world next.task
  shallower : ∀ world after id toEnd, good world (.render (some id) toEnd) →
    keeps world.deeper after → keeps world after.shallower
  leaves : ∀ world after name chain, good world (.value name) →
    world.context.chainOf name = some chain → world.context.isExpanding name = false →
    keeps (world.enterPin name (some chain)) after → keeps world (after.leavePin name (some chain))
  assigns : ∀ world after name variableId, good world (.assign name variableId) →
    world.cacheCopy settings name (world.store.child variableId) = some after → keeps world after
  performs : ∀ world element action rest output,
    good world (.run element (action :: rest) output) →
    keeps world (world.perform settings element action).2

section Conduct

variable {settings : Settings} {good : World → Task → Prop} {keeps : World → World → Prop}

def KeepsFor (settings : Settings) (good : World → Task → Prop) (keeps : World → World → Prop)
    (fuel : Nat) : Prop :=
  ∀ world task after, good world task → Stage.after settings ⟨fuel, world, task⟩ = some after →
    keeps world after

variable (conduct : Conduct settings good keeps)
include conduct

section Fueled

variable {fuel : Nat} (below : KeepsFor settings good keeps fuel)
include below

theorem render_keeps {world : World} {start : Option ElementId} {toEnd : Bool} {rendered : Rendered}
    (isGood : good world (.render start toEnd))
    (ran : render settings (fuel + 1) world start toEnd = some rendered) :
    keeps world rendered.2 := by
  cases start with
  | none =>
      cases ran
      exact conduct.refl world
  | some id =>
      simp only [render] at ran
      split at ran
      · cases ran
        exact conduct.note world _
      · rename_i left
        obtain ⟨inner, follows, done⟩ := Option.bind_eq_some_iff.mp ran
        cases done
        apply conduct.shallower _ _ id toEnd isGood
        have next := conduct.begins ⟨fuel + 1, world, .render (some id) toEnd⟩ _ (.render left)
          isGood (conduct.refl _)
        exact below world.deeper (.follow id toEnd) inner.2 next (by simp [Stage.after, follows])

theorem renderFrom_keeps {world : World} {id : ElementId} {toEnd : Bool} {rendered : Rendered}
    (isGood : good world (.follow id toEnd))
    (ran : renderFrom settings (fuel + 1) world id toEnd = some rendered) :
    keeps world rendered.2 := by
  simp only [renderFrom] at ran
  obtain ⟨⟨output, between⟩, first, rest⟩ := Option.bind_eq_some_iff.mp ran
  have inner := conduct.begins ⟨fuel + 1, world, .follow id toEnd⟩ ⟨fuel, world, .one id⟩ .one
    isGood (conduct.refl _)
  have once : keeps world between :=
    below world (.one id) between inner (by simp [Stage.after, first])
  cases output with
  | error fault =>
      cases rest
      exact once
  | ok output =>
      cases toEnd with
      | false =>
          cases rest
          exact once
      | true =>
          simp only [if_true] at rest
          split at rest
          · cases rest
            exact once
          · rename_i next isNext
            obtain ⟨later, follows, done⟩ := Option.bind_eq_some_iff.mp rest
            cases done
            apply conduct.trans _ _ _ once
            have onward := conduct.begins ⟨fuel + 1, world, .follow id true⟩ _ (.next first isNext)
              isGood once
            exact below between (.follow next true) later.2 onward (by simp [Stage.after, follows])

theorem renderOne_keeps {world : World} {id : ElementId} {rendered : Rendered}
    (isGood : good world (.one id)) (ran : renderOne settings (fuel + 1) world id = some rendered) :
    keeps world rendered.2 := by
  have leads := fun next begins => conduct.begins ⟨fuel + 1, world, .one id⟩ next begins isGood
  simp only [renderOne] at ran
  split at ran
  · cases ran
    exact conduct.refl world
  · split at ran <;> cases ran <;> exact conduct.refl world
  · rename_i isKind
    split at ran
    · rename_i body isBody
      obtain ⟨⟨output, between⟩, first, assigned⟩ := Option.bind_eq_some_iff.mp ran
      have inner := leads _ (.body isKind isBody) (conduct.refl _)
      have once : keeps world between :=
        below world (.render (some body) true) between inner (by simp [Stage.after, first])
      cases output with
      | error fault =>
          cases assigned
          exact once
      | ok output =>
          obtain ⟨cached, copied, rfl⟩ := Option.map_eq_some_iff.mp assigned
          have later := leads _ (.assign isKind isBody first) once
          exact conduct.trans _ _ _ once (conduct.assigns _ _ _ _ later copied)
    · rename_i noBody
      have inner := leads _ (.value isKind noBody) (conduct.refl _)
      exact below world (.value (world.store.text id)) rendered.2 inner (by simp [Stage.after, ran])
  · rename_i isKind
    split at ran
    · cases ran
      exact conduct.note world _
    · rename_i handler isHandler
      obtain ⟨⟨reply, between⟩, called, concluded⟩ := Option.bind_eq_some_iff.mp ran
      cases concluded
      have inner := leads _ (.call isKind isHandler) (conduct.refl _)
      have once : keeps world between :=
        below world (.call handler (some id)) between inner (by simp [Stage.after, called])
      cases reply with
      | ok reply => exact once
      | error trouble => exact conduct.trans _ _ _ once (conduct.note between _)

theorem renderCached_keeps {world : World} {name : Option String} {rendered : Rendered}
    (isGood : good world (.value name))
    (ran : renderCached settings (fuel + 1) world name = some rendered) :
    keeps world rendered.2 := by
  simp only [renderCached] at ran
  split at ran
  · cases ran
    exact conduct.refl world
  · rename_i chain isChain
    split at ran
    · cases ran
      exact conduct.note world _
    · rename_i marked
      have unmarked : world.context.isExpanding name = false := by simpa using marked
      obtain ⟨inner, renders, done⟩ := Option.bind_eq_some_iff.mp ran
      cases done
      apply conduct.leaves world inner.2 name chain isGood isChain unmarked
      have next := conduct.begins ⟨fuel + 1, world, .value name⟩ _ (.pinned isChain unmarked) isGood
        (by rw [Stage.entered, isChain]; exact conduct.refl _)
      exact below _ (.render (some chain) true) inner.2 next (by simp [Stage.after, renders])

theorem run_keeps {world : World} {element : Option ElementId} {actions : List Action}
    {output : String} {replied : Except Trouble Reply × World}
    (isGood : good world (.run element actions output))
    (ran : run settings (fuel + 1) world element actions output = some replied) :
    keeps world replied.2 := by
  have leads := fun next begins =>
    conduct.begins ⟨fuel + 1, world, .run element actions output⟩ next begins isGood
  cases actions with
  | nil =>
      cases ran
      exact conduct.refl world
  | cons action rest =>
      have performs := conduct.performs world element action rest output isGood
      simp only [run] at ran
      split at ran
      · cases ran
      · rename_i trouble changed _ performed
        cases ran
        rwa [performed] at performs
      · rename_i text changed performed
        rw [performed] at performs
        have onward := leads _ (.added performed) performs
        exact conduct.trans _ _ _ performs
          (below changed (.run element rest (output ++ text)) replied.2 onward
            (by simp [Stage.after, ran]))
      · rename_i reply changed performed
        cases ran
        rwa [performed] at performs
      · rename_i start toEnd changed performed
        rw [performed] at performs
        have inner := leads _ (.asked performed) performs
        obtain ⟨⟨added, between⟩, renders, rest⟩ := Option.bind_eq_some_iff.mp ran
        have once : keeps changed between :=
          below changed (.render start toEnd) between inner (by simp [Stage.after, renders])
        have both := conduct.trans _ _ _ performs once
        cases added with
        | error fault =>
            cases rest
            exact both
        | ok added =>
            have onward := leads _ (.resumed performed renders) both
            exact conduct.trans _ _ _ both
              (below between (.run element _ _) replied.2 onward
                (by simpa [Stage.after] using ⟨_, rest⟩))

end Fueled

/-- What the operations of a task keep is kept from its beginning to its end. -/
theorem Conduct.keeps_through (fuel : Nat) : KeepsFor settings good keeps fuel := by
  induction fuel with
  | zero =>
      intro world task after isGood ran
      cases task with
      | assign name variableId => exact conduct.assigns _ _ _ _ isGood ran
      | _ => simp [Stage.after, render, renderFrom, renderOne, renderCached, call, run] at ran
  | succ fuel below =>
      intro world task after isGood ran
      cases task with
      | render start toEnd =>
          obtain ⟨rendered, ends, rfl⟩ := Option.map_eq_some_iff.mp ran
          exact render_keeps conduct below isGood ends
      | follow id toEnd =>
          obtain ⟨rendered, ends, rfl⟩ := Option.map_eq_some_iff.mp ran
          exact renderFrom_keeps conduct below isGood ends
      | one id =>
          obtain ⟨rendered, ends, rfl⟩ := Option.map_eq_some_iff.mp ran
          exact renderOne_keeps conduct below isGood ends
      | assign name variableId => exact conduct.assigns _ _ _ _ isGood ran
      | value name =>
          obtain ⟨rendered, ends, rfl⟩ := Option.map_eq_some_iff.mp ran
          exact renderCached_keeps conduct below isGood ends
      | call handler element =>
          obtain ⟨replied, ends, rfl⟩ := Option.map_eq_some_iff.mp ran
          cases handler with
          | inert =>
              cases ends
              exact conduct.refl world
          | script actions =>
              have inner := conduct.begins ⟨fuel + 1, world, .call (.script actions) element⟩ _
                .script isGood (conduct.refl _)
              exact below world (.run element actions "") replied.2 inner
                (by simpa [Stage.after] using ⟨_, ends⟩)
      | run element actions output =>
          obtain ⟨replied, ends, rfl⟩ := Option.map_eq_some_iff.mp ran
          exact run_keeps conduct below isGood ends

/-- What a good task does before it begins another one keeps what it entered. -/
theorem Conduct.keeps_until {stage next : Stage} (begins : Begins settings stage next)
    (isGood : good stage.world stage.task) : keeps stage.entered next.world := by
  have through := conduct.keeps_through
  cases begins with
  | render | one | body | value | call | script => exact conduct.refl _
  | @next fuel world between id _ _ rendered _ =>
      have inner := conduct.begins _ ⟨fuel, world, .one id⟩ .one isGood (conduct.refl _)
      exact through fuel world (.one id) between inner (by simp [Stage.after, rendered])
  | @assign fuel world between _ body _ isKind isBody rendered =>
      have inner := conduct.begins _ _ (.body isKind isBody) isGood (conduct.refl _)
      exact through fuel world (.render (some body) true) between inner
        (by simp [Stage.after, rendered])
  | pinned isChain _ =>
      rw [Stage.entered, isChain]
      exact conduct.refl _
  | added performed | asked performed =>
      have performs := conduct.performs _ _ _ _ _ isGood
      rwa [performed] at performs
  | @resumed fuel _ changed between _ start _ _ _ _ toEnd performed rendered =>
      have performs := conduct.performs _ _ _ _ _ isGood
      rw [performed] at performs
      have inner := conduct.begins _ _ (.asked performed) isGood performs
      have once := through fuel changed (.render start toEnd) between inner
        (by simp [Stage.after, rendered])
      exact conduct.trans _ _ _ performs once

theorem Conduct.leads {stage next : Stage} (begins : Begins settings stage next)
    (isGood : good stage.world stage.task) : good next.world next.task :=
  conduct.begins stage next begins isGood (conduct.keeps_until begins isGood)

theorem Conduct.during {stage later : Stage} (during : During settings stage later)
    (isGood : good stage.world stage.task) : good later.world later.task := by
  induction during with
  | refl => exact isGood
  | tail _ begins ih => exact conduct.leads begins ih

end Conduct

/-- What the operations of an evaluation uphold: in a world where it `holds`, each of
them leads to one that `keeps` it, if scripts are such as may `run` there. -/
structure Upheld (settings : Settings) (holds : World → Prop) (keeps : World → World → Prop)
    (runs : World → Option ElementId → List Action → Prop) : Prop where
  refl : ∀ world, keeps world world
  trans : ∀ world between after, keeps world between → keeps between after → keeps world after
  kept : ∀ world after, keeps world after → holds world → holds after
  note : ∀ world notices, keeps world (note settings notices world)
  deeper : ∀ world, holds world → ¬ settings.maxDepth ≤ world.context.depth → holds world.deeper
  shallower : ∀ world after, keeps world.deeper after → keeps world after.shallower
  enters : ∀ world name chain, holds world → world.context.chainOf name = some chain →
    holds (world.enterPin name (some chain))
  leaves : ∀ world after name chain, holds world → world.context.chainOf name = some chain →
    world.context.isExpanding name = false → keeps (world.enterPin name (some chain)) after →
    keeps world (after.leavePin name (some chain))
  assigns : ∀ world after name start, holds world →
    world.cacheCopy settings name start = some after → keeps world after
  calls : ∀ world id actions, holds world → world.store.kind? id = some .command →
    world.context.commands.get? (world.store.text id) = some (.script actions) →
    runs world (some id) actions
  performs : ∀ world element action rest, holds world → runs world element (action :: rest) →
    keeps world (world.perform settings element action).2
  runs_on : ∀ world after element action rest, keeps world after →
    runs world element (action :: rest) → runs after element rest

def Stage.fits (runs : World → Option ElementId → List Action → Prop) : Stage → Prop
  | ⟨_, world, .call (.script actions) element⟩ => runs world element actions
  | ⟨_, world, .run element actions _⟩ => runs world element actions
  | _ => True

theorem Stage.fits_fuel {runs : World → Option ElementId → List Action → Prop} (fuel other : Nat)
    (world : World) (task : Task) :
    Stage.fits runs ⟨fuel, world, task⟩ = Stage.fits runs ⟨other, world, task⟩ := by
  cases task with
  | call handler element => cases handler <;> rfl
  | _ => rfl

section Rule

variable {settings : Settings} {holds : World → Prop} {keeps : World → World → Prop}
variable {runs : World → Option ElementId → List Action → Prop}
variable (upheld : Upheld settings holds keeps runs)
include upheld

/-- What is upheld of a world does not depend on the task, but for the scripts. -/
theorem Upheld.conduct : Conduct settings
    (fun world task => holds world ∧ (⟨0, world, task⟩ : Stage).fits runs) keeps where
  refl := upheld.refl
  trans := upheld.trans
  note := upheld.note
  begins := by
    rintro stage next begins ⟨found, fits⟩ kept
    cases begins with
    | render left => exact ⟨upheld.deeper _ found left, trivial⟩
    | one => exact ⟨found, trivial⟩
    | next => exact ⟨upheld.kept _ _ kept found, trivial⟩
    | body => exact ⟨found, trivial⟩
    | assign => exact ⟨upheld.kept _ _ kept found, trivial⟩
    | value => exact ⟨found, trivial⟩
    | pinned isChain => exact ⟨upheld.enters _ _ _ found isChain, trivial⟩
    | @call _ _ _ handler isKind isHandler =>
        refine ⟨found, ?_⟩
        cases handler with
        | script actions => exact upheld.calls _ _ actions found isKind isHandler
        | inert => trivial
    | script => exact ⟨found, fits⟩
    | added => exact ⟨upheld.kept _ _ kept found, upheld.runs_on _ _ _ _ _ kept fits⟩
    | asked => exact ⟨upheld.kept _ _ kept found, trivial⟩
    | resumed => exact ⟨upheld.kept _ _ kept found, upheld.runs_on _ _ _ _ _ kept fits⟩
  shallower world after _ _ _ := upheld.shallower world after
  leaves world after name chain isGood := upheld.leaves world after name chain isGood.1
  assigns world after name _ isGood := upheld.assigns world after name _ isGood.1
  performs world element action rest _ isGood :=
    upheld.performs world element action rest isGood.1 isGood.2

theorem Upheld.keeps_through (fuel : Nat) (world : World) (task : Task) (after : World)
    (found : holds world) (fits : Stage.fits runs ⟨fuel, world, task⟩)
    (ran : Stage.after settings ⟨fuel, world, task⟩ = some after) : keeps world after :=
  upheld.conduct.keeps_through fuel world task after
    ⟨found, Stage.fits_fuel 0 fuel world task ▸ fits⟩ ran

/-- What depends on the store and the cache alone, and outlives what an evaluation does to
them, is upheld as well. -/
theorem Upheld.along {fine : World → Prop}
    (same : ∀ world after, after.store = world.store →
      after.context.cache = world.context.cache → fine world → fine after)
    (leaves : ∀ world name chain, fine world → fine (world.leavePin name (some chain)))
    (assigns : ∀ world after name start, holds world → fine world →
      world.cacheCopy settings name start = some after → fine after)
    (performs : ∀ world element action rest, holds world → fine world →
      runs world element (action :: rest) → fine (world.perform settings element action).2) :
    Upheld settings (fun world => holds world ∧ fine world)
      (fun world after => keeps world after ∧ (fine world → fine after)) runs where
  refl world := ⟨upheld.refl world, id⟩
  trans world between after first second :=
    ⟨upheld.trans world between after first.1 second.1, second.2 ∘ first.2⟩
  kept world after kept found := ⟨upheld.kept world after kept.1 found.1, kept.2 found.2⟩
  note world notices := ⟨upheld.note world notices, same world _ rfl rfl⟩
  deeper world found left := ⟨upheld.deeper world found.1 left, same world _ rfl rfl found.2⟩
  shallower world after kept := ⟨upheld.shallower world after kept.1,
    fun isFine => same after _ rfl rfl (kept.2 (same world _ rfl rfl isFine))⟩
  enters world name chain found isChain :=
    ⟨upheld.enters world name chain found.1 isChain, same world _ rfl rfl found.2⟩
  leaves world after name chain found isChain unmarked kept :=
    ⟨upheld.leaves world after name chain found.1 isChain unmarked kept.1,
      fun isFine => leaves after name chain (kept.2 (same world _ rfl rfl isFine))⟩
  assigns world after name start found copied :=
    ⟨upheld.assigns world after name start found.1 copied,
      fun isFine => assigns world after name start found.1 isFine copied⟩
  calls world id actions found := upheld.calls world id actions found.1
  performs world element action rest found fits :=
    ⟨upheld.performs world element action rest found.1 fits,
      fun isFine => performs world element action rest found.1 isFine fits⟩
  runs_on world after element action rest kept :=
    upheld.runs_on world after element action rest kept.1

theorem Upheld.during {stage later : Stage} (during : During settings stage later)
    (found : holds stage.world) (fits : stage.fits runs) :
    holds later.world ∧ later.fits runs := by
  have here := upheld.conduct.during during
    ⟨found, Stage.fits_fuel 0 stage.fuel stage.world stage.task ▸ fits⟩
  exact ⟨here.1, Stage.fits_fuel later.fuel 0 later.world later.task ▸ here.2⟩

end Rule

end Stencil.World
