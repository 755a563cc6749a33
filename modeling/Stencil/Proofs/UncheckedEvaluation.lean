import Stencil.Proofs.AbreastEvaluations
import Stencil.Proofs.Editing
import Stencil.Proofs.RootedEvaluation
import Stencil.Proofs.UncheckedStore
import Stencil.Proofs.UntouchedRegion

/-!
Evaluations without checks. What a script asks of the elements, the cache and the
commands is granted or refused. An evaluation asks for things on its own account as
well: it caches copies under the names of variables and reads the bodies of commands.
In a sound store none of this is refused, and with checks on a store stays sound. So an
evaluation in which everything is granted that its scripts ask for takes the same course
without checks.
-/

namespace Stencil

def Settings.checking (settings : Settings) (checks : Bool) : Settings :=
  { settings with errorChecks := checks }

namespace World

open Store

section Operations

variable {settings : Settings} {world : World} {name : Option String}

theorem parse_unchecked {text : String} {first last : Option Int}
    (valid : InRange text first last) :
    world.parse (settings.checking false) text first last =
      world.parse (settings.checking true) text first last := by
  simp only [World.parse, Settings.checking, Store.parse_unchecked world.store valid]
  rfl

theorem parsedHead_unchecked (text : String) :
    world.parsedHead (settings.checking false) text =
      world.parsedHead (settings.checking true) text := by
  simp only [parsedHead, parse_unchecked (inRange_whole text)]

def Granted (answer : Status × World) : Prop := answer.1 = .ok

theorem accept_lenient {step : Bool → Except Fault Outcome}
    (lenient : Lenient Outcome.Granted step) :
    Lenient Granted fun checks => world.accept (settings.checking checks) <$> step checks :=
  lenient.map (world.accept settings) fun _ => id

theorem setVariable_lenient (chain : Option ElementId) (readOnly : Bool) :
    Lenient Granted fun checks =>
      .ok (world.setVariable (settings.checking checks) name chain readOnly) := by
  intro answer ran granted
  obtain rfl := Except.ok.inj ran
  simp only [setVariable, Settings.checking, if_true] at granted ⊢
  cases refused : world.cacheRefusal name chain with
  | none => rfl
  | some refusal =>
      rw [refused] at granted
      exact absurd granted (cacheRefusal_status name chain refused)

theorem setVariableText_lenient (source : Option String) (readOnly : Bool) :
    Lenient Granted fun checks =>
      world.setVariableText (settings.checking checks) name source readOnly := by
  cases source with
  | none => exact setVariable_lenient none readOnly
  | some text =>
      intro answer ran granted
      obtain ⟨parsed, parses, set⟩ := bind_eq_ok.mp (show _ >>= _ = _ from ran)
      have unchecked := setVariable_lenient parsed.1 readOnly answer set granted
      exact bind_eq_ok.mpr (show ∃ parsed, _ ∧ _ from
        ⟨parsed, (parsedHead_unchecked text).trans parses, unchecked⟩)

theorem register_lenient (handler : Handler) :
    Lenient Granted fun checks =>
      .ok (world.register (settings.checking checks) name handler) := by
  intro answer ran granted
  obtain rfl := Except.ok.inj ran
  cases valid : name.any isName with
  | false => simp [World.register, Settings.checking, valid, Granted] at granted
  | true =>
      cases handler with
      | script actions => simp [World.register, Settings.checking, valid]
      | inert => simp [World.register, Settings.checking, Granted] at granted

theorem setBodyText_lenient (expected : Kind) (element : Option ElementId) (text : String)
    (first last : Option Int) :
    Lenient Granted fun checks =>
      world.setBodyText (settings.checking checks) expected element text first last :=
  accept_lenient (Store.setBodyText_lenient expected element)

def Grants (settings : Settings) (world : World) (element : Option ElementId) : Action → Prop
  | .setVariable name source readOnly _ =>
      Answers (world.setVariableText settings name source readOnly) Granted
  | .register name actions => Granted (world.register settings name (.script actions))
  | .appendAfter source =>
      Answers (world.parsedHead settings source) fun parsed =>
        Answers (parsed.2.store.append settings.errorChecks element parsed.1) Outcome.Granted
  | .setContent source => Answers (world.setBodyText settings .command element source) Granted
  | _ => True

/-- An action on a command that is granted all that it asks for does the same without
checks. -/
theorem perform_unchecked {element : Option ElementId} {action : Action}
    (isCommand : ∀ id, element = some id → world.store.kind? id = some .command)
    (granted : Grants (settings.checking true) world element action) :
    world.perform (settings.checking false) element action =
      world.perform (settings.checking true) element action := by
  cases action with
  | content =>
      cases element with
      | none => rfl
      | some id =>
          simp only [perform, World.bodyOf, Store.bodyOf, present, ok_bind, isCommand id rfl]
          rfl
  | setVariable name source readOnly shown =>
      obtain ⟨answer, ran, fine⟩ := granted
      have unchecked := setVariableText_lenient source readOnly answer ran fine
      simp only [perform]
      rw [ran]
      simp only at unchecked
      rw [unchecked]
  | register name actions =>
      have unchecked := register_lenient (.script actions) _ rfl granted
      simp only [perform, Except.ok.inj unchecked]
  | appendAfter source =>
      obtain ⟨parsed, parses, outcome, appends, fine⟩ := granted
      have unchecked : parsed.2.store.append (settings.checking false).errorChecks element
          parsed.1 = .ok outcome := linkWith_lenient _ _ _ outcome appends fine
      simp only [perform, appendText, parsedHead_unchecked, parses, appends, unchecked]
      rfl
  | setContent source =>
      obtain ⟨answer, ran, fine⟩ := granted
      have unchecked := setBodyText_lenient .command element source none none answer ran fine
      simp only at unchecked
      simp only [perform]
      rw [ran, unchecked]
  | _ => rfl

end Operations

section Soundness

variable {settings : Settings} {world between after : World} {name : Option String}

theorem retire_sound (sound : world.store.Sound) (chain : ElementId) :
    (world.retire chain).store.Sound := by
  unfold retire
  split
  · exact sound
  · exact destroyAll_sound sound _

theorem foldl_retire_sound (lost : List ElementId) (sound : world.store.Sound) :
    (lost.foldl retire world).store.Sound := by
  induction lost generalizing world with
  | nil => exact sound
  | cons chain rest ih => exact ih (retire_sound sound chain)

theorem Sheds.sound {offered : Option ElementId} (sheds : Sheds world after name offered)
    (sound : world.store.Sound) : after.store.Sound := by
  rcases sheds.store with same | ⟨chain, _, _, same⟩
  · exact same ▸ sound
  · exact same ▸ destroyAll_sound sound _

theorem Brings.sound {head : Option ElementId} (brings : Brings world after head)
    (sound : world.store.Sound) : after.store.Sound := by
  rcases brings.store with ⟨_, same⟩ | ⟨_, forest, ids, grows, proper⟩
  · exact same ▸ sound
  · exact sound.grow grows proper

theorem eraseVariable_sound (sound : world.store.Sound) (name : Option String) :
    (world.eraseVariable name).store.Sound := by
  have erased : (world.withContext fun context =>
      { context with cache := context.cache.erase name }).store.Sound := sound
  unfold eraseVariable
  split
  · exact retire_sound erased _
  · exact erased

theorem cacheCopy_sound {start : Option ElementId} (sound : world.store.Sound)
    (copied : world.cacheCopy settings name start = some after) : after.store.Sound := by
  obtain ⟨forest, store, head, ids, read, grows, _, _, sheds⟩ := cacheCopy_cases copied
  exact sheds.sound (sound.grow grows (sound.forestFor_proper _ _ read))

theorem perform_sound (checked : settings.errorChecks = true) (sound : world.store.Sound)
    {element : Option ElementId}
    (isCommand : ∀ id, element = some id → world.store.kind? id = some .command)
    (action : Action) : (world.perform settings element action).2.store.Sound := by
  have inside : ∀ id, element = some id → id < world.store.size := by
    intro id isElement
    obtain ⟨cell, found, _⟩ := Option.map_eq_some_iff.mp (isCommand id isElement)
    exact inside_of_get? found
  have effect := perform_effect settings world element action
  generalize (world.perform settings element action).2 = after at effect ⊢
  cases effect with
  | idle store => exact store ▸ sound
  | @stored parsed head name source readOnly shown brings =>
      exact (setVariable_sheds settings parsed name head readOnly).sound (brings.sound sound)
  | erased name => exact eraseVariable_sound sound name
  | cleared => exact foldl_retire_sound _ sound
  | registered name actions =>
      simp only [World.register]
      split <;> exact sound
  | unregistered => exact sound
  | @removed id _ _ store => exact store ▸ detach_sound sound id
  | brought source brings => exact brings.sound sound
  | @appended parsed _ head outcome source brings ran store =>
      rw [checked] at ran
      have host : ∀ id, element = some id → id < parsed.store.size := fun id isElement =>
        brings.orderly.inside (inside id isElement)
      refine store ▸ append_sound (brings.sound sound) host ?_ ran
      rintro id rfl
      rcases brings.store with ⟨none, _⟩ | ⟨_, forest, ids, grows, _⟩
      · cases none
      · exact grows.start_inside
  | @filled grown forest ids id outcome _ source grows proper isElement ran store =>
      rw [checked] at ran
      have old := inside id isElement
      have kept : grown.kind? id = some .command := by
        rw [← isCommand id isElement, kind?, kind?, grows.kept id old]
      refine store ▸ install_sound (sound.grow grows proper) (Nat.lt_trans old grows.start_inside)
        ?_ kept (by decide) ran
      rintro head ⟨⟩
      exact grows.start_inside
  | @put id key value _ =>
      exact described_sound sound id _

structure KeptSound (world after : World) : Prop where
  orderly : Orderly world after
  sound : world.store.Sound → after.store.Sound

def OnCommand (world : World) (element : Option ElementId) (_ : List Action) : Prop :=
  ∀ id, element = some id → world.store.kind? id = some .command

theorem OnCommand.kept {element : Option ElementId} {actions rest : List Action}
    (onCommand : OnCommand world element actions) (orderly : Orderly world after) :
    OnCommand after element rest := by
  intro id isElement
  obtain ⟨cell, found, isKind⟩ := Option.map_eq_some_iff.mp (onCommand id isElement)
  have label : world.store.label id = some (cell.kind, cell.text) := by simp [Store.label, found]
  rw [kind?_eq_label, orderly.retains.labels id _ label, ← isKind]
  rfl

theorem sound_upheld (settings : Settings) (checked : settings.errorChecks = true) :
    Upheld settings (fun world => world.store.Sound) KeptSound OnCommand where
  refl world := ⟨.refl world, id⟩
  trans _ _ _ first second := ⟨first.orderly.trans second.orderly, second.sound ∘ first.sound⟩
  kept _ _ kept := kept.sound
  note _ _ := ⟨⟨rfl, rfl, rfl, .refl _⟩, id⟩
  deeper _ sound _ := sound
  shallower _ _ kept := ⟨shallower_orderly kept.orderly, kept.sound⟩
  enters _ _ _ sound _ := sound
  leaves _ after name chain _ _ unmarked kept :=
    ⟨leavePin_orderly unmarked kept.orderly,
      fun sound => (leavePin_sheds after name chain).sound (kept.sound sound)⟩
  assigns _ _ _ _ _ copied :=
    ⟨cacheCopy_orderly copied, fun sound => cacheCopy_sound sound copied⟩
  calls _ _ _ _ isKind _ := by
    rintro _ ⟨⟩
    exact isKind
  performs _ element action _ _ onCommand :=
    ⟨perform_orderly settings _ element action,
      fun sound => perform_sound checked sound onCommand action⟩
  runs_on _ _ _ _ _ kept onCommand := onCommand.kept kept.orderly

end Soundness

section Unchecked

variable {settings : Settings} {world after : World}

theorem cacheCopy_unchecked {name : Option String} (valid : name.any isName = true)
    (start : Option ElementId) :
    world.cacheCopy (settings.checking false) name start =
      world.cacheCopy (settings.checking true) name start := by
  unfold cacheCopy
  split
  · rfl
  · rename_i store head ran
    obtain ⟨forest, _, planted⟩ := copyAll_cases ran
    have grows := plant_grown world.store forest
    rw [planted] at grows
    have granted : Granted (({ world with store } : World).setVariable (settings.checking true) name
        head (world.context.readOnly name)) := by
      have accepted : ({ world with store } : World).cacheRefusal name head = none := by
        cases head with
        | none => simp [cacheRefusal, valid]
        | some head => simp [cacheRefusal, valid, grows.root.prev, grows.root.parent]
      simp [setVariable, Settings.checking, accepted, Granted]
    have unchecked := setVariable_lenient head (world.context.readOnly name) _ rfl granted
    simp only [Except.ok.inj unchecked]

/-- What the script that a stage goes on with asks for first is granted. -/
def Stage.Granted (settings : Settings) : Stage → Prop
  | ⟨_, world, .run element (action :: _) _⟩ => Grants settings world element action
  | _ => True

theorem matches_refl (handler : Handler) : handler.Matches Eq handler := by
  cases handler with
  | script actions => exact .script (List.forall₂_same.mpr fun _ _ => rfl)
  | inert => exact .inert

theorem rel_same {Value : Type} {first second : Option Value} (same : second = first) :
    Option.Rel Eq first second := by
  subst same
  cases second with
  | none => exact .none
  | some value => exact .some rfl

theorem unchecked_abreast (settings : Settings) {origin : Stage}
    (sound : origin.world.store.Sound) (fits : origin.fits OnCommand)
    (granted : ∀ stage, During (settings.checking true) origin stage →
      stage.Granted (settings.checking true)) :
    Abreast (settings.checking true) (settings.checking false) origin Eq Eq Eq where
  limit := rfl
  store := by
    rintro _ _ rfl
    rfl
  depth := by
    rintro _ _ rfl
    rfl
  cache := by
    rintro _ _ rfl
    rfl
  expanding := by
    rintro _ _ rfl
    rfl
  same _ := rfl
  join := by
    rintro _ _ _ _ rfl rfl
    rfl
  note := by
    rintro _ _ _ rfl
    rfl
  deeper := by
    rintro _ _ rfl
    rfl
  shallower := by
    rintro _ _ rfl
    rfl
  enters := by
    rintro _ _ _ _ rfl
    rfl
  leaves := by
    rintro _ _ _ _ rfl
    rfl
  assigns := by
    rintro fuel world between _ id rfl here isKind
    -- The store is sound at every stage, so the name of a variable is valid.
    obtain ⟨kept, _⟩ := (sound_upheld (settings.checking true) rfl).during here sound fits
    obtain ⟨name, isText, valid⟩ := kept.named id _ isKind (by decide)
    exact rel_same (cacheCopy_unchecked (by simp [isText, valid]) _)
  calls := by
    rintro fuel world _ id rfl _ _
    cases world.context.commands.get? (world.store.text id) with
    | none => exact .none
    | some handler => exact .some (matches_refl handler)
  performs := by
    rintro fuel world _ element action _ rest output rfl here rfl
    obtain ⟨_, onCommand⟩ := (sound_upheld (settings.checking true) rfl).during here sound fits
    rw [perform_unchecked onCommand (granted _ here)]
    cases world.perform (settings.checking true) element action with
    | mk answer changed =>
        cases answer with
        | error trouble => exact .error trouble rfl
        | ok demand =>
            refine .ok ?_ rfl
            cases demand with
            | add text => exact .add rfl
            | finish reply => exact .finish reply
            | render start toEnd => exact .render start toEnd

/-- An evaluation that is granted everything is the same without checks. -/
theorem render_unchecked {fuel : Nat} {start : Option ElementId} {toEnd : Bool}
    (sound : world.store.Sound)
    (granted : ∀ stage,
      During (settings.checking true) ⟨fuel, world, .render start toEnd⟩ stage →
      stage.Granted (settings.checking true)) :
    render (settings.checking false) fuel world start toEnd =
      render (settings.checking true) fuel world start toEnd := by
  have abreast : Abreast (settings.checking true) (settings.checking false)
      ⟨fuel, world, .render start toEnd⟩ Eq Eq Eq :=
    unchecked_abreast settings sound trivial granted
  have both := (abreast.through fuel).render world world start toEnd rfl .refl
  generalize render (settings.checking true) fuel world start toEnd = checked at both ⊢
  generalize render (settings.checking false) fuel world start toEnd = unchecked at both ⊢
  cases both with
  | none => rfl
  | some pair =>
      cases pair with
      | ok goes twins => rw [goes, twins]
      | error fault twins => rw [twins]

theorem tame_granted {origin stage : Stage} (during : During settings origin stage)
    (linked : origin.world.store.Linked) (tame : Tame origin.world.context.commands)
    (fits : origin.fits fun _ element actions => (∃ id, element = some id) ∧
      ∀ action ∈ actions, action.Writes) : stage.Granted settings := by
  obtain ⟨_, writes⟩ := (untouched_upheld (fun _ => False) settings).during during
    (aloof_nowhere linked tame) fits
  obtain ⟨_, world, task⟩ := stage
  cases task with
  | run element actions output =>
      cases actions with
      | nil => trivial
      | cons action rest =>
          cases writes.2 action List.mem_cons_self <;> trivial
  | _ => trivial

end Unchecked

end World

end Stencil
