import Stencil.Proofs.Refusals
import Stencil.Proofs.UncheckedEvaluation

/-!
Sessions without checks. A host makes elements, parses texts, asks for changes of the
elements, the cache and the commands, and has chains rendered, in any order. If with
checks on every request is granted and every text can be parsed, then without checks each
step answers the same and leaves the same world behind. Documents are parsed whole and
rendered, so with commands that only write, checks make no difference to them, even where
a source cannot be parsed.
-/

namespace Stencil

namespace World

open Store

inductive Step where
  | addText (text : String)
  | addNamed (kind : Kind) (name : String)
  | parse (text : String) (first last : Option Int)
  | request (request : Request)
  | putProperty (element : ElementId) (key value : String)
  | destroy (element : Option ElementId)
  | destroyAll (start : Option ElementId)
  | copy (element : ElementId)
  | copyAll (start : Option ElementId)
  | erase (name : Option String)
  | eraseAll
  | pin (name : Option String) (chain : Option ElementId)
  | unpin (name : Option String) (chain : Option ElementId)
  | equip (set : CommandSet)
  | unregister (name : Option String)
  | unregisterAll
  | clear
  | evaluate (start : Option ElementId) (toEnd : Bool)
  | evaluateVariable (name : Option String)

inductive Answer where
  | done
  | element (id : Option ElementId)
  | parsed (result : Except Report ElementId)
  | status (status : Status)
  | rendered (output : Except Fault String)
  deriving DecidableEq

namespace Answer

def Granted : Answer → Prop
  | .status code => code = .ok
  | .parsed result => ∃ head, result = .ok head
  | _ => True

end Answer

namespace Request

def mentions : Request → List ElementId
  | .append position element | .insert position element => position.toList ++ element.toList
  | .remove element => element.toList
  | .setCommand owner content | .setVariable owner content => owner.toList ++ Edit.heads content
  | .setProperties element _ | .setText element _ => element.toList
  | .cache _ chain _ => chain.toList
  | .register _ _ => []

end Request

namespace Step

def mentions : Step → List ElementId
  | .request asked => asked.mentions
  | .putProperty element _ _ | .copy element => [element]
  | .destroy element | .destroyAll element | .copyAll element | .pin _ element
  | .unpin _ element | .evaluate element _ => element.toList
  | _ => []

def Known (world : World) (step : Step) : Prop := ∀ id ∈ step.mentions, id < world.store.size

instance (world : World) (step : Step) : Decidable (step.Known world) :=
  inferInstanceAs (Decidable (∀ id ∈ step.mentions, id < world.store.size))

def Plain : Step → Prop
  | .request (.register _ handler) => handler.Writes
  | _ => True

/-- The answer to a step and the world behind it. There is none if the step raises a fault
or does not come to an end. -/
def take (settings : Settings) (fuel : Nat) (world : World) : Step → Option (Answer × World)
  | .addText text =>
      some (.element (some world.store.size),
        { world with store := world.store.add ⟨.text, some text, {}⟩ })
  | .addNamed kind name =>
      match world.store.addNamed kind name with
      | some store => some (.element (some world.store.size), { world with store })
      | none => some (.element none, world)
  | .parse text first last =>
      match world.parse settings text first last with
      | .ok (result, parsed) => some (.parsed result, parsed)
      | .error _ => none
  | .request asked =>
      match asked.answer settings world with
      | .ok (code, after) => some (.status code, after)
      | .error _ => none
  | .putProperty element key value =>
      some (.done, (world.perform settings (some element) (.putProperty key value)).2)
  | .destroy element =>
      let destroyed := world.store.destroy element
      some (.element destroyed.2, { world with store := destroyed.1 })
  | .destroyAll start => some (.done, world.destroyAll start)
  | .copy element =>
      match world.store.copy element with
      | .ok (store, id) => some (.element id, { world with store })
      | .error _ => none
  | .copyAll start =>
      match world.store.copyAll start with
      | .ok (store, id) => some (.element id, { world with store })
      | .error _ => none
  | .erase name => some (.done, world.eraseVariable name)
  | .eraseAll => some (.done, world.clearVariables)
  | .pin name chain => some (.done, world.enterPin name chain)
  | .unpin name chain => some (.done, world.leavePin name chain)
  | .equip set => some (.done, set.addTo settings world)
  | .unregister name => some (.done, world.unregister name)
  | .unregisterAll => some (.done, world.unregisterAll)
  | .clear => some (.done, world.clear)
  | .evaluate start toEnd =>
      (render settings fuel world start toEnd).map fun rendered =>
        (.rendered rendered.1, rendered.2)
  | .evaluateVariable name =>
      (render settings fuel world (world.context.chainOf name) true).map fun rendered =>
        (.rendered rendered.1, rendered.2)

/-- What the scripts ask for that a step calls is granted. -/
def Eased (settings : Settings) (fuel : Nat) (world : World) : Step → Prop
  | .evaluate start toEnd =>
      ∀ stage, During settings ⟨fuel, world, .render start toEnd⟩ stage → stage.Granted settings
  | .evaluateVariable name =>
      ∀ stage, During settings ⟨fuel, world, .render (world.context.chainOf name) true⟩ stage →
        stage.Granted settings
  | _ => True

end Step

def session? (settings : Settings) (fuel : Nat) : World → List Step → Option (List Answer × World)
  | world, [] => some ([], world)
  | world, step :: rest => do
      let first ← step.take settings fuel world
      let others ← session? settings fuel first.2 rest
      pure (first.1 :: others.1, others.2)

def Along (settings : Settings) (fuel : Nat) (holds : World → Step → Prop) :
    World → List Step → Prop
  | _, [] => True
  | world, step :: rest => holds world step ∧
      ∀ answer after, step.take settings fuel world = some (answer, after) →
        Along settings fuel holds after rest

instance (settings : Settings) (fuel : Nat) (holds : World → Step → Prop)
    [∀ world step, Decidable (holds world step)] :
    ∀ world steps, Decidable (Along settings fuel holds world steps)
  | _, [] => .isTrue trivial
  | world, step :: rest =>
      match taken : step.take settings fuel world with
      | none => decidable_of_iff (holds world step) (by simp [Along, taken])
      | some (_, after) =>
          have : Decidable (Along settings fuel holds after rest) :=
            instDecidableAlong settings fuel holds after rest
          decidable_of_iff (holds world step ∧ Along settings fuel holds after rest)
            (by simp [Along, taken])

section Requests

variable {settings : Settings} {world after : World}

theorem setBody_lenient (expected : Kind) (owner : Option ElementId) (content : Content) :
    Lenient Granted fun checks =>
      Request.setBody (settings.checking checks) world expected owner content := by
  cases content with
  | chain head => exact accept_lenient (Store.setBody_lenient expected owner head)
  | source text first last => exact setBodyText_lenient expected owner text first last

theorem answer_lenient (request : Request) :
    Lenient Granted fun checks => request.answer (settings.checking checks) world := by
  cases request with
  | append position element | insert position element =>
      exact accept_lenient (linkWith_lenient position element _)
  | remove element => exact .unchecked _
  | setCommand owner content | setVariable owner content => exact setBody_lenient _ owner content
  | setProperties element properties =>
      exact accept_lenient (replaceProperties_lenient element properties)
  | setText element text => exact accept_lenient (replaceText_lenient element text)
  | cache name chain readOnly => exact setVariable_lenient chain readOnly
  | register name handler => exact register_lenient handler

theorem parsed_sound {text : String} {first last : Option Int} {result : Except Report ElementId}
    (sound : world.store.Sound)
    (ran : world.parse (settings.checking true) text first last = .ok (result, after)) :
    after.store.Sound := by
  obtain ⟨parsed, parses, done⟩ := bind_eq_ok.mp (show _ >>= _ = _ from ran)
  cases done
  exact parse_sound sound parses

theorem accept_stores {status : Status} {step : Except Fault Outcome}
    (ran : world.accept settings <$> step = .ok (status, after)) :
    Outcome.store <$> step = .ok after.store := by
  obtain ⟨outcome, rfl, done⟩ := map_eq_ok ran
  cases done
  rfl

theorem setBody_checked (expected : Kind) (owner : Option ElementId) (content : Content) :
    Request.setBody (settings.checking true) world expected owner content =
      world.accept (settings.checking true) <$>
        Edit.setContent world.store expected owner content := by
  cases content <;> rfl

theorem edited_sound (sound : world.store.Sound) (edit : Edit) (known : edit.Known world.store)
    {status : Status} {step : Except Fault Outcome}
    (same : edit.apply world.store = Outcome.store <$> step)
    (ran : world.accept settings <$> step = .ok (status, after)) : after.store.Sound :=
  apply_sound sound known (same.trans (accept_stores ran))

theorem answer_sound (sound : world.store.Sound) {request : Request}
    (known : ∀ id ∈ request.mentions, id < world.store.size) {status : Status}
    (ran : request.answer (settings.checking true) world = .ok (status, after)) :
    after.store.Sound := by
  cases request with
  | append position element => exact edited_sound sound (.append position element) known rfl ran
  | insert position element => exact edited_sound sound (.insert position element) known rfl ran
  | remove element =>
      have removes : (Edit.remove element).apply world.store =
          Outcome.store <$> Except.ok (world.store.remove element) := rfl
      exact edited_sound sound (.remove element) known removes ran
  | setCommand owner content =>
      rw [Request.answer, setBody_checked] at ran
      exact edited_sound sound (.setCommand owner content) known rfl ran
  | setVariable owner content =>
      rw [Request.answer, setBody_checked] at ran
      exact edited_sound sound (.setVariable owner content) known rfl ran
  | setProperties element properties =>
      exact edited_sound sound (.setProperties element properties) known rfl ran
  | setText element text => exact edited_sound sound (.setText element text) known rfl ran
  | cache name chain readOnly =>
      obtain rfl : _ = after := congrArg Prod.snd (Except.ok.inj ran)
      exact (setVariable_sheds _ world name chain readOnly).sound sound
  | register name handler =>
      obtain rfl : _ = after := congrArg Prod.snd (Except.ok.inj ran)
      unfold World.register
      extract_lets callable
      split <;> exact sound

end Requests

section Steps

variable {settings : Settings} {fuel : Nat} {world after : World} {step : Step} {answer : Answer}

theorem render_sound (sound : world.store.Sound) {start : Option ElementId} {toEnd : Bool}
    {rendered : Rendered}
    (ran : render (settings.checking true) fuel world start toEnd = some rendered) :
    rendered.2.store.Sound :=
  ((sound_upheld (settings.checking true) rfl).keeps_through fuel world (.render start toEnd)
    rendered.2 sound trivial (by simp [Stage.after, ran])).sound sound

/-- With checks on, the store stays sound behind every step. -/
theorem take_sound (sound : world.store.Sound) (known : step.Known world)
    (ran : step.take (settings.checking true) fuel world = some (answer, after)) :
    after.store.Sound := by
  cases step with
  | addText text =>
      cases ran
      exact add_sound sound ⟨rfl, fun noText => absurd rfl noText⟩
  | addNamed kind name =>
      have stays := addNamed_sound sound kind name
      simp only [Step.take] at ran
      split at ran <;> rename_i added <;> cases ran
      · rwa [added] at stays
      · exact sound
  | parse text first last =>
      simp only [Step.take] at ran
      split at ran <;> cases ran
      rename_i parses
      exact parsed_sound sound parses
  | request asked =>
      simp only [Step.take] at ran
      split at ran <;> cases ran
      rename_i answers
      exact answer_sound sound known answers
  | putProperty element key value =>
      cases ran
      exact described_sound sound element _
  | destroy element =>
      cases ran
      exact apply_sound sound (show (Edit.destroy element).Known world.store from known) rfl
  | destroyAll start =>
      cases ran
      exact destroyAll_sound sound start
  | copy element =>
      simp only [Step.take] at ran
      split at ran <;> cases ran
      rename_i copies
      exact copy_sound sound copies
  | copyAll start =>
      simp only [Step.take] at ran
      split at ran <;> cases ran
      rename_i copies
      exact copyAll_sound sound copies
  | erase name =>
      cases ran
      exact eraseVariable_sound sound name
  | eraseAll | clear =>
      cases ran
      exact foldl_retire_sound _ sound
  | unpin name chain =>
      cases ran
      cases chain with
      | none => exact sound
      | some chain => exact (leavePin_sheds world name chain).sound sound
  | equip set =>
      cases ran
      rw [CommandSet.addTo_eq]
      exact sound
  | pin name chain | unregister name | unregisterAll =>
      cases ran
      exact sound
  | evaluate start toEnd | evaluateVariable name =>
      obtain ⟨rendered, renders, done⟩ := Option.map_eq_some_iff.mp ran
      cases done
      exact render_sound sound renders

/-- A step that is granted, as is all that its scripts ask for, is the same without
checks. -/
theorem take_unchecked (sound : world.store.Sound)
    (eased : step.Eased (settings.checking true) fuel world) (granted : answer.Granted)
    (ran : step.take (settings.checking true) fuel world = some (answer, after)) :
    step.take (settings.checking false) fuel world = some (answer, after) := by
  cases step with
  | parse text first last =>
      by_cases valid : InRange text first last
      · simpa only [Step.take, parse_unchecked valid] using ran
      · have refused : ∃ report noted,
            world.parse (settings.checking true) text first last = .ok (.error report, noted) := by
          simp only [World.parse, Settings.checking, parse_outside world.store valid, ok_bind]
          exact ⟨_, _, rfl⟩
        obtain ⟨report, noted, refused⟩ := refused
        simp only [Step.take, refused] at ran
        cases ran
        obtain ⟨_, impossible⟩ := granted
        cases impossible
  | request asked =>
      simp only [Step.take] at ran ⊢
      split at ran <;> cases ran
      rename_i answers
      have unchecked := answer_lenient asked _ answers granted
      simp only at unchecked
      rw [unchecked]
  | equip set =>
      rw [Step.take, CommandSet.addTo_eq] at ran ⊢
      exact ran
  | evaluate start toEnd | evaluateVariable name =>
      simp only [Step.take] at ran ⊢
      rw [render_unchecked sound eased]
      exact ran
  | _ => exact ran

end Steps

section Tame

variable {settings : Settings} {fuel : Nat} {world after : World} {step : Step} {answer : Answer}
theorem retire_commands (world : World) (chain : ElementId) :
    (world.retire chain).context.commands = world.context.commands := by
  unfold retire
  split <;> rfl

theorem foldl_retire_commands (lost : List ElementId) (world : World) :
    (lost.foldl retire world).context.commands = world.context.commands := by
  induction lost generalizing world with
  | nil => rfl
  | cons chain rest ih => exact (ih _).trans (retire_commands world chain)

theorem eraseVariable_commands (world : World) (name : Option String) :
    (world.eraseVariable name).context.commands = world.context.commands := by
  unfold eraseVariable
  split
  · exact retire_commands _ _
  · rfl

theorem answer_tame (tame : Tame world.context.commands) {request : Request}
    (plain : (Step.request request).Plain) {status : Status}
    (ran : request.answer settings world = .ok (status, after)) :
    Tame after.context.commands := by
  have accepted : ∀ step : Except Fault Outcome, world.accept settings <$> step =
      .ok (status, after) → Tame after.context.commands := by
    intro step accepts
    obtain ⟨outcome, rfl, done⟩ := map_eq_ok accepts
    cases done
    exact tame
  cases request with
  | setCommand owner content | setVariable owner content =>
      cases content with
      | chain head => exact accepted _ ran
      | source text first last => exact accepted _ ran
  | remove element => exact accepted (.ok (world.store.remove element)) ran
  | cache name chain readOnly =>
      obtain rfl : _ = after := congrArg Prod.snd (Except.ok.inj ran)
      exact (setVariable_sheds settings world name chain readOnly).commands ▸ tame
  | register name handler =>
      obtain rfl : _ = after := congrArg Prod.snd (Except.ok.inj ran)
      unfold World.register
      extract_lets callable
      split
      · exact tame
      · exact tame.put name plain
  | _ => exact accepted _ ran

theorem take_tame (linked : world.store.Linked) (tame : Tame world.context.commands)
    (plain : step.Plain) (ran : step.take settings fuel world = some (answer, after)) :
    Tame after.context.commands := by
  cases step with
  | addNamed kind name =>
      simp only [Step.take] at ran
      split at ran <;> cases ran <;> exact tame
  | parse text first last =>
      simp only [Step.take] at ran
      split at ran <;> cases ran
      rename_i parses
      exact parse_context parses ▸ tame
  | request asked =>
      simp only [Step.take] at ran
      split at ran <;> cases ran
      rename_i answers
      exact answer_tame tame plain answers
  | copy element | copyAll start =>
      simp only [Step.take] at ran
      split at ran <;> cases ran
      exact tame
  | erase name =>
      cases ran
      exact eraseVariable_commands world name ▸ tame
  | eraseAll =>
      cases ran
      exact foldl_retire_commands world.context.chains world ▸ tame
  | unpin name chain =>
      cases ran
      cases chain with
      | none => exact tame
      | some chain => exact (leavePin_sheds world name chain).commands ▸ tame
  | equip set =>
      cases ran
      rw [CommandSet.addTo_eq]
      exact tame.stocked set
  | unregister name =>
      cases ran
      exact tame.erase name
  | unregisterAll | clear =>
      cases ran
      exact fun _ _ => nofun
  | evaluate start toEnd | evaluateVariable name =>
      obtain ⟨rendered, renders, done⟩ := Option.map_eq_some_iff.mp ran
      cases done
      exact ((aloof_nowhere linked tame).renders renders).commands
  | _ =>
      cases ran
      exact tame

theorem eased_of_tame (linked : world.store.Linked) (tame : Tame world.context.commands)
    (step : Step) : step.Eased settings fuel world := by
  cases step with
  | evaluate start toEnd | evaluateVariable name =>
      exact fun stage during => tame_granted during linked tame trivial
  | _ => trivial

end Tame

section Sessions

variable {settings : Settings} {fuel : Nat} {world after : World} {steps : List Step}
variable {answers : List Answer}

theorem along_eased (sound : world.store.Sound) (tame : Tame world.context.commands)
    (plain : ∀ step ∈ steps, step.Plain)
    (known : Along (settings.checking true) fuel (fun world step => step.Known world) world steps) :
    Along (settings.checking true) fuel
      (fun world step => step.Eased (settings.checking true) fuel world) world steps := by
  induction steps generalizing world with
  | nil => trivial
  | cons step rest ih =>
      refine ⟨eased_of_tame sound.linked tame step, fun answer after ran => ?_⟩
      exact ih (take_sound sound known.1 ran)
        (take_tame sound.linked tame (plain step List.mem_cons_self) ran)
        (fun later member => plain later (List.mem_cons_of_mem _ member)) (known.2 answer after ran)

/-- A session that is granted throughout is the same without checks. -/
theorem session_unchecked (sound : world.store.Sound)
    (known : Along (settings.checking true) fuel (fun world step => step.Known world) world steps)
    (eased : Along (settings.checking true) fuel
      (fun world step => step.Eased (settings.checking true) fuel world) world steps)
    (granted : ∀ answer ∈ answers, answer.Granted)
    (ran : session? (settings.checking true) fuel world steps = some (answers, after)) :
    session? (settings.checking false) fuel world steps = some (answers, after) := by
  induction steps generalizing world answers with
  | nil => exact ran
  | cons step rest ih =>
      obtain ⟨⟨first, between⟩, takes, onward⟩ := Option.bind_eq_some_iff.mp ran
      obtain ⟨⟨others, last⟩, ranRest, done⟩ := Option.bind_eq_some_iff.mp onward
      cases done
      have once := take_unchecked sound eased.1 (granted first List.mem_cons_self) takes
      have later := ih (take_sound sound known.1 takes) (known.2 _ _ takes) (eased.2 _ _ takes)
        (fun answer member => granted answer (List.mem_cons_of_mem _ member)) ranRest
      simp only [session?, once, later, Option.bind_eq_bind, Option.bind_some, Option.pure_def]

theorem document_unchecked (settings : Settings) (fuel : Nat) (sound : world.store.Sound)
    (tame : Tame world.context.commands) (source : String) :
    document (settings.checking false) fuel world source =
        document (settings.checking true) fuel world source ∧
      ∀ rendered, document (settings.checking true) fuel world source = some rendered →
        rendered.2.store.Sound ∧ Tame rendered.2.context.commands := by
  simp only [document, parse_unchecked (inRange_whole source)]
  cases parses : world.parse (settings.checking true) source none none with
  | error fault =>
      refine ⟨rfl, ?_⟩
      rintro _ ⟨⟩
      exact ⟨sound, tame⟩
  | ok answer =>
      obtain ⟨result, parsed⟩ := answer
      have soundParsed := parsed_sound sound parses
      have tameParsed : Tame parsed.context.commands := parse_context parses ▸ tame
      cases result with
      | error report =>
          refine ⟨rfl, ?_⟩
          rintro _ ⟨⟩
          exact ⟨soundParsed, tameParsed⟩
      | ok head =>
          have once : render (settings.checking false) fuel parsed (some head) true =
              render (settings.checking true) fuel parsed (some head) true :=
            render_unchecked soundParsed fun stage during =>
              tame_granted during soundParsed.linked tameParsed trivial
          refine ⟨by simp only [once], fun rendered ran => ?_⟩
          obtain ⟨⟨output, between⟩, renders, done⟩ := Option.bind_eq_some_iff.mp ran
          have soundBetween := render_sound soundParsed renders
          have nowhere := aloof_nowhere soundParsed.linked tameParsed
          have tameBetween := (nowhere.renders renders).commands
          cases output <;> cases done
          · exact ⟨soundBetween, tameBetween⟩
          · exact ⟨destroyAll_sound soundBetween _, tameBetween⟩

theorem documents_unchecked (sound : world.store.Sound) (tame : Tame world.context.commands)
    (sources : List String) :
    documents (settings.checking false) fuel world sources =
      documents (settings.checking true) fuel world sources := by
  induction sources generalizing world with
  | nil => rfl
  | cons source rest ih =>
      obtain ⟨same, keeps⟩ := document_unchecked settings fuel sound tame source
      rw [documents, documents, same]
      cases ran : document (settings.checking true) fuel world source with
      | none => simp only [Option.bind_eq_bind, Option.bind_none]
      | some rendered =>
          obtain ⟨soundAfter, tameAfter⟩ := keeps rendered ran
          simp only [Option.bind_eq_bind, Option.bind_some, ih soundAfter tameAfter]

/-- Checks do nothing but refuse. A session of which every step is granted, together with
what its scripts ask for, has the same answers and leaves the same world behind without
checks. Scripts that only write are granted what they ask for, and with no others there,
documents are the same without checks whether or not their sources can be parsed. -/
theorem checks_only_refuse (settings : Settings) (fuel : Nat) (sound : world.store.Sound) :
    (∀ steps answers after,
      Along (settings.checking true) fuel (fun world step => step.Known world) world steps →
      Along (settings.checking true) fuel
        (fun world step => step.Eased (settings.checking true) fuel world) world steps →
      session? (settings.checking true) fuel world steps = some (answers, after) →
      (∀ answer ∈ answers, answer.Granted) →
      session? (settings.checking false) fuel world steps = some (answers, after)) ∧
    (Tame world.context.commands →
      (∀ steps, (∀ step ∈ steps, step.Plain) →
        Along (settings.checking true) fuel (fun world step => step.Known world) world steps →
        Along (settings.checking true) fuel
          (fun world step => step.Eased (settings.checking true) fuel world) world steps) ∧
      ∀ sources, documents (settings.checking false) fuel world sources =
        documents (settings.checking true) fuel world sources) :=
  ⟨fun _ _ _ known eased ran granted => session_unchecked sound known eased granted ran,
    fun tame => ⟨fun _ plain known => along_eased sound tame plain known,
      fun sources => documents_unchecked sound tame sources⟩⟩

def drafted : List Step :=
  [.equip .html, .parse "\x7b\x7bb a\x7d\x7d" none none, .evaluate (some 0) true,
    .addText "c", .request (.append (some 0) (some 2)),
    .request (.cache (some "v") (some 0) true), .evaluateVariable (some "v")]

theorem checks_only_refuse_drafted : ∃ after, ∀ checks,
    session? (Settings.checking {} checks) 20 {} drafted = some ([.done, .parsed (.ok 0),
      .rendered (.ok "<b>a</b>"), .element (some 2), .status .ok, .status .ok,
      .rendered (.ok "<b>a</b>c")], after) := by
  have sound : ({} : World).store.Sound := empty_sound
  obtain ⟨unrefused, tamed⟩ := checks_only_refuse {} 20 sound
  have known : Along (Settings.checking {} true) 20 (fun world step => step.Known world) {}
      drafted := by decide +kernel
  have plain : ∀ step ∈ drafted, step.Plain := by simp [drafted, Step.Plain]
  have eased := (tamed (fun _ _ => nofun)).1 drafted plain known
  have answered : (session? (Settings.checking {} true) 20 {} drafted).map Prod.fst =
      some [.done, .parsed (.ok 0), .rendered (.ok "<b>a</b>"), .element (some 2), .status .ok,
        .status .ok, .rendered (.ok "<b>a</b>c")] := by decide +kernel
  obtain ⟨⟨answers, after⟩, ran, rfl⟩ := Option.map_eq_some_iff.mp answered
  refine ⟨after, fun checks => ?_⟩
  cases checks with
  | true => exact ran
  | false => exact unrefused drafted _ after known eased ran (by simp [Answer.Granted])

end Sessions

end World

end Stencil
