import Stencil.Proofs.SoundStore
import Stencil.Script

/-!
What an action of a script does to its world. Most actions only read, and may leave
a notice. Of the others each changes the cache, the commands or the store in its
own way, and the texts that they bring with them are parsed into new cells first.
-/

namespace Stencil

namespace Store

theorem parse_whole (checks : Bool) (store : Store) (text : String) :
    (∃ forest grown ids,
      store.parse checks text none none = .ok { store := grown, result := .ok store.size } ∧
      Grown store grown (some store.size) forest ids ∧ forest.Proper) ∨
    ∃ report notices,
      store.parse checks text none none = .ok { store, result := .error report, notices } := by
  have inside : (⟨0, (Source.ofString text).size⟩ : Span).stop ≤ (Source.ofString text).size :=
    Nat.le_refl _
  rcases parse_spec checks store text none none ⟨0, (Source.ofString text).size⟩ (by simp)
      (by simp) (Nat.zero_le _) inside with
    ⟨forest, grown, ids, read, ran, grows⟩ | ⟨_, report, _, ran, _⟩
  · have proper := ((Outline.read_settles (Source.ofString text) inside).of_ok read).1
    exact Or.inl ⟨forest, grown, ids, ran, grows, proper⟩
  · exact Or.inr ⟨report, _, ran⟩

end Store

namespace World

open Store

structure Brings (world parsed : World) (head : Option ElementId) : Prop where
  context : parsed.context = world.context
  store : head = none ∧ parsed.store = world.store ∨ head = some world.store.size ∧
    ∃ forest ids, Grown world.store parsed.store head forest ids ∧ forest.Proper

inductive Effect (settings : Settings) (world : World) (element : Option ElementId) :
    Action → World → Prop where
  | idle {action : Action} {after : World} (store : after.store = world.store)
      (context : after.context = world.context) : Effect settings world element action after
  | stored {parsed : World} {head : Option ElementId} (name : String) (source : Option String)
      (readOnly shown : Bool) (brings : Brings world parsed head) :
      Effect settings world element (.setVariable name source readOnly shown)
        (parsed.setVariable settings name head readOnly).2
  | erased (name : String) :
      Effect settings world element (.eraseVariable name) (world.eraseVariable name)
  | cleared : Effect settings world element .clearVariables world.clearVariables
  | registered (name : String) (actions : List Action) :
      Effect settings world element (.register name actions)
        (world.register settings name (.script actions)).2
  | unregistered (name : String) :
      Effect settings world element (.unregister name) (world.unregister name)
  | removed {id : ElementId} {after : World} (isElement : element = some id)
      (store : after.store = world.store.detach id) (context : after.context = world.context) :
      Effect settings world element .removeSelf after
  | brought {after : World} {head : Option ElementId} (source : String)
      (brings : Brings world after head) :
      Effect settings world element (.appendAfter source) after
  | appended {parsed after : World} {head : Option ElementId} {outcome : Outcome}
      (source : String) (brings : Brings world parsed head)
      (ran : parsed.store.append settings.errorChecks element head = .ok outcome)
      (store : after.store = outcome.store) (context : after.context = world.context) :
      Effect settings world element (.appendAfter source) after
  | filled {grown : Store} {forest : Forest} {ids : List ElementId} {id : ElementId}
      {outcome : Outcome} {after : World} (source : String)
      (grows : Grown world.store grown (some world.store.size) forest ids)
      (proper : forest.Proper) (isElement : element = some id)
      (ran : grown.install settings.errorChecks id (some world.store.size) = .ok outcome)
      (store : after.store = outcome.store) (context : after.context = world.context) :
      Effect settings world element (.setContent source) after
  | put {id : ElementId} (key value : String) (isElement : element = some id) :
      Effect settings world element (.putProperty key value)
        { world with
          store := world.store.setProperties id ((world.store.properties id).put key value) }

section Effects

variable (settings : Settings) (world : World) (element : Option ElementId)

theorem parsedHead_brings (text : String) :
    ∃ head parsed, world.parsedHead settings text = .ok (head, parsed) ∧
      Brings world parsed head := by
  rcases parse_whole settings.errorChecks world.store text with
    ⟨forest, grown, ids, ran, grows, proper⟩ | ⟨report, notices, ran⟩
  · refine ⟨some world.store.size, note settings [] { world with store := grown }, ?_, rfl,
      Or.inr ⟨rfl, forest, ids, grows, proper⟩⟩
    simp only [parsedHead, World.parse, ran]
    rfl
  · refine ⟨none, note settings notices world, ?_, rfl, Or.inl ⟨rfl, rfl⟩⟩
    simp only [parsedHead, World.parse, ran]
    rfl

theorem onElement_effect {action : Action}
    (act : ElementId → Except Trouble Demand × World)
    (effect : ∀ id, element = some id → Effect settings world element action (act id).2) :
    Effect settings world element action (world.onElement element act).2 := by
  cases element with
  | none => exact .idle rfl rfl
  | some id => exact effect id rfl

theorem setVariableText_effect (name : String) (source : Option String) (readOnly shown : Bool) :
    ∃ answer, world.setVariableText settings name source readOnly = .ok answer ∧
      Effect settings world element (.setVariable name source readOnly shown) answer.2 := by
  cases source with
  | none => exact ⟨_, rfl, .stored name none readOnly shown ⟨rfl, Or.inl ⟨rfl, rfl⟩⟩⟩
  | some text =>
      obtain ⟨head, parsed, ran, brings⟩ := parsedHead_brings settings world text
      refine ⟨parsed.setVariable settings name head readOnly, ?_,
        .stored name (some text) readOnly shown brings⟩
      simp only [setVariableText, ran]
      rfl

theorem appendText_effect (source : String) :
    Effect settings world element (.appendAfter source)
      (world.appendText settings element source).2 := by
  obtain ⟨head, parsed, ran, brings⟩ := parsedHead_brings settings world source
  simp only [appendText, ran]
  split
  · exact .brought source brings
  · rename_i outcome appends
    exact .appended source brings appends rfl brings.context

theorem setBodyText_effect (source : String) {status : Status} {after : World}
    (ran : world.setBodyText settings .command element source = .ok (status, after)) :
    Effect settings world element (.setContent source) after := by
  obtain ⟨outcome, sets, done⟩ := map_eq_ok ran
  cases done
  unfold Store.setBodyText at sets
  split at sets
  · rename_i refusal refused
    cases sets
    split at refused
    · exact .idle (kindRefusal_store refused) rfl
    · cases refused
  · rcases parse_whole settings.errorChecks world.store source with
      ⟨forest, grown, ids, parses, grows, proper⟩ | ⟨report, notices, parses⟩
    · simp only [parses, ok_bind] at sets
      obtain ⟨id, isElement, rest⟩ := bind_eq_ok.mp sets
      obtain ⟨answer, installs, done⟩ := bind_eq_ok.mp rest
      cases done
      cases element with
      | none => cases isElement
      | some host =>
          cases isElement
          exact .filled source grows proper rfl installs rfl rfl
    · simp only [parses, ok_bind] at sets
      cases sets
      exact .idle rfl rfl

/-- Every action has the effect of its kind. -/
theorem perform_effect (action : Action) :
    Effect settings world element action (world.perform settings element action).2 := by
  cases action with
  | body | bodyFirst | properties =>
      exact onElement_effect settings world element _ fun id _ => .idle rfl rfl
  | property key | propertyWithin key before after =>
      refine onElement_effect settings world element _ fun id _ => ?_
      split <;> exact .idle rfl rfl
  | name =>
      refine onElement_effect settings world element _ fun id _ => ?_
      split <;> exact .idle rfl rfl
  | content =>
      simp only [perform]
      split
      · exact .idle rfl rfl
      · rename_i ran
        obtain ⟨body, _, done⟩ := bind_eq_ok.mp ran
        cases done
        exact .idle rfl rfl
  | listVariables =>
      simp only [perform]
      split <;> exact .idle rfl rfl
  | text _ | depth | getVariable _ | isExpanding _ | fail _ | endEmpty | endNumber _ =>
      exact .idle rfl rfl
  | setVariable name source readOnly shown =>
      obtain ⟨answer, ran, effect⟩ :=
        setVariableText_effect settings world element name source readOnly shown
      simp only [perform, ran]
      exact effect
  | eraseVariable name => exact .erased name
  | clearVariables => exact .cleared
  | register name actions => exact .registered name actions
  | unregister name => exact .unregistered name
  | removeSelf =>
      cases element with
      | none => exact .idle rfl rfl
      | some id => exact .removed rfl rfl rfl
  | appendAfter source => exact appendText_effect settings world element source
  | setContent source =>
      simp only [perform]
      split
      · exact .idle rfl rfl
      · rename_i ran
        exact setBodyText_effect settings world element source ran
  | putProperty key value =>
      exact onElement_effect settings world element _ fun id isElement =>
        .put key value isElement

end Effects

end World

end Stencil
