import Stencil.Proofs.Attempt
import Stencil.Proofs.Documents
import Stencil.Proofs.ShedValues

/-!
Scripts that only write. The commands of a set add texts and properties and render the
content of their element, and none of this changes anything but the log.
-/

namespace Stencil

inductive Action.Writes : Action → Prop where
  | text (text : String) : Writes (.text text)
  | propertyWithin (key before after : String) : Writes (.propertyWithin key before after)
  | content : Writes .content

def Handler.Writes : Handler → Prop
  | .script actions => ∀ action ∈ actions, action.Writes
  | .inert => True

theorem Adds.writes {properties : Table String String} {actions : List Action} {text : String}
    (adds : Adds properties actions text) : ∀ action ∈ actions, action.Writes := by
  induction adds with
  | nil => simp
  | text added _ _ _ ih =>
      intro action member
      rcases List.mem_cons.mp member with rfl | later
      · exact .text added
      · exact ih action later
  | within key before after _ _ _ ih =>
      intro action member
      rcases List.mem_cons.mp member with rfl | later
      · exact .propertyWithin key before after
      · exact ih action later

theorem Wraps.writes {handler : Handler} {write : Table String String → String → String}
    {opening closing : List Action} (wraps : Wraps handler write opening closing) :
    handler.Writes := by
  obtain ⟨_, _, opens, closes, _⟩ := wraps.texts {}
  rw [wraps.script]
  intro action member
  rcases List.mem_append.mp member with before | rest
  · exact opens.writes action before
  · rcases List.mem_cons.mp rest with rfl | after
    · exact .content
    · exact closes.writes action after

namespace World

open Store

def Tame (commands : Table (Option String) Handler) : Prop :=
  ∀ name handler, commands.get? name = some handler → handler.Writes

theorem stocked_tame (settings : Settings) (set : Option CommandSet) :
    Tame (stocked settings set).context.commands := by
  intro name handler isHandler
  cases set with
  | none => cases isHandler
  | some set =>
      rcases set.speaks settings {} rfl name with ⟨missing, _⟩ | ⟨_, _, _, _, found, _, wraps⟩
      · rw [stocked, missing] at isHandler
        cases isHandler
      · rw [stocked, found] at isHandler
        cases isHandler
        exact wraps.writes

section Tame

variable {commands : Table (Option String) Handler}

theorem Tame.put (tame : Tame commands) (name : Option String) {handler : Handler}
    (writes : handler.Writes) : Tame (commands.put name handler) := by
  intro other found isFound
  rw [Table.get?_put] at isFound
  split at isFound
  · cases isFound
    exact writes
  · exact tame other found isFound

theorem Tame.erase (tame : Tame commands) (name : Option String) : Tame (commands.erase name) := by
  intro other found isFound
  rw [Table.get?_erase] at isFound
  split at isFound
  · cases isFound
  · exact tame other found isFound

theorem Tame.stocked (tame : Tame commands) (set : CommandSet) : Tame (set.stocked commands) := by
  have wraps := fun before after => (CommandSet.around_wraps before after).writes
  exact (((tame.put _ (wraps _ _)).put _ set.sectionHandler_wraps.writes).put _ (wraps _ _)).put _
    (wraps _ _)

end Tame

/-- An action of a tame script leaves at most notices. It adds a text or renders the
body of its element. -/
theorem perform_writes (settings : Settings) (world : World) (id : ElementId) {action : Action}
    (writes : action.Writes) :
    ∃ notices, (world.perform settings (some id) action).2 = note settings notices world ∧
      ((∃ text, (world.perform settings (some id) action).1 = .ok (.add text)) ∨
        ∃ start, (world.perform settings (some id) action).1 = .ok (.render start true) ∧
          (start = none ∨ start = world.store.child id)) := by
  have still : note settings [] world = world := by simp [note]
  cases writes with
  | text text => exact ⟨[], still.symm, Or.inl ⟨text, rfl⟩⟩
  | propertyWithin key before after =>
      simp only [perform, onElement]
      split
      · exact ⟨[], still.symm, Or.inl ⟨_, rfl⟩⟩
      · exact ⟨[], still.symm, Or.inl ⟨_, rfl⟩⟩
  | content =>
      have answers : ∃ body notices,
          world.store.bodyOf settings.errorChecks .command (some id) = .ok (body, notices) ∧
            (body = none ∨ body = world.store.child id) := by
        simp only [Store.bodyOf, present, ok_bind]
        split
        · exact ⟨none, _, rfl, Or.inl rfl⟩
        · exact ⟨_, [], rfl, Or.inr rfl⟩
      obtain ⟨body, notices, ran, isBody⟩ := answers
      refine ⟨notices, ?_, Or.inr ⟨body, ?_, isBody⟩⟩
      all_goals simp [perform, World.bodyOf, ran]

section Replies

variable {settings : Settings} {world after : World} {id : ElementId} {reply : Reply}

theorem run_writes (fuel : Nat) {actions : List Action} (output : String)
    (writes : ∀ action ∈ actions, action.Writes)
    (ran : run settings fuel world (some id) actions output = some (.ok reply, after)) :
    ∃ text, reply = .text text := by
  induction fuel generalizing world actions output with
  | zero => cases ran
  | succ fuel ih =>
      cases actions with
      | nil =>
          cases ran
          exact ⟨output, rfl⟩
      | cons action rest =>
          have restWrites : ∀ other ∈ rest, other.Writes := fun other member =>
            writes other (List.mem_cons_of_mem action member)
          obtain ⟨notices, same, answers⟩ :=
            perform_writes settings world id (writes action List.mem_cons_self)
          rcases answers with ⟨text, adds⟩ | ⟨start, asks, _⟩
          · have performed : world.perform settings (some id) action =
                (.ok (.add text), note settings notices world) := Prod.ext adds same
            rw [run, performed] at ran
            exact ih (output ++ text) restWrites ran
          · have performed : world.perform settings (some id) action =
                (.ok (.render start true), note settings notices world) := Prod.ext asks same
            rw [run, performed] at ran
            obtain ⟨⟨added, between⟩, _, rest⟩ := Option.bind_eq_some_iff.mp ran
            cases added with
            | error fault => cases rest
            | ok added => exact ih (output ++ added) restWrites rest

theorem call_writes (fuel : Nat) {handler : Handler} (writes : handler.Writes)
    (called : call settings fuel world handler (some id) = some (.ok reply, after)) :
    ∃ text, reply = .text text := by
  cases fuel with
  | zero => cases called
  | succ fuel =>
      cases handler with
      | inert => cases called
      | script actions => exact run_writes fuel "" writes called

end Replies

end World

end Stencil
