import Stencil.Proofs.Editing
import Stencil.Proofs.RootedChains
import Stencil.Script

/-!
Refusals. The operations that answer with a status make all their checks before their
first change, also those that find the cause only behind a walk along a chain or in a
text that has to be parsed first. So with checks on, whatever is asked of a world whose
links fit together is answered, and a refusal leaves the elements, the cache, the pins
and the commands as they were; it leaves no more than its notices.
-/

namespace Stencil

namespace Store

def Atomic (store : Store) (step : Except Fault Outcome) : Prop :=
  Answers step fun outcome => outcome.status ≠ .ok → outcome.store = store

section Atomic

variable {store : Store}

theorem Atomic.same {outcome : Outcome} (same : outcome.store = store) :
    store.Atomic (.ok outcome) := .ok fun _ => same

theorem Atomic.accepted {outcome : Outcome} (accepted : outcome.status = .ok) :
    store.Atomic (.ok outcome) := .ok fun refused => absurd accepted refused

theorem Atomic.behind {refusal : Option Outcome} {next : Except Fault Outcome}
    (refuses : ∀ outcome, refusal = some outcome → outcome.store = store)
    (acts : refusal = none → store.Atomic next) :
    store.Atomic (match if true then refusal else none with
      | some refusal => .ok refusal
      | none => next) := by
  cases refused : refusal with
  | some outcome => exact .same (refuses outcome refused)
  | none => exact acts refused

theorem remove_atomic (element : Option ElementId) : store.Atomic (.ok (store.remove element)) := by
  cases element with
  | none => exact .same rfl
  | some id => exact .accepted rfl

theorem replaceText_atomic (element : Option ElementId) (text : Option String) :
    store.Atomic (store.replaceText true element text) := by
  refine .behind (fun outcome refused => ?_) fun accepted => ?_
  · split at refused
    · exact kindRefusal_store refused
    · cases refused
      rfl
  · cases element with
    | none => cases accepted
    | some id => exact .accepted rfl

theorem replaceProperties_atomic (element : Option ElementId)
    (properties : Option (Table String String)) :
    store.Atomic (store.replaceProperties true element properties) := by
  refine .behind (fun outcome refused => ?_) fun accepted => ?_
  · split at refused
    · exact kindRefusal_store refused
    · cases refused
      rfl
  · cases element with
    | none => cases accepted
    | some id =>
        cases properties with
        | none => cases accepted
        | some properties => exact .accepted rfl

variable (linked : store.Linked)
include linked

theorem linkWith_atomic (position element : Option ElementId)
    (splice : ElementId → Store → ElementId → ElementId → Store) :
    store.Atomic (store.linkWith true position element splice) := by
  rcases linkWith_cases linked.straight position element splice with
    ⟨refusal, refused, same, _⟩ | ⟨host, id, _, _, _, _, _, takes⟩
  · exact refused ▸ .same same
  · exact takes ▸ .accepted rfl

theorem setBody_atomic (expected : Kind) (owner content : Option ElementId) :
    store.Atomic (store.setBody true expected owner content) := by
  rcases setBody_cases linked expected owner content with ⟨_, refusal, refused, same, _⟩ |
    ⟨host, _, _, _, installs⟩
  · exact refused ▸ .same same
  · exact installs ▸ .accepted rfl

theorem Grown.admitted {grown : Store} {head owner : ElementId} {forest : Forest}
    {ids : List ElementId} (grows : Grown store grown (some head) forest ids)
    (old : owner < store.size) : grown.Admitted owner (some head) := by
  rintro _ ⟨⟩
  exact ⟨grows.root.prev, grows.root.parent,
    grows.not_visited (grown_linked grows linked) old⟩

/-- The text is refused before anything is made of it, and once it is parsed its chain
cannot be refused any more. -/
theorem setBodyText_atomic (expected : Kind) (owner : Option ElementId) (text : String)
    (first last : Option Int) :
    store.Atomic (store.setBodyText true expected owner text first last) := by
  refine .behind (fun outcome refused => kindRefusal_store refused) fun accepted => ?_
  rcases parse_cases store text first last with ⟨parsed, report, fails, _, result⟩ |
    ⟨forest, grown, ids, parses, grows, _⟩
  · simp only [fails, ok_bind, result]
    exact .same rfl
  · cases owner with
    | none => cases accepted
    | some host =>
        obtain ⟨cell, isCell, _⟩ := Option.map_eq_some_iff.mp (kind_of_accepted accepted)
        have admitted := grows.admitted linked (inside_of_get? isCell)
        simp only [parses, ok_bind, present]
        rcases install_cases (grown_linked grows linked) host (some store.size) with
          ⟨barred, _⟩ | ⟨_, installs⟩
        · exact absurd admitted barred
        · rw [installs]
          exact .accepted rfl

end Atomic

end Store

namespace World

open Store

inductive Request where
  | append (position element : Option ElementId)
  | insert (position element : Option ElementId)
  | remove (element : Option ElementId)
  | setCommand (owner : Option ElementId) (content : Content)
  | setVariable (owner : Option ElementId) (content : Content)
  | setProperties (element : Option ElementId) (properties : Option (Table String String))
  | setText (element : Option ElementId) (text : Option String)
  | cache (name : Option String) (chain : Option ElementId) (readOnly : Bool)
  | register (name : Option String) (handler : Handler)

namespace Request

def setBody (settings : Settings) (world : World) (expected : Kind) (owner : Option ElementId) :
    Content → Except Fault (Status × World)
  | .chain head =>
      world.accept settings <$> world.store.setBody settings.errorChecks expected owner head
  | .source text first last => world.setBodyText settings expected owner text first last

def answer (settings : Settings) (world : World) : Request → Except Fault (Status × World)
  | append position element =>
      world.accept settings <$> world.store.append settings.errorChecks position element
  | insert position element =>
      world.accept settings <$> world.store.insert settings.errorChecks position element
  | remove element => .ok (world.accept settings (world.store.remove element))
  | setCommand owner content => setBody settings world .command owner content
  | setVariable owner content => setBody settings world .variable owner content
  | setProperties element properties =>
      world.accept settings <$>
        world.store.replaceProperties settings.errorChecks element properties
  | setText element text =>
      world.accept settings <$> world.store.replaceText settings.errorChecks element text
  | cache name chain readOnly => .ok (world.setVariable settings name chain readOnly)
  | register name handler => .ok (world.register settings name handler)

end Request

section Refusals

variable {settings : Settings} {world : World}

/-- The request is answered, and a refusal leaves all but the log as it was. -/
def LeavesBehind (world : World) (step : Except Fault (Status × World)) : Prop :=
  Answers step fun answer => answer.1 ≠ .ok →
    answer.2.store = world.store ∧ answer.2.context = world.context

theorem accept_leaves {step : Except Fault Outcome} (atomic : world.store.Atomic step) :
    world.LeavesBehind (world.accept settings <$> step) := by
  obtain ⟨outcome, rfl, same⟩ := atomic
  exact .ok fun refused => ⟨same refused, rfl⟩

theorem setVariable_leaves (name : Option String) (chain : Option ElementId) (readOnly : Bool) :
    world.LeavesBehind (.ok (world.setVariable settings name chain readOnly)) := by
  unfold setVariable
  split
  · exact .ok fun _ => ⟨rfl, rfl⟩
  · exact .ok fun refused => absurd rfl refused

theorem register_leaves (name : Option String) (handler : Handler) :
    world.LeavesBehind (.ok (world.register settings name handler)) := by
  unfold World.register
  extract_lets callable
  split
  · exact .ok fun _ => ⟨rfl, rfl⟩
  · exact .ok fun refused => absurd rfl refused

theorem setBody_leaves (checked : settings.errorChecks = true) (linked : world.store.Linked)
    (expected : Kind) (owner : Option ElementId) (content : Content) :
    world.LeavesBehind (Request.setBody settings world expected owner content) := by
  cases content with
  | chain head =>
      simp only [Request.setBody, checked]
      exact accept_leaves (setBody_atomic linked expected owner head)
  | source text first last =>
      simp only [Request.setBody, World.setBodyText, checked]
      exact accept_leaves (setBodyText_atomic linked expected owner text first last)

/-- With checks on, every request is answered, and one that is refused leaves every
element, the cache with its flags, the pins, the retired chains and the commands as they
were. -/
theorem refused_unchanged (checked : settings.errorChecks = true) (linked : world.store.Linked)
    (request : Request) :
    ∃ status after, request.answer settings world = .ok (status, after) ∧
      (status ≠ .ok → after.store = world.store ∧ after.context = world.context) := by
  have leaves : world.LeavesBehind (request.answer settings world) := by
    cases request with
    | append position element | insert position element =>
        simp only [Request.answer, Store.append, Store.insert, checked]
        exact accept_leaves (linkWith_atomic linked position element _)
    | remove element => exact accept_leaves (remove_atomic element)
    | setCommand owner content | setVariable owner content =>
        exact setBody_leaves checked linked _ owner content
    | setProperties element properties =>
        simp only [Request.answer, checked]
        exact accept_leaves (replaceProperties_atomic element properties)
    | setText element text =>
        simp only [Request.answer, checked]
        exact accept_leaves (replaceText_atomic element text)
    | cache name chain readOnly => exact setVariable_leaves name chain readOnly
    | register name handler => exact register_leaves name handler
  obtain ⟨⟨status, after⟩, answered, unchanged⟩ := leaves
  exact ⟨status, after, answered, unchanged⟩

end Refusals

def furnished : World where
  store := ⟨#[{ kind := .command, text := some "b", child := some 1 },
    { kind := .text, text := some "x", parent := some 0 },
    { kind := .text, text := some "y", next := some 3 },
    { kind := .text, text := some "z", prev := some 2 }]⟩
  context := { cache := ⟨[(some "v", ⟨some 2, true⟩)]⟩ }

/-- A text that cannot be parsed leaves the old body in its place, and a chain is not
linked behind its own end. -/
theorem refused_unchanged_unparsed :
    (∃ after, Request.answer {} furnished
        (.setCommand (some 0) (.source "c\x7b\x7b" none none)) = .ok (.tokenEndMissing, after) ∧
      after.store = furnished.store ∧ after.context = furnished.context) ∧
    ∃ after, Request.answer {} furnished (.append (some 3) (some 2)) = .ok (.elementInUse, after) ∧
      after.store = furnished.store ∧ after.context = furnished.context := by
  have linked : furnished.store.Linked := by
    let command : Forest := .cons ⟨.command, some "b", {}⟩
      (.cons ⟨.text, some "x", {}⟩ .nil .nil) .nil
    let value : Forest := .cons ⟨.text, some "y", {}⟩ .nil (.cons ⟨.text, some "z", {}⟩ .nil .nil)
    have same : furnished.store = (plant (plant {} none none command).1 none none value).1 := by
      decide +kernel
    exact same ▸ grown_linked (plant_grown _ value)
      (grown_linked (plant_grown {} command) empty_sound.linked)
  have refused : ∀ request status, (Request.answer {} furnished request).map Prod.fst = .ok status →
      status ≠ .ok → ∃ after, Request.answer {} furnished request = .ok (status, after) ∧
        after.store = furnished.store ∧ after.context = furnished.context := by
    intro request status isStatus isRefusal
    have answered : ∃ given after, Request.answer {} furnished request = .ok (given, after) ∧
        (given ≠ .ok → after.store = furnished.store ∧ after.context = furnished.context) :=
      refused_unchanged rfl linked request
    obtain ⟨given, after, answers, unchanged⟩ := answered
    rw [answers] at isStatus
    obtain rfl : given = status := Except.ok.inj isStatus
    exact ⟨after, answers, unchanged isRefusal⟩
  exact ⟨refused _ _ (by rfl) (by decide), refused _ _ (by rfl) (by decide)⟩

end World

end Stencil
