import Stencil.Proofs.ShedValues
import Stencil.Proofs.TameScripts

/-!
Which commands an evaluation comes across. It renders what it is given and what is
cached, and what it caches on the way are copies of that. So where some commands are
neither in a chain nor in any value, they are not called while the chain is rendered.
-/

namespace Stencil

variable {names : Option String → Prop}

def Forest.Avoids (names : Option String → Prop) : Forest → Prop
  | .nil => True
  | .cons node body rest =>
      (node.kind = .command → ¬ names node.text) ∧ body.Avoids names ∧ rest.Avoids names

instance decidableAvoids [DecidablePred names] : ∀ forest : Forest, Decidable (forest.Avoids names)
  | .nil => .isTrue trivial
  | .cons node body rest =>
      have : Decidable (body.Avoids names) := decidableAvoids body
      have : Decidable (rest.Avoids names) := decidableAvoids rest
      inferInstanceAs (Decidable ((node.kind = .command → ¬ names node.text) ∧
        body.Avoids names ∧ rest.Avoids names))

namespace Store

open Relation

/-- What is reached from the element on is there, and no command that has one of the names. -/
def Avoids (store : Store) (names : Option String → Prop) (id : ElementId) : Prop :=
  ∀ other, ReflTransGen store.Leads id other →
    ∃ label, store.label other = some label ∧ (label.1 = .command → ¬ names label.2)

section Avoids

variable {store trimmed : Store} {id other : ElementId} {start : Option ElementId}
variable {forest : Forest} {ids : List ElementId}

theorem Avoids.inside (avoids : store.Avoids names id) : id < store.size := by
  obtain ⟨_, known, _⟩ := avoids id .refl
  exact inside_of_label known

theorem Avoids.called (avoids : store.Avoids names id) (isKind : store.kind? id = some .command) :
    ¬ names (store.text id) := by
  obtain ⟨⟨kind, text⟩, known, barred⟩ := avoids id .refl
  rw [kind?_eq_label, known] at isKind
  rw [text_eq_label, known]
  exact barred (Option.some.inj isKind)

theorem Avoids.walk (avoids : store.Avoids names id) (walk : ReflTransGen store.Leads id other) :
    store.Avoids names other :=
  fun last later => avoids last (walk.trans later)

theorem Avoids.next (avoids : store.Avoids names id) (isNext : store.next id = some other) :
    store.Avoids names other := avoids.walk (.single (Or.inl isNext))

theorem Avoids.child (avoids : store.Avoids names id) (isChild : store.child id = some other) :
    store.Avoids names other := avoids.walk (.single (Or.inr isChild))

theorem leads_of_follows (walk : ReflTransGen store.Follows id other) :
    ReflTransGen store.Leads id other :=
  ReflTransGen.mono (fun _ _ next => Or.inl next) _ _ walk

/-- Each link that is left leads to an element that was reached before. -/
theorem Trims.leads (trims : Trims store trimmed) (inside : id < store.size)
    (leads : trimmed.Leads id other) : ReflTransGen store.Leads id other := by
  rcases leads with isNext | isChild
  · exact leads_of_follows (trims.next id other inside isNext).to_reflTransGen
  · obtain ⟨head, isHead, onward⟩ := trims.child id other inside isChild
    exact .head (Or.inr isHead) (leads_of_follows onward)

theorem Trims.walk_back (trims : Trims store trimmed)
    (inside : ∀ other, ReflTransGen store.Leads id other → other < store.size)
    (walk : ReflTransGen trimmed.Leads id other) : ReflTransGen store.Leads id other := by
  induction walk with
  | refl => exact .refl
  | tail _ step ih => exact ih.trans (trims.leads (inside _ ih) step)

theorem Avoids.trims (avoids : store.Avoids names id) (trims : Trims store trimmed) :
    trimmed.Avoids names id := by
  intro other walk
  have before := trims.walk_back (fun other walk => (avoids.walk walk).inside) walk
  obtain ⟨label, known, barred⟩ := avoids other before
  exact ⟨label, trims.labels other label known, barred⟩

theorem Avoids.forestFor (count : Nat) (avoids : ∀ id, start = some id → store.Avoids names id)
    (read : store.forestFor count start = some forest) : forest.Avoids names := by
  induction count generalizing start forest with
  | zero =>
      cases start <;> cases read
      trivial
  | succ count ih =>
      cases start with
      | none =>
          cases read
          trivial
      | some id =>
          simp only [Store.forestFor] at read
          split at read
          · cases read
          · rename_i cell found
            obtain ⟨body, bodyRead, later⟩ := Option.bind_eq_some_iff.mp read
            obtain ⟨rest, restRead, done⟩ := Option.bind_eq_some_iff.mp later
            cases done
            have here := avoids id rfl
            have links := links_of_cell found
            refine ⟨fun isKind => ?_, ih ?_ bodyRead, ih ?_ restRead⟩
            · have called := here.called (by simp [kind?, found]; exact isKind)
              simpa [text, found] using called
            · exact fun child isChild => here.child (links.2.2.1.trans isChild)
            · exact fun next isNext => here.next (links.1.trans isNext)

theorem avoids_of_forestFor (count : Nat) (read : store.forestFor count start = some forest)
    (avoids : forest.Avoids names) : ∀ id, start = some id → store.Avoids names id := by
  induction count generalizing start forest with
  | zero =>
      rintro id rfl
      cases read
  | succ count ih =>
      rintro id rfl other walk
      simp only [Store.forestFor] at read
      split at read
      · cases read
      · rename_i cell found
        obtain ⟨body, bodyRead, later⟩ := Option.bind_eq_some_iff.mp read
        obtain ⟨rest, restRead, done⟩ := Option.bind_eq_some_iff.mp later
        cases done
        obtain ⟨here, inBody, inRest⟩ := avoids
        have links := links_of_cell found
        rcases walk.cases_head with rfl | ⟨after, isNext | isChild, onward⟩
        · exact ⟨(cell.kind, cell.text), by simp [Store.label, found], here⟩
        · exact ih restRead inRest after (links.1.symm.trans isNext) other onward
        · exact ih bodyRead inBody after (links.2.2.1.symm.trans isChild) other onward

end Avoids

end Store

namespace World

open Store

variable {settings : Settings} {world between after : World} {name : Option String}

structure Clear (names : Option String → Prop) (world : World) : Prop where
  linked : world.store.Linked
  values : ∀ name chain, world.context.chainOf name = some chain → world.store.Avoids names chain
  commands : Tame world.context.commands

structure Clears (names : Option String → Prop) (world after : World) : Prop where
  clear : Clear names world → Clear names after
  trims : Clear names world → Trims world.store after.store

section Clears

theorem Clears.refl (world : World) : Clears names world world := ⟨id, fun _ => .refl _⟩

theorem Clears.trans (first : Clears names world between) (second : Clears names between after) :
    Clears names world after where
  clear := second.clear ∘ first.clear
  trims := fun clear =>
    (first.trims clear).trans clear.linked (second.trims (first.clear clear))

theorem Clear.of_context (clear : Clear names world) (store : after.store = world.store)
    (cache : after.context.cache = world.context.cache)
    (commands : after.context.commands = world.context.commands) : Clear names after where
  linked := store ▸ clear.linked
  values := fun name chain isChain =>
    store ▸ clear.values name chain (by rwa [Context.chainOf, cache] at isChain)
  commands := commands ▸ clear.commands

theorem Clears.of_sheds {offered : Option ElementId} (sheds : Sheds world after name offered)
    (avoids : ∀ chain, offered = some chain → world.store.Avoids names chain) :
    Clears names world after where
  clear := fun clear => by
    refine ⟨sheds.linked clear.linked, fun other chain isChain => ?_,
      sheds.commands ▸ clear.commands⟩
    have found : world.store.Avoids names chain := by
      rcases sheds.cached other chain isChain with old | ⟨_, isOffered⟩
      · exact clear.values other chain old
      · exact avoids chain isOffered
    exact found.trims (sheds.trims clear.linked)
  trims := fun clear => sheds.trims clear.linked

theorem note_clears (settings : Settings) (notices : List Notice) (world : World) :
    Clears names world (note settings notices world) := by
  have sheds : Sheds world (note settings notices world) none none := .of_context rfl rfl
  exact .of_sheds sheds nofun

theorem Clear.grown (clear : Clear names world) (context : after.context = world.context)
    {start : Option ElementId} {forest : Forest} {ids : List ElementId}
    (grows : Grown world.store after.store start forest ids) : Clear names after where
  linked := grown_linked grows clear.linked
  values := fun name chain isChain =>
    (clear.values name chain (context ▸ isChain)).trims grows.trims
  commands := context ▸ clear.commands

theorem cacheCopy_clears {start : Option ElementId}
    (avoids : ∀ id, start = some id → world.store.Avoids names id)
    (copied : world.cacheCopy settings name start = some after) : Clears names world after := by
  obtain ⟨forest, store, head, ids, read, grows, _, _, sheds⟩ := cacheCopy_cases copied
  have copies : Clears names world { world with store } :=
    ⟨fun clear => clear.grown rfl grows, fun _ => grows.trims⟩
  exact copies.trans (.of_sheds sheds (avoids_of_forestFor _ grows.planted.forest?
    (Avoids.forestFor _ avoids read)))

theorem leavePin_clears {chain : ElementId}
    (inner : Clears names (world.enterPin name (some chain)) after) :
    Clears names world (after.leavePin name (some chain)) := by
  have left : Clears names world (after.withContext (·.leave name (some chain))) := by
    have entered : Clear names world → Clear names (world.enterPin name (some chain)) :=
      fun clear => clear.of_context rfl rfl rfl
    exact ⟨fun clear => (inner.clear (entered clear)).of_context rfl rfl rfl,
      fun clear => inner.trims (entered clear)⟩
  exact left.trans (.of_sheds (leavePin_sheds after name chain) nofun)

end Clears

section Tasks

def Task.Avoids (names : Option String → Prop) (world : World) : Task → Prop
  | .render start _ => ∀ id, start = some id → world.store.Avoids names id
  | .follow id _ | .one id | .assign _ id => world.store.Avoids names id
  | .value _ => True
  | .call handler element =>
      handler.Writes ∧ ∃ id, element = some id ∧ world.store.Avoids names id
  | .run element actions _ =>
      (∀ action ∈ actions, action.Writes) ∧
        ∃ id, element = some id ∧ world.store.Avoids names id

variable {id : ElementId}

theorem Clears.avoids (clears : Clears names world after) (clear : Clear names world)
    (avoids : world.store.Avoids names id) : after.store.Avoids names id :=
  avoids.trims (clears.trims clear)

theorem avoids_child (avoids : world.store.Avoids names id) :
    ∀ body, world.store.child id = some body → world.store.Avoids names body :=
  fun _ isBody => avoids.child isBody

theorem avoids_asked (avoids : world.store.Avoids names id) {action : Action}
    (writes : action.Writes) {start : Option ElementId} {toEnd : Bool} {changed : World}
    (performed : world.perform settings (some id) action = (.ok (.render start toEnd), changed)) :
    ∀ body, start = some body → world.store.Avoids names body := by
  obtain ⟨_, _, ⟨text, adds⟩ | ⟨asked, renders, isBody⟩⟩ := perform_writes settings world id writes
  · rw [performed] at adds
    cases adds
  · rw [performed] at renders
    cases renders
    rcases isBody with rfl | rfl
    · exact nofun
    · exact avoids_child avoids

variable (settings names) in
/-- All that comes of a task without such commands is without them. -/
theorem avoids_conduct : Conduct settings
    (fun world task => Clear names world ∧ task.Avoids names world) (Clears names) where
  refl := .refl
  trans _ _ _ := .trans
  note world notices := note_clears settings notices world
  begins := by
    rintro stage next begins ⟨clear, avoids⟩ clears
    cases begins with
    | render _ => exact ⟨clear.of_context rfl rfl rfl, avoids _ rfl⟩
    | one => exact ⟨clear, avoids⟩
    | next _ isNext => exact ⟨clears.clear clear, (clears.avoids clear avoids).next isNext⟩
    | body _ isBody =>
        refine ⟨clear, ?_⟩
        rintro _ ⟨⟩
        exact avoids_child avoids _ isBody
    | assign => exact ⟨clears.clear clear, clears.avoids clear avoids⟩
    | value => exact ⟨clear, trivial⟩
    | pinned isChain _ =>
        refine ⟨clear.of_context rfl rfl rfl, ?_⟩
        rintro _ ⟨⟩
        exact clear.values _ _ isChain
    | call _ isHandler => exact ⟨clear, clear.commands _ _ isHandler, _, rfl, avoids⟩
    | script => exact ⟨clear, avoids⟩
    | @added _ _ _ _ action _ _ _ _ =>
        obtain ⟨writes, id, rfl, avoids⟩ := avoids
        have later := fun other member => writes other (List.mem_cons_of_mem action member)
        exact ⟨clears.clear clear, later, id, rfl, clears.avoids clear avoids⟩
    | asked performed =>
        obtain ⟨writes, id, rfl, avoids⟩ := avoids
        have asked := avoids_asked avoids (writes _ List.mem_cons_self) performed
        exact ⟨clears.clear clear, fun body isBody => clears.avoids clear (asked body isBody)⟩
    | @resumed _ _ _ _ _ _ action _ _ _ _ _ _ =>
        obtain ⟨writes, id, rfl, avoids⟩ := avoids
        have later := fun other member => writes other (List.mem_cons_of_mem action member)
        exact ⟨clears.clear clear, later, id, rfl, clears.avoids clear avoids⟩
  shallower world after _ _ _ inner := by
    have deep : Clear names world → Clear names world.deeper :=
      fun clear => clear.of_context rfl rfl rfl
    exact ⟨fun clear => (inner.clear (deep clear)).of_context rfl rfl rfl,
      fun clear => inner.trims (deep clear)⟩
  leaves _ _ _ _ _ _ _ inner := leavePin_clears inner
  assigns _ _ _ _ isGood copied := cacheCopy_clears (avoids_child isGood.2) copied
  performs world element action rest _ isGood := by
    obtain ⟨_, writes, id, rfl, _⟩ := isGood
    obtain ⟨notices, same, _⟩ := perform_writes settings world id (writes _ List.mem_cons_self)
    rw [same]
    exact note_clears settings notices world

end Tasks

end World

end Stencil
