import Stencil.Proofs.RootedChains
import Stencil.Proofs.ShedValues

/-!
Evaluations of rooted worlds. A world is rooted if its store is linked and what is
cached or retired begins with an element that has neither a sibling before it nor
an owner. What the cache lets go of is not pinned, so no operation on the cache
changes an element of a pinned chain. No part of an evaluation loses a root, and
siblings of a pinned chain come in their order as before unless a script takes its
own element out.
-/

namespace Stencil

inductive Action.Conserves : Action → Prop where
  | register (name : String) (actions : List Action)
      (conserve : ∀ action ∈ actions, Action.Conserves action) : Conserves (.register name actions)
  | plain {action : Action} (alone : ∀ name actions, action ≠ .register name actions)
      (stays : action ≠ .removeSelf) : Conserves action

def Handler.Conserves : Handler → Prop
  | .script actions => ∀ action ∈ actions, action.Conserves
  | .inert => True

def Context.Conserves (context : Context) : Prop :=
  ∀ entry ∈ context.commands.entries, entry.2.Conserves

namespace World

open Store

structure Rooted (world : World) : Prop where
  linked : world.store.Linked
  roots : ∀ chain, world.context.Knows chain → world.store.Root chain

structure Upkept (world after : World) : Prop where
  rooted : after.Rooted
  roots : ∀ id, world.store.Root id → after.store.Root id
  spares : ∀ head, world.context.isPinned head = true → world.store.Root head →
    Spares world.store after.store head
  commands : after.context.commands = world.context.commands
  pins : after.context.pins = world.context.pins

section Upkeep

variable {world between after : World} {chain : ElementId} {name : Option String}

theorem Upkept.refl (rooted : world.Rooted) : Upkept world world :=
  ⟨rooted, fun _ => id, fun _ _ _ _ _ => rfl, rfl, rfl⟩

theorem Upkept.trans (first : Upkept world between) (second : Upkept between after) :
    Upkept world after where
  rooted := second.rooted
  roots := fun id root => second.roots id (first.roots id root)
  spares := by
    intro head pinned root
    have still : between.context.isPinned head = true := by
      rwa [Context.isPinned, first.pins]
    exact (first.spares head pinned root).trans (second.spares head still (first.roots head root))
  commands := second.commands.trans first.commands
  pins := second.pins.trans first.pins

theorem Upkept.of_store (rooted : world.Rooted) (store : after.store = world.store)
    (knows : ∀ chain, after.context.Knows chain → world.store.Root chain)
    (commands : after.context.commands = world.context.commands)
    (pins : after.context.pins = world.context.pins) : Upkept world after where
  rooted := ⟨store ▸ rooted.linked, fun chain known => store ▸ knows chain known⟩
  roots := fun _ root => store ▸ root
  spares := fun _ _ _ _ _ => by rw [store]
  commands := commands
  pins := pins

theorem Upkept.grown {forest : Forest} {ids : List ElementId} {start : Option ElementId}
    (rooted : world.Rooted) (context : after.context = world.context)
    (grows : Grown world.store after.store start forest ids) : Upkept world after where
  rooted := by
    refine ⟨grown_linked grows rooted.linked, fun chain known => ?_⟩
    rw [context] at known
    exact (rooted.roots chain known).grow grows
  roots := fun _ root => root.grow grows
  spares := fun _ _ root => spares_grown rooted.linked root grows
  commands := by rw [context]
  pins := by rw [context]

theorem destroyAll_upkept (rooted : world.Rooted) (root : world.store.Root chain)
    (unpinned : world.context.isPinned chain = false) :
    Upkept world (world.destroyAll (some chain)) where
  rooted := ⟨destroyAll_linked rooted.linked _, fun other known =>
    (rooted.roots other known).pruned (destroyAll_pruned rooted.linked _)⟩
  roots := fun _ other => other.pruned (destroyAll_pruned rooted.linked _)
  spares := by
    intro other pinned otherRoot
    apply destroyAll_spares rooted.linked root otherRoot
    rintro rfl
    rw [unpinned] at pinned
    cases pinned
  commands := rfl
  pins := rfl

theorem retire_upkept (rooted : world.Rooted) (root : world.store.Root chain) :
    Upkept world (world.retire chain) := by
  unfold retire
  split
  · refine .of_store rooted rfl (fun other known => ?_) rfl rfl
    rcases known with cached | retired
    · exact rooted.roots other (Or.inl cached)
    · rcases List.mem_append.mp retired with old | new
      · exact rooted.roots other (Or.inr old)
      · exact List.mem_singleton.mp new ▸ root
  · rename_i unpinned
    exact destroyAll_upkept rooted root (by simpa using unpinned)

theorem foldl_retire_upkept (lost : List ElementId) (rooted : world.Rooted)
    (roots : ∀ chain ∈ lost, world.store.Root chain) : Upkept world (lost.foldl retire world) := by
  induction lost generalizing world with
  | nil => exact .refl rooted
  | cons chain rest ih =>
      have first := retire_upkept rooted (roots chain List.mem_cons_self)
      exact first.trans (ih first.rooted fun other member =>
        first.roots other (roots other (List.mem_cons_of_mem chain member)))

theorem Sheds.upkept {offered : Option ElementId} (sheds : Sheds world after name offered)
    (rooted : world.Rooted) (root : ∀ chain, offered = some chain → world.store.Root chain) :
    Upkept world after := by
  have destroyed : Upkept world { world with store := after.store } := by
    rcases sheds.store with same | ⟨chain, known, unpinned, same⟩
    · rw [same]
      exact .refl rooted
    · rw [same]
      exact destroyAll_upkept rooted (rooted.roots chain known) unpinned
  refine destroyed.trans (.of_store destroyed.rooted rfl (fun chain known => ?_) sheds.commands
    sheds.pins)
  exact destroyed.roots chain ((sheds.knows chain known).elim (rooted.roots chain) (root chain))

theorem setVariable_upkept (settings : Settings) (rooted : world.Rooted) (name : Option String)
    {offered : Option ElementId} (root : ∀ chain, offered = some chain → world.store.Root chain)
    (readOnly : Bool) : Upkept world (world.setVariable settings name offered readOnly).2 :=
  (setVariable_sheds settings world name offered readOnly).upkept rooted root

theorem eraseVariable_upkept (rooted : world.Rooted) (name : Option String) :
    Upkept world (world.eraseVariable name) := by
  have erased : Upkept world (world.withContext fun context =>
      { context with cache := context.cache.erase name }) := by
    refine .of_store rooted rfl (fun chain known => ?_) rfl rfl
    rcases known with cached | retired
    · obtain ⟨entry, member, isChain⟩ := List.mem_filterMap.mp cached
      exact rooted.roots chain
        (Or.inl (List.mem_filterMap.mpr ⟨entry, List.mem_of_mem_filter member, isChain⟩))
    · exact rooted.roots chain (Or.inr retired)
  unfold eraseVariable
  split
  · rename_i chain cached
    have root := rooted.roots chain (Or.inl (mem_chains_of_chainOf cached))
    exact erased.trans (retire_upkept erased.rooted (erased.roots chain root))
  · exact erased

theorem clearVariables_upkept (rooted : world.Rooted) : Upkept world world.clearVariables := by
  have emptied := foldl_retire_upkept world.context.chains rooted
    fun chain cached => rooted.roots chain (Or.inl cached)
  refine emptied.trans (.of_store emptied.rooted rfl (fun chain known => ?_) rfl rfl)
  rcases known with cached | retired
  · cases cached
  · exact emptied.rooted.roots chain (Or.inr retired)

theorem Brings.upkept {head : Option ElementId} (brings : Brings world after head)
    (rooted : world.Rooted) :
    Upkept world after ∧ ∀ chain, head = some chain → after.store.Root chain := by
  rcases brings.store with ⟨rfl, same⟩ | ⟨rfl, forest, ids, grows, _⟩
  · refine ⟨.of_store rooted same ?_ (by rw [brings.context]) (by rw [brings.context]), by simp⟩
    rw [brings.context]
    exact rooted.roots
  · refine ⟨.grown rooted brings.context grows, ?_⟩
    rintro chain ⟨⟩
    exact grows.root

/-- An inline assignment changes no element of a pinned chain. -/
theorem cacheCopy_upkept {settings : Settings} {start : Option ElementId} (rooted : world.Rooted)
    (copied : world.cacheCopy settings name start = some after) : Upkept world after := by
  obtain ⟨forest, store, head, ids, _, grows, _, _, sheds⟩ := cacheCopy_cases copied
  have copies : Upkept world { world with store := store } := .grown rooted rfl grows
  refine copies.trans (sheds.upkept copies.rooted ?_)
  rintro chain rfl
  exact grows.root

end Upkeep

/-- What every part of an evaluation comes to in a rooted world. If it is
`conserving`, no script that may be called takes an element out. -/
structure Sequel (conserving : Prop) (world after : World) : Prop where
  orderly : Orderly world after
  rooted : world.Rooted → after.Rooted
  roots : world.Rooted → ∀ id, world.store.Root id → after.store.Root id
  continues : conserving → world.Rooted → ∀ head, world.context.isPinned head = true →
    world.store.Root head → Continues world.store after.store head
  conserves : conserving → world.Rooted → world.context.Conserves → after.context.Conserves

structure Walked (conserving : Prop) (heads : ElementId → Prop) (world : World) : Prop where
  rooted : world.Rooted
  roots : ∀ head, heads head → world.store.Root head
  pinned : ∀ head, heads head → world.context.isPinned head = true
  conserves : conserving → world.context.Conserves

section Sequels

variable {conserving : Prop} {heads : ElementId → Prop} {world between after : World}

theorem Orderly.isPinned (orderly : Orderly world after) (chain : ElementId) :
    after.context.isPinned chain = world.context.isPinned chain := by
  rw [Context.isPinned, orderly.pins, Context.isPinned]

theorem Orderly.inside (orderly : Orderly world after) {id : ElementId}
    (inside : id < world.store.size) : id < after.store.size := by
  obtain ⟨label, known⟩ := exists_label inside
  exact inside_of_label (orderly.retains.labels id label known)

theorem Sequel.refl (world : World) : Sequel conserving world world :=
  ⟨.refl world, id, fun _ _ => id, fun _ _ head _ _ => .refl _ head, fun _ _ => id⟩

theorem Sequel.trans (first : Sequel conserving world between)
    (second : Sequel conserving between after) : Sequel conserving world after where
  orderly := first.orderly.trans second.orderly
  rooted := second.rooted ∘ first.rooted
  roots := fun rooted id root => second.roots (first.rooted rooted) id (first.roots rooted id root)
  continues := fun isConserving rooted head pinned root =>
    (first.continues isConserving rooted head pinned root).trans
      (second.continues isConserving (first.rooted rooted) head
        ((first.orderly.isPinned head).trans pinned) (first.roots rooted head root))
  conserves := fun isConserving rooted conserves =>
    second.conserves isConserving (first.rooted rooted)
      (first.conserves isConserving rooted conserves)

theorem Sequel.walked (sequel : Sequel conserving world after)
    (found : Walked conserving heads world) : Walked conserving heads after where
  rooted := sequel.rooted found.rooted
  roots := fun head isHead => sequel.roots found.rooted head (found.roots head isHead)
  pinned := fun head isHead => (sequel.orderly.isPinned head).trans (found.pinned head isHead)
  conserves := fun isConserving =>
    sequel.conserves isConserving found.rooted (found.conserves isConserving)

theorem Sequel.of_upkept (orderly : Orderly world after)
    (upkept : world.Rooted → Upkept world after) : Sequel conserving world after where
  orderly := orderly
  rooted := fun rooted => (upkept rooted).rooted
  roots := fun rooted => (upkept rooted).roots
  continues := fun _ rooted head pinned root =>
    ((upkept rooted).spares head pinned root).continues
  conserves := fun _ rooted conserves => by rwa [Context.Conserves, (upkept rooted).commands]

-- Neither the store nor what the context says of chains and scripts changed.
theorem Sequel.of_same (orderly : Orderly world after) (store : after.store = world.store)
    (cache : after.context.cache = world.context.cache)
    (retired : after.context.retired = world.context.retired)
    (commands : after.context.commands = world.context.commands) :
    Sequel conserving world after := by
  refine .of_upkept orderly fun rooted => .of_store rooted store (fun chain known => ?_)
    commands orderly.pins
  rw [Context.Knows, Context.chains, cache, retired] at known
  exact rooted.roots chain known

end Sequels

section Operations

variable {conserving : Prop} {heads : ElementId → Prop} {world after : World}

theorem leavePin_sequel {name : Option String} {chain : ElementId}
    (unmarked : world.context.isExpanding name = false)
    (inner : Sequel conserving (world.enterPin name (some chain)) after) :
    Sequel conserving world (after.leavePin name (some chain)) := by
  have orderly := leavePin_orderly unmarked inner.orderly
  have entered : world.Rooted → (world.enterPin name (some chain)).Rooted :=
    fun rooted => ⟨rooted.linked, rooted.roots⟩
  have pins := (Context.leave_enter unmarked inner.orderly.expanding inner.orderly.pins).2
  have ends : world.Rooted → Upkept (after.withContext (·.leave name (some chain)))
      (after.leavePin name (some chain)) := by
    intro rooted
    have inside := inner.rooted (entered rooted)
    have left : (after.withContext (·.leave name (some chain))).Rooted :=
      ⟨inside.linked, inside.roots⟩
    exact (leavePin_sheds after name chain).upkept left nofun
  refine ⟨orderly, fun rooted => (ends rooted).rooted, ?_, ?_, ?_⟩
  · exact fun rooted id root => (ends rooted).roots id (inner.roots (entered rooted) id root)
  · intro isConserving rooted head pinned root
    have kept : (after.context.leave name (some chain)).isPinned head = true := by
      rwa [Context.isPinned, pins]
    have still : (world.enterPin name (some chain)).context.isPinned head = true := by
      simp only [Context.isPinned, List.contains_eq_mem, decide_eq_true_eq] at pinned ⊢
      exact List.mem_cons_of_mem _ pinned
    have within := inner.continues isConserving (entered rooted) head still root
    exact within.trans ((ends rooted).spares head kept
      (inner.roots (entered rooted) head root)).continues
  · intro isConserving rooted conserves
    have within := inner.conserves isConserving (entered rooted) conserves
    rwa [Context.Conserves, (ends rooted).commands]

theorem register_conserves {context : Context} (conserves : context.Conserves)
    (name : Option String) {handler : Handler} (conserve : handler.Conserves) :
    ({ context with commands := context.commands.put name handler } : Context).Conserves := by
  intro entry member
  have split := (Table.putEntry_perm name handler context.commands.entries).subset member
  rcases List.mem_cons.mp split with new | old
  · exact new ▸ conserve
  · exact conserves entry (List.eraseP_subset old)

theorem unregister_conserves {context : Context} (conserves : context.Conserves)
    (name : Option String) :
    ({ context with commands := context.commands.erase name } : Context).Conserves :=
  fun entry member => conserves entry (List.mem_of_mem_filter member)

theorem Sequel.of_edit (orderly : Orderly world after) (context : after.context = world.context)
    (linked : world.Rooted → after.store.Linked)
    (roots : world.Rooted → ∀ id, world.store.Root id → after.store.Root id)
    (continues : conserving → world.Rooted → ∀ head, world.store.Root head →
      Continues world.store after.store head) : Sequel conserving world after where
  orderly := orderly
  rooted := by
    refine fun rooted => ⟨linked rooted, fun chain known => ?_⟩
    rw [context] at known
    exact roots rooted chain (rooted.roots chain known)
  roots := roots
  continues := fun isConserving rooted head _ => continues isConserving rooted head
  conserves := fun _ _ => context ▸ id

theorem appended_sequel {settings : Settings} {element head : Option ElementId} {parsed : World}
    {outcome : Outcome} (known : ∀ id, element = some id → id < world.store.size)
    (brings : Brings world parsed head)
    (ran : parsed.store.append settings.errorChecks element head = .ok outcome)
    (store : after.store = outcome.store) (context : after.context = world.context)
    (orderly : Orderly world after) : Sequel conserving world after := by
  have old : ∀ host, element = some host → host < parsed.store.size := fun host isHost =>
    brings.orderly.inside (known host isHost)
  have keeps : world.Rooted → after.store.Linked ∧
      (∀ id, world.store.Root id → after.store.Root id) ∧
      ∀ start, world.store.Root start → Continues world.store after.store start := by
    intro rooted
    obtain ⟨upkept, root⟩ := brings.upkept rooted
    have apart : ∀ host start, element = some host → head = some start →
        host ∉ (parsed.store.visit (some start)).1 := by
      intro host start isHost isStart
      rcases brings.store with ⟨none, _⟩ | ⟨_, forest, ids, grows, _⟩
      · rw [none] at isStart
        cases isStart
      · rw [isStart] at grows
        exact grows.not_visited upkept.rooted.linked (known host isHost)
    have new : ∀ id, world.store.Root id → head ≠ some id := by
      rintro id rootId rfl
      rcases brings.store with ⟨none, _⟩ | ⟨isSize, _⟩
      · cases none
      · exact Nat.ne_of_lt rootId.inside (Option.some.inj isSize)
    have parsedContinues : ∀ start, world.store.Root start →
        Continues world.store parsed.store start := by
      intro start rootStart
      rcases brings.store with ⟨_, same⟩ | ⟨_, forest, ids, grows, _⟩
      · exact same ▸ .refl _ start
      · exact (spares_grown rooted.linked rootStart grows).continues
    obtain ⟨linked, roots, continues⟩ := append_keeps upkept.rooted.linked old root apart ran
    rw [store]
    exact ⟨linked, fun id rootId => roots id (new id rootId) (upkept.roots id rootId),
      fun start rootStart => (parsedContinues start rootStart).trans (continues start)⟩
  exact .of_edit orderly context (fun rooted => (keeps rooted).1) (fun rooted => (keeps rooted).2.1)
    fun _ rooted => (keeps rooted).2.2

theorem filled_sequel {settings : Settings} {grown : Store} {forest : Forest}
    {ids : List ElementId} {id : ElementId} {outcome : Outcome} (old : id < world.store.size)
    (grows : Grown world.store grown (some world.store.size) forest ids)
    (ran : grown.install settings.errorChecks id (some world.store.size) = .ok outcome)
    (store : after.store = outcome.store) (context : after.context = world.context)
    (orderly : Orderly world after) : Sequel conserving world after := by
  have keeps : world.Rooted → after.store.Linked ∧
      (∀ id, world.store.Root id → after.store.Root id) ∧
      ∀ start, world.store.Root start → Continues world.store after.store start := by
    intro rooted
    have linked := grown_linked grows rooted.linked
    obtain ⟨relinked, roots, continues⟩ := install_keeps linked
      (Nat.lt_trans old grows.start_inside) grows.root (grows.not_visited linked old) ran
    rw [store]
    refine ⟨relinked, fun other root => roots other ?_ (root.grow grows), fun start root =>
      (spares_grown rooted.linked root grows).continues.trans (continues start (root.grow grows))⟩
    exact Nat.ne_of_lt root.inside
  exact .of_edit orderly context (fun rooted => (keeps rooted).1) (fun rooted => (keeps rooted).2.1)
    fun _ rooted => (keeps rooted).2.2

/-- No action on an element that is there loses a root, and only one that takes its
element out disturbs the order of a chain. -/
theorem perform_sequel (settings : Settings) {element : Option ElementId}
    (known : ∀ id, element = some id → id < world.store.size) {action : Action}
    (conserve : conserving → action.Conserves) :
    Sequel conserving world (world.perform settings element action).2 := by
  have orderly := perform_orderly settings world element action
  have effect := perform_effect settings world element action
  generalize (world.perform settings element action).2 = after at effect orderly ⊢
  cases effect with
  | idle store context =>
      exact .of_same orderly store (by rw [context]) (by rw [context]) (by rw [context])
  | stored name source readOnly shown brings =>
      refine .of_upkept orderly fun rooted => ?_
      obtain ⟨parsed, root⟩ := brings.upkept rooted
      exact parsed.trans (setVariable_upkept settings parsed.rooted name root readOnly)
  | erased name => exact .of_upkept orderly fun rooted => eraseVariable_upkept rooted name
  | cleared => exact .of_upkept orderly clearVariables_upkept
  | registered name actions =>
      have conserved : conserving → (Handler.script actions).Conserves := by
        intro isConserving
        cases conserve isConserving with
        | register _ _ conserve => exact conserve
        | plain alone _ => exact absurd rfl (alone name actions)
      simp only [World.register] at orderly ⊢
      split
      · exact .of_same ⟨rfl, rfl, rfl, .refl _⟩ rfl rfl rfl rfl
      · exact ⟨⟨rfl, rfl, rfl, .refl _⟩, fun rooted => ⟨rooted.linked, rooted.roots⟩,
          fun _ _ => id, fun _ _ head _ _ => .refl _ head, fun isConserving _ conserves =>
          register_conserves conserves name (conserved isConserving)⟩
  | unregistered name =>
      exact ⟨orderly, fun rooted => ⟨rooted.linked, rooted.roots⟩, fun _ _ => id,
        fun _ _ head _ _ => .refl _ head, fun _ _ conserves => unregister_conserves conserves name⟩
  | @removed id _ _ store context =>
      refine .of_edit orderly context (fun rooted => store ▸ detach_linked rooted.linked id)
        (fun rooted other root => store ▸ root.pruned (detach_pruned rooted.linked id)) ?_
      -- An element goes out of its chain, so no conserving script does this.
      intro isConserving
      cases conserve isConserving with
      | plain _ stays => exact absurd rfl stays
  | brought source brings =>
      exact .of_upkept orderly fun rooted => (brings.upkept rooted).1
  | appended source brings ran store context =>
      exact appended_sequel known brings ran store context orderly
  | filled source grows proper isElement ran store context =>
      exact filled_sequel (known _ isElement) grows ran store context orderly
  | @put id key value _ =>
      have same := relabelled_links world.store id
        (fun cell => { cell with properties := (world.store.properties id).put key value })
        fun cell => ⟨rfl, rfl, rfl, rfl⟩
      refine .of_edit orderly rfl (fun rooted => rooted.linked.of_links same) ?_ ?_
      · exact fun _ other root => ⟨(size_update world.store id _).symm ▸ root.inside,
          (same other).2.1.trans root.prev, (same other).2.2.2.trans root.parent⟩
      · exact fun _ _ head _ => .of_next fun other _ => (same other).1

def MayRun (conserving : Prop) (world : World) (element : Option ElementId)
    (actions : List Action) : Prop :=
  (∀ id, element = some id → id < world.store.size) ∧
    (conserving → ∀ action ∈ actions, action.Conserves)

theorem sequel_upheld (settings : Settings) (conserving : Prop) (heads : ElementId → Prop) :
    Upheld settings (Walked conserving heads) (Sequel conserving) (MayRun conserving) where
  refl := Sequel.refl
  trans _ _ _ := Sequel.trans
  kept _ _ := Sequel.walked
  note _ _ := .of_same ⟨rfl, rfl, rfl, .refl _⟩ rfl rfl rfl rfl
  deeper _ found _ := ⟨⟨found.rooted.linked, found.rooted.roots⟩, found.roots, found.pinned,
    found.conserves⟩
  shallower world after inner := by
    have orderly := shallower_orderly inner.orderly
    have deeper : world.Rooted → world.deeper.Rooted := fun rooted =>
      ⟨rooted.linked, rooted.roots⟩
    refine ⟨orderly, fun rooted => ?_, fun rooted => inner.roots (deeper rooted),
      fun isConserving rooted => inner.continues isConserving (deeper rooted),
      fun isConserving rooted => inner.conserves isConserving (deeper rooted)⟩
    have inside := inner.rooted (deeper rooted)
    exact ⟨inside.linked, inside.roots⟩
  enters world name chain found _ := by
    refine ⟨⟨found.rooted.linked, found.rooted.roots⟩, found.roots, fun head isHead => ?_,
      found.conserves⟩
    have pinned := found.pinned head isHead
    simp only [Context.isPinned, List.contains_eq_mem, decide_eq_true_eq] at pinned ⊢
    exact List.mem_cons_of_mem _ pinned
  leaves _ _ _ _ _ _ unmarked inner := leavePin_sequel unmarked inner
  assigns _ _ _ _ _ copied :=
    .of_upkept (cacheCopy_orderly copied) fun rooted => cacheCopy_upkept rooted copied
  calls world id actions found isKind isHandler := by
    obtain ⟨cell, isCell, _⟩ := Option.map_eq_some_iff.mp isKind
    refine ⟨?_, fun isConserving => ?_⟩
    · rintro _ ⟨⟩
      exact inside_of_get? isCell
    · exact found.conserves isConserving _ (Table.mem_of_lookup isHandler)
  performs world element action rest _ mayRun := by
    refine perform_sequel settings mayRun.1 fun isConserving => ?_
    exact mayRun.2 isConserving action List.mem_cons_self
  runs_on world after element action rest sequel mayRun := by
    refine ⟨fun id isElement => sequel.orderly.inside (mayRun.1 id isElement), ?_⟩
    exact fun isConserving other member =>
      mayRun.2 isConserving other (List.mem_cons_of_mem action member)

/-- A rooted world is rooted after any evaluation. -/
theorem render_rooted {settings : Settings} {fuel : Nat} {start : Option ElementId} {toEnd : Bool}
    {rendered : Rendered} (rooted : world.Rooted)
    (ran : render settings fuel world start toEnd = some rendered) : rendered.2.Rooted := by
  have found : Walked False (fun _ => False) world :=
    ⟨rooted, fun _ => False.elim, fun _ => False.elim, False.elim⟩
  have sequel := (sequel_upheld settings False fun _ => False).keeps_through fuel world
    (.render start toEnd) rendered.2 found trivial (by simp [Stage.after, ran])
  exact sequel.rooted rooted

end Operations

end World

end Stencil
