import Stencil.Proofs.AvoidedCommands
import Stencil.Proofs.JoinedDocuments
import Stencil.Proofs.ListSplices
import Stencil.Proofs.SeparateValues

/-!
What an evaluation leaves of its document. It adds elements, and it destroys chains that
were cached when they were replaced or pinned. No link to a sibling or a body leads out
of the document, and none leads into it from a cached chain. A destruction writes to what
it reaches and to what links to that, so it misses the document. What is cached meanwhile
is a copy. So the document and the values stay apart, and either outlives the other.
-/

namespace Stencil

namespace Store

open Relation

def Closed (store : Store) (region : ElementId → Prop) : Prop :=
  ∀ id other, region id → store.Leads id other → region other

def Misses (store : Store) (region : ElementId → Prop) (id : ElementId) : Prop :=
  ∀ other, ReflTransGen store.Leads id other → other < store.size ∧ ¬ region other

def Apart (store : Store) (head other : ElementId) : Prop :=
  ∀ id, store.Reached [head] id → ¬ store.Reached [other] id

section Regions

variable {store changed : Store} {region : ElementId → Prop} {id other : ElementId}

theorem closed_reached (store : Store) (id : ElementId) : store.Closed (store.Reached [id]) := by
  rintro before after ⟨start, isStart, walk⟩ leads
  exact ⟨start, isStart, walk.tail leads⟩

theorem Closed.walk (closed : store.Closed region) (inside : region id)
    (walk : ReflTransGen store.Leads id other) : region other := by
  induction walk with
  | refl => exact inside
  | tail _ leads ih => exact closed _ _ ih leads

theorem Closed.kept (closed : store.Closed region)
    (same : ∀ id, region id → changed.get? id = store.get? id) : changed.Closed region := by
  intro id other inside leads
  have links := links_of_get? (same id inside)
  exact closed id other inside (leads.imp links.1.symm.trans links.2.2.1.symm.trans)

theorem Misses.walk (misses : store.Misses region id) (walk : ReflTransGen store.Leads id other) :
    store.Misses region other :=
  fun last later => misses last (walk.trans later)

theorem Misses.trims (misses : store.Misses region id) (trims : Trims store changed) :
    changed.Misses region id := by
  intro other walk
  have before := trims.walk_back (fun other walk => (misses other walk).1) walk
  obtain ⟨inside, outside⟩ := misses other before
  exact ⟨trims.inside inside, outside⟩

theorem Linked.inside_of_leads (linked : store.Linked) (inside : id < store.size)
    (walk : ReflTransGen store.Leads id other) : other < store.size := by
  cases walk with
  | refl => exact inside
  | tail _ leads =>
      rcases leads with next | child
      · exact inside_of_prev ((linked.next_prev _ _).mp next)
      · exact inside_of_parent ((linked.first _ _).mp child).1

theorem Apart.misses (apart : store.Apart id other) (linked : store.Linked)
    (inside : other < store.size) : store.Misses (store.Reached [id]) other :=
  fun last walk => ⟨linked.inside_of_leads inside walk,
    fun reached => apart last reached (reached_single.mpr walk)⟩

theorem Root.apart (linked : store.Linked) (root : store.Root id) (otherRoot : store.Root other)
    (different : other ≠ id) : store.Apart id other := by
  intro last reached fromOther
  have shared := (root.enclosed linked).origin linked fromOther reached
  exact different (otherRoot.reached linked shared)

theorem Apart.symm (apart : store.Apart id other) : store.Apart other id :=
  fun last reached fromHead => apart last fromHead reached

end Regions

section Destruction

variable {store : Store} (linked : store.Linked) {region : ElementId → Prop}
variable (closed : store.Closed region) {id : ElementId} (misses : store.Misses region id)
include linked closed misses

-- Taking an element out writes to itself, to the one behind it, and to those that link to it.
theorem detach_misses {other : ElementId} (inside : region other) :
    (store.detach id).get? other = store.get? other := by
  have outside : ¬ region id := (misses id .refl).2
  have different : other ≠ id := fun same => outside (same ▸ inside)
  have notNext : store.next id ≠ some other := fun next =>
    (misses other (.single (Or.inl next))).2 inside
  have notPrev : store.prev id ≠ some other := fun prev =>
    outside (closed other id inside (Or.inl ((linked.next_prev other id).mpr prev)))
  have notChild : store.child other ≠ some id := fun child =>
    outside (closed other id inside (Or.inr child))
  have reads := detach_reads linked id
  apply get?_of_reads (node?_detach store id other)
  rw [reads.next, reads.prev, reads.child, reads.parent, if_neg different, if_neg notPrev,
    if_neg different, if_neg notNext, if_neg notChild, if_neg different]
  exact ⟨rfl, rfl, rfl, rfl⟩

theorem destroyOne_misses {other : ElementId} (inside : region other) :
    (store.destroyOne id).get? other = store.get? other := by
  have beyond : ¬ (store.detach id).Reached [id] other := by
    intro reached
    rcases reflTransGen_iff_eq_or_transGen.mp (detached_climb linked reached) with same | climb
    · exact (misses id .refl).2 (same ▸ inside)
    · exact (misses other (linked.leads_of_climb climb).to_reflTransGen).2 inside
  rw [(destroyOne_cleared linked id).beyond other beyond]
  exact detach_misses linked closed misses inside

end Destruction

theorem destroyAllFor_misses {store : Store} (linked : store.Linked) {region : ElementId → Prop}
    (closed : store.Closed region) (count : Nat) (start : Option ElementId)
    (misses : ∀ id, start = some id → store.Misses region id) {other : ElementId}
    (inside : region other) : (store.destroyAllFor count start).get? other = store.get? other := by
  induction count generalizing store start with
  | zero => rfl
  | succ count ih =>
      cases start with
      | none => rfl
      | some id =>
          have first : ∀ other, region other →
              (store.destroyOne id).get? other = store.get? other := fun _ =>
            destroyOne_misses linked closed (misses id rfl)
          refine (ih (destroyOne_linked linked id) (closed.kept first) _ ?_).trans
            (first other inside)
          intro after next
          exact ((misses id rfl).walk (.single (Or.inl next))).trims (destroyOne_trims linked id)

theorem destroyAll_misses {store : Store} (linked : store.Linked) {region : ElementId → Prop}
    (closed : store.Closed region) {id : ElementId} (misses : store.Misses region id)
    {other : ElementId} (inside : region other) :
    (store.destroyAll (some id)).get? other = store.get? other :=
  destroyAllFor_misses linked closed _ _ (by rintro _ ⟨⟩; exact misses) inside

end Store

namespace World

open Store Relation

/-- No link leads out of the region, and no value leads into it. -/
structure Parted (region : ElementId → Prop) (world : World) : Prop where
  linked : world.store.Linked
  closed : world.store.Closed region
  inside : ∀ id, region id → id < world.store.size
  values : ∀ chain ∈ world.context.chains, world.store.Misses region chain
  commands : Tame world.context.commands

structure Parts (region : ElementId → Prop) (world after : World) : Prop where
  orderly : Orderly world after
  parted : Parted region world → Parted region after
  trims : Parted region world → Trims world.store after.store
  cells : Parted region world → ∀ id, region id → after.store.get? id = world.store.get? id

section Operations

variable {region : ElementId → Prop} {settings : Settings} {world between after : World}
variable {name : Option String} {chain : ElementId}

theorem Parts.refl (world : World) : Parts region world world :=
  ⟨.refl world, id, fun _ => .refl _, fun _ _ _ => rfl⟩

theorem Parts.trans (first : Parts region world between) (second : Parts region between after) :
    Parts region world after where
  orderly := first.orderly.trans second.orderly
  parted := second.parted ∘ first.parted
  trims := fun parted =>
    (first.trims parted).trans parted.linked (second.trims (first.parted parted))
  cells := fun parted id inside =>
    (second.cells (first.parted parted) id inside).trans (first.cells parted id inside)

theorem Parted.of_context (parted : Parted region world) (store : after.store = world.store)
    (chains : after.context.chains = world.context.chains)
    (commands : after.context.commands = world.context.commands) : Parted region after where
  linked := store ▸ parted.linked
  closed := store ▸ parted.closed
  inside := store ▸ parted.inside
  values := fun chain member => store ▸ parted.values chain (chains ▸ member)
  commands := commands ▸ parted.commands

theorem note_parts (settings : Settings) (world : World) (notices : List Notice) :
    Parts region world (note settings notices world) where
  orderly := ⟨rfl, rfl, rfl, .refl _⟩
  parted := fun parted => parted.of_context rfl rfl rfl
  trims := fun _ => .refl _
  cells := fun _ _ _ => rfl

/-- At most one chain was destroyed, and it and all that is cached now miss the region. -/
theorem Parted.step (parted : Parted region world) (after : World)
    (store : after.store = world.store ∨ ∃ chain, world.store.Misses region chain ∧
      after.store = world.store.destroyAll (some chain))
    (values : ∀ chain ∈ after.context.chains, world.store.Misses region chain)
    (commands : after.context.commands = world.context.commands) :
    Parted region after ∧ Trims world.store after.store ∧
      ∀ id, region id → after.store.get? id = world.store.get? id := by
  have linked : after.store.Linked := by
    rcases store with same | ⟨chain, _, same⟩
    · exact same ▸ parted.linked
    · exact same ▸ destroyAll_linked parted.linked (some chain)
  have trims : Trims world.store after.store := by
    rcases store with same | ⟨chain, _, same⟩
    · exact same ▸ .refl _
    · exact same ▸ destroyAll_trims parted.linked (some chain)
  have cells : ∀ id, region id → after.store.get? id = world.store.get? id := by
    intro id inside
    rcases store with same | ⟨chain, misses, same⟩
    · rw [same]
    · rw [same]
      exact destroyAll_misses parted.linked parted.closed misses inside
  refine ⟨⟨linked, parted.closed.kept cells, fun id inside => ?_, fun chain member => ?_,
    commands ▸ parted.commands⟩, trims, cells⟩
  · exact trims.inside (parted.inside id inside)
  · exact (values chain member).trims trims

theorem Parted.grown (parted : Parted region world) (context : after.context = world.context)
    {start : Option ElementId} {forest : Forest} {ids : List ElementId}
    (grows : Grown world.store after.store start forest ids) : Parted region after where
  linked := grown_linked grows parted.linked
  closed := parted.closed.kept fun id inside => grows.kept id (parted.inside id inside)
  inside := fun id inside => grows.trims.inside (parted.inside id inside)
  values := fun chain member => (parted.values chain (context ▸ member)).trims grows.trims
  commands := context ▸ parted.commands

theorem setVariable_chains (settings : Settings) (world : World) (name : Option String)
    (offered : Option ElementId) (readOnly : Bool) :
    ∀ chain ∈ (world.setVariable settings name offered readOnly).2.context.chains,
      chain ∈ world.context.chains ∨ offered = some chain := by
  intro chain member
  have cache : (world.retirePrevious name offered).context.cache = world.context.cache := by
    unfold retirePrevious
    split
    · split
      · rfl
      · exact (retire_cases world _).1
    · rfl
  unfold setVariable at member
  split at member
  · exact Or.inl member
  · rcases List.mem_append.mp ((Context.chains_put _ name ⟨offered, readOnly⟩).subset member) with
      new | old
    · exact Or.inr (Option.mem_toList.mp new)
    · rw [Context.otherChains, cache] at old
      exact Or.inl ((world.context.chains_perm name).symm.subset (List.mem_append_right _ old))

theorem leavePin_store (world : World) (name : Option String) (chain : ElementId) :
    (world.leavePin name (some chain)).store = world.store ∨
      (world.leavePin name (some chain)).store = world.store.destroyAll (some chain) := by
  simp only [leavePin, Option.toList_some, List.foldl_cons, List.foldl_nil, releaseRetired]
  split
  · exact Or.inr rfl
  · exact Or.inl rfl

/-- A copy stands in new cells, so it misses the region, and so does what it takes the
place of. -/
theorem cacheCopy_parts (parted : Parted region world) {start : Option ElementId}
    (copied : world.cacheCopy settings name start = some after) : Parts region world after := by
  unfold cacheCopy at copied
  split at copied
  · cases copied
  · rename_i store head ran
    obtain ⟨forest, read, planted⟩ := copyAll_cases ran
    have grows := plant_grown world.store forest
    rw [planted] at grows
    let grown : World := { world with store }
    have stands : Parted region grown := parted.grown rfl grows
    have copies : Parts region world grown :=
      ⟨.of_context rfl (grows.retains fun worded => worded.forestFor _ _ read),
        fun _ => stands, fun _ => grows.trims,
        fun parted id inside => grows.kept id (parted.inside id inside)⟩
    refine copies.trans ?_
    cases copied
    have fresh : ∀ chain, head = some chain → grown.store.Misses region chain := by
      rintro chain rfl other walk
      have member : other ∈ _ := grows.planted.enclosed.reached grows.planted.start_links.1
        (reached_single.mpr walk)
      exact ⟨grows.planted.inside other member, fun inside =>
        Nat.not_lt_of_le (grows.fresh other member) (parted.inside other inside)⟩
    have replaces := setVariable_replaces settings grown name head (world.context.readOnly name)
    obtain ⟨after, trims, cells⟩ := stands.step (grown.setVariable settings name head _).2
      (replaces.store.imp_right fun ⟨chain, cached, destroyed⟩ =>
        ⟨chain, stands.values chain (mem_chains_of_chainOf cached), destroyed⟩)
      (fun chain member => (setVariable_chains settings grown name head _ chain member).elim
        (stands.values chain) (fresh chain))
      (setVariable_sheds settings grown name head _).commands
    exact ⟨setVariable_orderly settings _ name head _, fun _ => after, fun _ => trims,
      fun _ => cells⟩

theorem leavePin_parts (parted : Parted region world)
    (cached : world.context.chainOf name = some chain)
    (unmarked : world.context.isExpanding name = false)
    (inner : Parts region (world.enterPin name (some chain)) after) :
    Parts region world (after.leavePin name (some chain)) := by
  have entered : Parted region (world.enterPin name (some chain)) := parted.of_context rfl rfl rfl
  have left := inner.parted entered
  have trims : Trims world.store after.store := inner.trims entered
  -- The pinned chain was cached when it was pinned, and nothing has been added to it since.
  have misses := (parted.values chain (mem_chains_of_chainOf cached)).trims trims
  obtain ⟨stays, again, cells⟩ := left.step (after.leavePin name (some chain))
    ((leavePin_store after name chain).imp_right fun destroyed => ⟨chain, misses, destroyed⟩)
    (fun other member => left.values other (by rwa [chains_leavePin] at member))
    (leavePin_sheds after name chain).commands
  exact ⟨leavePin_orderly unmarked inner.orderly, fun _ => stays,
    fun _ => trims.trans parted.linked again,
    fun _ id inside => (cells id inside).trans (inner.cells entered id inside)⟩

/-- Every operation of an evaluation by scripts that write leaves the region alone. -/
theorem parts_upheld (region : ElementId → Prop) (settings : Settings) :
    Upheld settings (Parted region) (Parts region)
      fun _ element actions => (∃ id, element = some id) ∧ ∀ action ∈ actions, action.Writes where
  refl := .refl
  trans _ _ _ := .trans
  kept _ _ parts := parts.parted
  note := note_parts settings
  deeper _ parted _ := parted.of_context rfl rfl rfl
  shallower world after inner := by
    have deeper : Parted region world → Parted region world.deeper :=
      fun parted => parted.of_context rfl rfl rfl
    exact ⟨shallower_orderly inner.orderly,
      fun parted => (inner.parted (deeper parted)).of_context rfl rfl rfl,
      fun parted => inner.trims (deeper parted), fun parted => inner.cells (deeper parted)⟩
  enters _ _ _ parted _ := parted.of_context rfl rfl rfl
  leaves _ _ _ _ parted cached unmarked inner := leavePin_parts parted cached unmarked inner
  assigns _ _ _ _ parted copied := cacheCopy_parts parted copied
  calls world id actions parted _ isHandler := ⟨⟨id, rfl⟩, parted.commands _ _ isHandler⟩
  performs world element action rest _ writes := by
    obtain ⟨⟨id, rfl⟩, writes⟩ := writes
    obtain ⟨notices, same, _⟩ := perform_writes settings world id (writes _ List.mem_cons_self)
    rw [same]
    exact note_parts settings world notices
  runs_on _ _ _ action _ _ writes :=
    ⟨writes.1, fun other member => writes.2 other (List.mem_cons_of_mem action member)⟩

end Operations

/-- A document that is apart from all values can be rendered, whatever the limit of depth
is. None of its elements changes, it stays apart from all that is cached, and if it has a
root no link at all leads out of it. So destroying it afterwards changes no value. -/
theorem render_spares (settings : Settings) (set : Option CommandSet) {world : World}
    (consistent : world.store.Consistent) (acyclic : world.store.Acyclic)
    (commands : world.context.commands = (stocked settings set).context.commands)
    {head : ElementId} (inside : head < world.store.size)
    (known : ∀ chain ∈ world.context.chains, chain < world.store.size)
    (apart : ∀ chain ∈ world.context.chains, world.store.Apart head chain) :
    (∃ output after, Yields (fun fuel => render settings fuel world (some head) true)
      (.ok output, after)) ∧
    ∀ fuel toEnd answer after,
      render settings fuel world (some head) toEnd = some (answer, after) →
      Spares world.store after.store head ∧
      (∀ chain ∈ after.context.chains, after.store.Apart head chain) ∧
      (world.store.Root head → after.store.Enclosed (after.store.Reached [head])) ∧
      ∀ name, SameValue after (after.destroyAll (some head)) name := by
  have linked := consistent.linked
  have tame : Tame world.context.commands := commands ▸ stocked_tame settings set
  have reads : ∀ id, id < world.store.size →
      ∃ forest, world.store.forest? (some id) = some forest := by
    intro id inside
    obtain ⟨forest, _, planted⟩ := linked.exists_planted acyclic id inside
    exact ⟨forest, planted.forest?⟩
  constructor
  · obtain ⟨document, read⟩ := reads head inside
    have shallow := shallow_of_values linked tame
      (fun chain member => reads chain (known chain member)) document
    have worded : world.store.Worded := by
      intro id cell found _
      have isSome := consistent.worded id (by simp [kind?, found])
      simpa [text, found] using isSome
    obtain ⟨output, after, yields, _⟩ :=
      shallow.renders settings worded (nests_of_known read List.mem_cons_self)
    exact ⟨output, after, yields⟩
  · intro fuel toEnd answer after ran
    have parted : Parted (world.store.Reached [head]) world := by
      refine ⟨linked, closed_reached _ head, fun id reached => ?_, fun chain member => ?_, tame⟩
      · exact linked.inside_of_leads inside (reached_single.mp reached)
      · exact (apart chain member).misses linked (known chain member)
    have parts : Parts (world.store.Reached [head]) world after :=
      (parts_upheld _ settings).keeps_through fuel world (.render (some head) toEnd) after parted
        trivial (by simp [Stage.after, ran])
    have stays := parts.parted parted
    have spares : Spares world.store after.store head := parts.cells parted
    -- Links only went missing, so what the document reaches now it reached before.
    have within : ∀ id, after.store.Reached [head] id → world.store.Reached [head] id :=
      fun id reached => stays.closed.walk (reached_single.mpr .refl) (reached_single.mp reached)
    have apartNow : ∀ chain ∈ after.context.chains, after.store.Apart head chain := by
      intro chain member id reached fromChain
      exact (stays.values chain member id (reached_single.mp fromChain)).2 (within id reached)
    refine ⟨spares, apartNow, fun root => ?_, fun name => ⟨rfl, fun chain isChain => ?_⟩⟩
    · have same := links_of_get? (spares head (reached_single.mpr .refl))
      exact reached_enclosed stays.linked (same.2.1.trans root.prev)
        (same.2.2.2.trans root.parent)
    · have member := mem_chains_of_chainOf isChain
      have headInside := stays.inside head (reached_single.mpr .refl)
      intro id reached
      exact destroyAll_misses stays.linked (closed_reached _ chain)
        ((apartNow chain member).symm.misses stays.linked headInside) reached

def revised : World where
  store :=
    let text (said : String) : Forest := .cons ⟨.text, some said, {}⟩ .nil .nil
    let stored := ({} : Store).plant none none (text "old")
    (stored.1.plant none none (.cons ⟨.variable, some "v", {}⟩ (text "new")
      (.cons ⟨.variable, some "v", {}⟩ .nil .nil))).1
  context := { (stocked {} (some .html)).context with
    cache := ⟨[(some "v", ⟨some 0, false⟩)]⟩ }

/-- The old value is destroyed while the document is rendered, and the document may be
destroyed after that. -/
theorem render_spares_revised :
    revised.store.Consistent ∧ revised.store.Acyclic ∧
      (∀ chain ∈ revised.context.chains, chain < revised.store.size) ∧
      (∀ chain ∈ revised.context.chains, revised.store.Apart 1 chain) ∧
      ∃ after, Yields (fun fuel => render {} fuel revised (some 1) true) (.ok "newnew", after) ∧
        Spares revised.store after.store 1 ∧ after.context.chains = [4] ∧
        after.store.Apart 1 4 ∧
        ∀ name, SameValue after (after.destroyAll (some 1)) name := by
  have textProper : ∀ said, Forest.Proper (.cons ⟨.text, some said, {}⟩ .nil .nil) := fun said =>
    ⟨⟨rfl, fun noText => absurd rfl noText⟩, fun _ => rfl, trivial, trivial⟩
  have nodeProper : Node.Proper ⟨.variable, some "v", {}⟩ := ⟨rfl, fun _ => ⟨"v", rfl, by decide⟩⟩
  have documentProper : Forest.Proper (.cons ⟨.variable, some "v", {}⟩
      (.cons ⟨.text, some "new", {}⟩ .nil .nil) (.cons ⟨.variable, some "v", {}⟩ .nil .nil)) :=
    ⟨nodeProper, nofun, textProper "new", nodeProper, nofun, trivial, trivial⟩
  have stored := plant_sound empty_sound (textProper "old")
  have sound : revised.store.Sound := plant_sound stored documentProper
  have acyclic : revised.store.Acyclic :=
    (plant_grown _ _).acyclic stored.linked
      ((plant_grown {} _).acyclic empty_sound.linked empty_acyclic)
  have chains : ∀ chain ∈ revised.context.chains, chain = 0 := by
    intro chain member
    simpa [Context.chains, revised] using member
  have known : ∀ chain ∈ revised.context.chains, chain < revised.store.size := by
    intro chain member
    rw [chains chain member]
    decide
  have apart : ∀ chain ∈ revised.context.chains, revised.store.Apart 1 chain := by
    intro chain member
    rw [chains chain member]
    exact Root.apart sound.linked ⟨by decide, rfl, rfl⟩ ⟨by decide, rfl, rfl⟩ (by decide)
  obtain ⟨⟨output, after, yields⟩, frame⟩ := render_spares {} (some .html) sound.consistent acyclic
    rfl (show 1 < revised.store.size by decide) known apart
  obtain ⟨fuel, enough⟩ := yields
  have renders : render {} (fuel + 20) revised (some 1) true = some (.ok output, after) :=
    enough _ (Nat.le_add_right fuel 20)
  have ran : (render {} (fuel + 20) revised (some 1) true).map
      (fun rendered => (rendered.1, rendered.2.context.chains)) = some (.ok "newnew", [4]) := by rfl
  rw [renders] at ran
  have both : (Except.ok output, after.context.chains) = (.ok "newnew", [4]) := Option.some.inj ran
  obtain ⟨isOutput, now⟩ := Prod.mk.inj both
  obtain rfl := Except.ok.inj isOutput
  obtain ⟨spares, apartNow, _, same⟩ := frame _ _ _ _ renders
  exact ⟨sound.consistent, acyclic, known, apart, after, ⟨fuel, enough⟩, spares, now,
    apartNow 4 (now ▸ List.mem_singleton_self 4), same⟩

end World

end Stencil
