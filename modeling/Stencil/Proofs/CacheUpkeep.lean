import Stencil.Proofs.CacheMirror

/-!
Keeping the cache. A chain that is cached no more is destroyed, or retired while
it is pinned, and neither touches what is cached or what is guarded. So caching a
new chain stores its forest in the state, and a pin is taken back without a trace
but for the chain that it kept alive.
-/

namespace Stencil

theorem Context.leave_enter {context between : Context} {name : Option String}
    {chain : Option ElementId} (unmarked : context.isExpanding name = false)
    (expanding : between.expanding = (context.enter name chain).expanding)
    (pins : between.pins = (context.enter name chain).pins) :
    (between.leave name chain).expanding = context.expanding ∧
      (between.leave name chain).pins = context.pins := by
  constructor
  · have entered : (context.enter name chain).expanding = name :: context.expanding := by
      simp [enter, unmarked]
    have others : context.expanding.filter (· != name) = context.expanding := by
      apply List.filter_eq_self.mpr
      intro other member
      have different : other ≠ name := by
        rintro rfl
        simp [isExpanding, member] at unmarked
      simpa using different
    simp [leave, expanding, entered, others]
  · simp [leave, pins, enter]

namespace World

open Store

/-- What a step comes to that ends in a state and leaves a region alone. -/
structure Passes (world after : World) (region : ElementId → Prop) (state : Evaluation.State) :
    Prop where
  mirrors : after.Mirrors state
  guards : after.Guards region
  undisturbed : Undisturbed world after region

section Steps

variable {world between after : World} {region : ElementId → Prop}
variable {state next : Evaluation.State}

theorem Passes.refl (mirrors : world.Mirrors state) (guards : world.Guards region) :
    Passes world world region state :=
  ⟨mirrors, guards, .refl world region⟩

theorem Passes.trans (first : Passes world between region state)
    (second : Passes between after region next) : Passes world after region next :=
  ⟨second.mirrors, second.guards, first.undisturbed.trans second.undisturbed⟩

theorem Passes.note (passes : Passes world after region state) (settings : Settings)
    (notices : List Notice) : Passes world (note settings notices after) region state := by
  obtain ⟨mirrors, guards, undisturbed⟩ := passes
  constructor
  · exact ⟨mirrors.linked, mirrors.cached, mirrors.distinct, mirrors.retired⟩
  · exact ⟨guards.enclosed, guards.inside, guards.pinned⟩
  · exact ⟨undisturbed.cells, undisturbed.commands, undisturbed.expanding, undisturbed.pins,
      undisturbed.depth⟩

theorem Guards.kept {store : Store} (guards : world.Guards region)
    (size : world.store.size ≤ store.size)
    (same : ∀ id, region id → store.get? id = world.store.get? id) :
    ({ world with store := store } : World).Guards region :=
  ⟨guards.enclosed.kept same, fun id inside => Nat.lt_of_lt_of_le (guards.inside id inside) size,
    guards.pinned⟩

theorem grow_passes {grown : Store} {start : Option ElementId} {forest : Forest}
    {ids : List ElementId} (mirrors : world.Mirrors state) (guards : world.Guards region)
    (grows : Grown world.store grown start forest ids) :
    Passes world { world with store := grown } region state := by
  have size : world.store.size ≤ grown.size := Nat.le_of_not_lt fun less => by
    have cell := exists_cell world.store grown.size less
    rw [← grows.kept _ less, (get?_eq_none grown grown.size).mpr (Nat.le_refl _)] at cell
    obtain ⟨_, missing⟩ := cell
    cases missing
  have same : ∀ id, region id → grown.get? id = world.store.get? id := fun id inside =>
    grows.kept id (guards.inside id inside)
  refine ⟨⟨grown_linked grows mirrors.linked, ?_, mirrors.distinct, ?_⟩, guards.kept size same,
    ⟨same, rfl, rfl, rfl, rfl⟩⟩
  · apply mirrors.cached.imp
    intro entry cell shows
    obtain ⟨ids, planted⟩ := shows.stands
    exact ⟨shows.key, shows.flag, shows.proper, ids,
      planted.kept fun id member => grows.kept id (planted.inside id member)⟩
  · intro chain member
    have known := mirrors.retired chain member
    exact ⟨Nat.lt_of_lt_of_le known.1 size, known.2⟩

section Discard

variable {chain : ElementId} {forest : Forest} {ids : List ElementId}
variable (mirrors : world.Mirrors state) (guards : world.Guards region)
variable (planted : world.store.Planted none none (some chain) forest ids)
variable (uncached : chain ∉ world.context.chains)
include mirrors guards planted uncached

theorem destroyAll_passes (apart : ¬ region chain) :
    Passes world (world.destroyAll (some chain)) region state := by
  have size : (world.store.destroyAll (some chain)).size = world.store.size :=
    (destroyAll_pruned mirrors.linked (some chain)).size
  have same := destroyAll_elsewhere planted guards.enclosed apart
  refine ⟨⟨destroyAll_linked mirrors.linked _, ?_, mirrors.distinct, ?_⟩,
    guards.kept (Nat.le_of_eq size.symm) same, ⟨same, rfl, rfl, rfl, rfl⟩⟩
  · have known : List.Forall₂ (fun entry cell => entry.2.chain ≠ some chain ∧
        Shows world.store entry cell) world.context.cache.entries state.entries := by
      apply (List.forall₂_and_left _ _).mpr ⟨?_, mirrors.cached⟩
      intro entry member isChain
      exact uncached (List.mem_filterMap.mpr ⟨entry, member, isChain⟩)
    apply known.imp
    rintro entry cell ⟨different, shows⟩
    obtain ⟨otherIds, stands⟩ := shows.stands
    exact ⟨shows.key, shows.flag, shows.proper, otherIds,
      stands.outlives planted different⟩
  · intro other member
    have known := mirrors.retired other member
    exact ⟨Nat.lt_of_lt_of_eq known.1 size.symm, known.2⟩

-- A pinned chain is only listed as retired; the store stays as it is.
theorem retire_passes (apart : region chain → world.context.isPinned chain = true) :
    Passes world (world.retire chain) region state := by
  unfold retire
  split
  · refine ⟨⟨mirrors.linked, mirrors.cached, mirrors.distinct, ?_⟩,
      ⟨guards.enclosed, guards.inside, guards.pinned⟩, ⟨fun _ _ => rfl, rfl, rfl, rfl, rfl⟩⟩
    intro other member
    rcases List.mem_append.mp member with old | new
    · exact mirrors.retired other old
    · have same := List.mem_singleton.mp new
      subst same
      exact ⟨planted.inside other planted.start_links.1, uncached⟩
  · rename_i unpinned
    apply destroyAll_passes mirrors guards planted uncached
    exact fun inside => unpinned (apart inside)

end Discard

def putCached (world : World) (name : Option String) (chain : Option ElementId)
    (readOnly : Bool) : World :=
  world.withContext fun context =>
    { context with cache := context.cache.put name ⟨chain, readOnly⟩ }

section Put

variable {chain : Option ElementId} {forest : Forest} {ids : List ElementId}
variable (mirrors : world.Mirrors state) (guards : world.Guards region)
variable (proper : forest.Proper)
variable (planted : world.store.Planted none none chain forest ids)
variable (fresh : ∀ head, chain = some head →
  head ∉ world.context.chains ∧ head ∉ world.context.retired ∧ ¬ region head)
variable (name : Option String) (readOnly : Bool)
include mirrors guards proper planted fresh

theorem putCached_passes :
    Passes world (world.putCached name chain readOnly) region
      (Table.put state name ⟨forest, readOnly⟩) := by
  have split := world.context.chains_perm name
  have put := world.context.chains_put name ⟨chain, readOnly⟩
  have others : ∀ other ∈ world.context.otherChains name, other ∈ world.context.chains :=
    fun other member => split.symm.subset (List.mem_append_right _ member)
  -- What is cached now is the new chain and what has another name.
  have cases : ∀ other ∈ (world.putCached name chain readOnly).context.chains,
      chain = some other ∨ other ∈ world.context.otherChains name := by
    intro other member
    simpa [Option.mem_toList] using put.subset member
  refine ⟨⟨mirrors.linked, ?_, ?_, ?_⟩, ⟨guards.enclosed, guards.inside, ?_⟩,
    ⟨fun _ _ => rfl, rfl, rfl, rfl, rfl⟩⟩
  · apply Table.putEntry_paired mirrors.cached fun _ _ shows => shows.key
    · exact fun _ _ _ shows => shows
    · exact ⟨rfl, rfl, proper, ids, planted⟩
  · have rest := (List.nodup_append'.mp (split.nodup_iff.mp mirrors.distinct)).2.1
    apply put.nodup_iff.mpr
    cases chain with
    | none => simpa using rest
    | some head =>
        have new : head ∉ world.context.otherChains name :=
          fun member => (fresh head rfl).1 (others head member)
        simpa [new] using rest
  · intro other member
    have known := mirrors.retired other member
    refine ⟨known.1, fun inside => ?_⟩
    rcases cases other inside with isChain | isOther
    · exact (fresh other isChain).2.1 member
    · exact known.2 (others other isOther)
  · intro other member inside
    rcases cases other member with isChain | isOther
    · exact absurd inside (fresh other isChain).2.2
    · exact guards.pinned other (others other isOther) inside

omit mirrors guards proper fresh in
theorem cacheRefusal_none (settings : Settings)
    (named : settings.errorChecks = true → name.any isName = true) :
    (if settings.errorChecks then world.cacheRefusal name chain else none) = none := by
  split
  · rename_i checks
    unfold cacheRefusal
    cases chain with
    | none => simp [named checks]
    | some head =>
        have links := planted.start_links.2
        simp [named checks, links]
  · rfl

omit mirrors guards proper planted fresh in
/-- Retiring looks at the pins only, so it may as well come after the new entry. -/
theorem retirePrevious_put {previous : ElementId}
    (found : world.context.chainOf name = some previous) (different : chain ≠ some previous) :
    ((world.retirePrevious name chain).withContext fun context =>
        { context with cache := context.cache.put name ⟨chain, readOnly⟩ }) =
      (world.putCached name chain readOnly).retire previous := by
  have pins : (world.putCached name chain readOnly).context.isPinned previous =
      world.context.isPinned previous := rfl
  simp only [retirePrevious, found, if_neg different]
  unfold retire
  rw [pins]
  split <;> rfl

/-- A new chain takes its name, and the chain that had the name before is let go
of, which the region survives. -/
theorem setVariable_passes (settings : Settings)
    (named : settings.errorChecks = true → name.any isName = true) :
    ∃ after, world.setVariable settings name chain readOnly = (.ok, after) ∧
      Passes world after region (Table.put state name ⟨forest, readOnly⟩) := by
  have accepted := cacheRefusal_none planted name settings named
  have passes := putCached_passes mirrors guards proper planted fresh name readOnly
  have split := world.context.chains_perm name
  have put := world.context.chains_put name ⟨chain, readOnly⟩
  unfold setVariable
  rw [accepted]
  cases found : world.context.chainOf name with
  | none =>
      refine ⟨_, rfl, ?_⟩
      have same : world.retirePrevious name chain = world := by
        simp only [retirePrevious, found]
      rw [same]
      exact passes
  | some previous =>
      rw [found] at split
      have member : previous ∈ world.context.chains := split.symm.subset List.mem_cons_self
      have different : chain ≠ some previous := fun same => (fresh previous same).1 member
      obtain ⟨others, otherIds, stands⟩ := mirrors.standing member
      have uncached : previous ∉ (world.putCached name chain readOnly).context.chains := by
        have apart := (List.nodup_cons.mp (split.nodup_iff.mp mirrors.distinct)).1
        intro inside
        rcases List.mem_append.mp (put.subset inside) with isChain | isOther
        · exact different (Option.mem_toList.mp isChain)
        · exact apart isOther
      refine ⟨_, rfl, ?_⟩
      rw [retirePrevious_put name readOnly found different]
      apply passes.trans
      apply retire_passes passes.mirrors passes.guards stands uncached
      exact guards.pinned previous member

end Put

section Pin

variable {chain : ElementId} {forest : Forest} {ids : List ElementId} {name : Option String}

theorem enterPin_mirrors (mirrors : world.Mirrors state) :
    (world.enterPin name (some chain)).Mirrors state :=
  ⟨mirrors.linked, mirrors.cached, mirrors.distinct, mirrors.retired⟩

variable (guards : world.Guards region)
variable (planted : world.store.Planted none none (some chain) forest ids)
include guards planted

theorem enterPin_guards (mirrors : world.Mirrors state) :
    (world.enterPin name (some chain)).Guards fun id => region id ∨ id ∈ ids := by
  refine ⟨guards.enclosed.union planted.enclosed, ?_, ?_⟩
  · rintro id (inside | member)
    · exact guards.inside id inside
    · exact planted.inside id member
  · intro other cached inside
    change (some chain :: world.context.pins).contains (some other) = true
    rw [List.contains_cons, Bool.or_eq_true]
    rcases inside with inside | member
    · exact Or.inr (guards.pinned other cached inside)
    · obtain ⟨_, _, stands⟩ := mirrors.standing cached
      exact Or.inl (beq_iff_eq.mpr (congrArg some (planted.head_unique stands member)))

omit guards planted in
theorem releaseRetired_passes (mirrors : world.Mirrors state) (guards : world.Guards region)
    (planted : world.store.Planted none none (some chain) forest ids)
    (apart : region chain → world.context.isPinned chain = true) :
    Passes world (world.releaseRetired chain) region state := by
  unfold releaseRetired
  split
  · rename_i unpinned
    simp only [Bool.and_eq_true, Bool.not_eq_true', List.contains_iff_mem] at unpinned
    let unlisted := world.withContext fun context =>
      { context with retired := context.retired.erase chain }
    have passes : Passes world unlisted region state :=
      ⟨⟨mirrors.linked, mirrors.cached, mirrors.distinct, fun other member =>
        mirrors.retired other (List.mem_of_mem_erase member)⟩,
        ⟨guards.enclosed, guards.inside, guards.pinned⟩, ⟨fun _ _ => rfl, rfl, rfl, rfl, rfl⟩⟩
    apply passes.trans
    apply destroyAll_passes passes.mirrors passes.guards planted
    · exact (mirrors.retired chain unpinned.2).2
    · intro inside
      rw [apart inside] at unpinned
      cases unpinned.1
  · exact .refl mirrors guards

/-- Under a pin of a cached chain a step passes as if there were no pin, since a
chain that was retired meanwhile is not guarded from outside. -/
theorem leavePin_passes (cached : chain ∈ world.context.chains)
    (unmarked : world.context.isExpanding name = false)
    (passes : Passes (world.enterPin name (some chain)) after
      (fun id => region id ∨ id ∈ ids) next) :
    Passes world (after.leavePin name (some chain)) region next := by
  obtain ⟨mirrors, inner, undisturbed⟩ := passes
  let left := after.withContext (·.leave name (some chain))
  have same : ∀ id, region id → left.store.get? id = world.store.get? id := fun id inside =>
    undisturbed.cells id (Or.inl inside)
  obtain ⟨expanding, pins⟩ :=
    Context.leave_enter unmarked undisturbed.expanding undisturbed.pins
  have leftGuards : left.Guards region := by
    refine ⟨guards.enclosed.kept same, fun id inside => inner.inside id (Or.inl inside), ?_⟩
    intro other member inside
    change (after.context.leave name (some chain)).pins.contains (some other) = true
    rw [pins]
    -- The chain itself was cached before, so an older pin keeps it if it is guarded.
    by_cases isChain : other = chain
    · subst isChain
      exact guards.pinned other cached inside
    · have pinned : after.context.pins.contains (some other) = true :=
        inner.pinned other member (Or.inl inside)
      rw [undisturbed.pins] at pinned
      change (some chain :: world.context.pins).contains (some other) = true at pinned
      rw [List.contains_cons, Bool.or_eq_true] at pinned
      rcases pinned with isHead | older
      · exact absurd (Option.some.inj (beq_iff_eq.mp isHead)) isChain
      · exact older
  have leftPasses : Passes world left region next :=
    ⟨⟨mirrors.linked, mirrors.cached, mirrors.distinct, mirrors.retired⟩, leftGuards,
      same, undisturbed.commands, expanding, pins, undisturbed.depth⟩
  apply leftPasses.trans
  have stands : left.store.Planted none none (some chain) forest ids :=
    planted.kept fun id member => undisturbed.cells id (Or.inr member)
  apply releaseRetired_passes leftPasses.mirrors leftGuards stands
  intro inside
  change (after.context.leave name (some chain)).pins.contains (some chain) = true
  rw [pins]
  exact guards.pinned chain cached inside

end Pin

end Steps

end World

end Stencil
