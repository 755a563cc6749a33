import Stencil.Proofs.ChainCustody
import Stencil.Proofs.RootedEvaluation
import Stencil.Proofs.StandingRelease

/-!
Values apart from each other. A name that gets another value, or none any more, lets
go of the chain that it had and of no other. So as long as no chain is the value of
two names, the values have no element in common, and what is done to one name leaves
the others alone with everything that is reached from them. An evaluation caches new
chains only, so it never makes two names share one. A host can: a cached chain has
nothing before it and no owner, and so it is accepted under a second name. Then the
one name destroys what the other still has for its value.
-/

namespace Stencil

namespace World

open Store

def Unshared (world : World) : Prop :=
  ∀ name other chain, world.context.chainOf name = some chain →
    world.context.chainOf other = some chain → name = other

structure SameValue (world after : World) (name : Option String) : Prop where
  entry : after.context.cache.get? name = world.context.cache.get? name
  elements : ∀ head, world.context.chainOf name = some head → Spares world.store after.store head

structure Replaces (world after : World) (name : Option String) : Prop where
  entries : ∀ other, other ≠ name →
    after.context.cache.get? other = world.context.cache.get? other
  store : after.store = world.store ∨ ∃ chain, world.context.chainOf name = some chain ∧
    after.store = world.store.destroyAll (some chain)

section Operations

variable {settings : Settings} {world after : World} {name other : Option String}
variable {offered : Option ElementId} {head chain : ElementId}

theorem retire_cases (world : World) (chain : ElementId) :
    (world.retire chain).context.cache = world.context.cache ∧
      ((world.retire chain).store = world.store ∨
        (world.retire chain).store = world.store.destroyAll (some chain)) := by
  unfold retire
  split
  · exact ⟨rfl, Or.inl rfl⟩
  · exact ⟨rfl, Or.inr rfl⟩

theorem setVariable_replaces (settings : Settings) (world : World) (name : Option String)
    (offered : Option ElementId) (readOnly : Bool) :
    Replaces world (world.setVariable settings name offered readOnly).2 name := by
  have left : (world.retirePrevious name offered).context.cache = world.context.cache ∧
      ((world.retirePrevious name offered).store = world.store ∨
        ∃ chain, world.context.chainOf name = some chain ∧
          (world.retirePrevious name offered).store = world.store.destroyAll (some chain)) := by
    unfold retirePrevious
    split
    · rename_i previous isPrevious
      split
      · exact ⟨rfl, Or.inl rfl⟩
      · obtain ⟨cache, store⟩ := retire_cases world previous
        exact ⟨cache, store.imp id fun destroyed => ⟨previous, isPrevious, destroyed⟩⟩
    · exact ⟨rfl, Or.inl rfl⟩
  unfold setVariable
  split
  · exact ⟨fun _ _ => rfl, Or.inl rfl⟩
  · refine ⟨fun other different => ?_, left.2⟩
    simp only [withContext, Table.get?_put, if_neg different, left.1]

theorem eraseVariable_replaces (world : World) (name : Option String) :
    Replaces world (world.eraseVariable name) name := by
  unfold eraseVariable
  split
  · rename_i chain isChain
    obtain ⟨cache, store⟩ := retire_cases (world.withContext fun context =>
      { context with cache := context.cache.erase name }) chain
    refine ⟨fun other different => ?_, store.imp id fun destroyed => ⟨chain, isChain, destroyed⟩⟩
    rw [cache]
    simp only [withContext, Table.get?_erase, if_neg different]
  · refine ⟨fun other different => ?_, Or.inl rfl⟩
    simp only [withContext, Table.get?_erase, if_neg different]

theorem chainOf_eraseVariable
    (cached : (world.eraseVariable name).context.chainOf other = some chain) :
    world.context.chainOf other = some chain := by
  have erased : (world.eraseVariable name).context.cache = world.context.cache.erase name := by
    unfold eraseVariable
    split
    · exact (retire_cases _ _).1
    · rfl
  rw [Context.chainOf, erased, Table.get?_erase] at cached
  split at cached
  · cases cached
  · exact cached

/-- If all values are apart from each other, letting go of one leaves the others alone. -/
theorem Replaces.same (replaces : Replaces world after name) (rooted : world.Rooted)
    (unshared : world.Unshared) (different : other ≠ name) : SameValue world after other := by
  refine ⟨replaces.entries other different, fun head isHead => ?_⟩
  have root : ∀ {name chain}, world.context.chainOf name = some chain → world.store.Root chain :=
    fun cached => rooted.roots _ (Or.inl (mem_chains_of_chainOf cached))
  rcases replaces.store with same | ⟨chain, cached, destroyed⟩
  · exact fun _ _ => by rw [same]
  · rw [destroyed]
    apply destroyAll_spares rooted.linked (root cached) (root isHead)
    rintro rfl
    exact different (unshared other name head isHead cached)

end Operations

section Unshared

variable {settings : Settings} {world after : World} {name : Option String}
variable {offered : Option ElementId}

theorem Unshared.of_chains (unshared : world.Unshared)
    (chains : ∀ name chain, after.context.chainOf name = some chain →
      world.context.chainOf name = some chain) : after.Unshared :=
  fun name other chain first second =>
    unshared name other chain (chains name chain first) (chains other chain second)

theorem Sheds.unshared (sheds : Sheds world after name offered) (unshared : world.Unshared)
    (fresh : ∀ head other, offered = some head → world.context.chainOf other = some head →
      other = name) : after.Unshared := by
  intro first second chain isFirst isSecond
  rcases sheds.cached first chain isFirst with old | ⟨rfl, new⟩
  · rcases sheds.cached second chain isSecond with alsoOld | ⟨rfl, new⟩
    · exact unshared first second chain old alsoOld
    · exact fresh chain first new old
  · rcases sheds.cached second chain isSecond with old | ⟨rfl, _⟩
    · exact (fresh chain second new old).symm
    · rfl

theorem fresh_of_size (rooted : world.Rooted) {head : ElementId} (new : world.store.size ≤ head)
    (other : Option String) : world.context.chainOf other ≠ some head := by
  intro cached
  have root := rooted.roots head (Or.inl (mem_chains_of_chainOf cached))
  exact Nat.not_lt_of_le new root.inside

theorem cacheCopy_unshared {start : Option ElementId} (rooted : world.Rooted)
    (unshared : world.Unshared)
    (copied : world.cacheCopy settings name start = some after) : after.Unshared := by
  obtain ⟨forest, grown, head, ids, _, grows, _, _, sheds⟩ := cacheCopy_cases copied
  have before : ({ world with store := grown } : World).Unshared := unshared
  refine sheds.unshared before fun new other isNew cached => ?_
  subst isNew
  exact absurd cached (fresh_of_size rooted (grows.fresh new grows.planted.start_links.1) other)

theorem perform_unshared (rooted : world.Rooted) (unshared : world.Unshared)
    (element : Option ElementId) (action : Action) :
    (world.perform settings element action).2.Unshared := by
  have effect := perform_effect settings world element action
  generalize (world.perform settings element action).2 = after at effect ⊢
  have unchanged : after.context = world.context → after.Unshared := fun context =>
    unshared.of_chains fun _ _ cached => context ▸ cached
  cases effect with
  | idle _ context | removed _ _ context | appended _ _ _ _ context | filled _ _ _ _ _ _ context =>
      exact unchanged context
  | brought _ brings => exact unchanged brings.context
  | put => exact unchanged rfl
  | @stored parsed head name source readOnly shown brings =>
      have before : parsed.Unshared := unshared.of_chains fun _ _ cached => brings.context ▸ cached
      refine (setVariable_sheds settings parsed name head readOnly).unshared before ?_
      intro chain other isHead cached
      rw [brings.context] at cached
      rcases brings.store with ⟨none, _⟩ | ⟨isSize, _⟩
      · rw [none] at isHead
        cases isHead
      · obtain rfl := Option.some.inj (isSize.symm.trans isHead)
        exact absurd cached (fresh_of_size rooted (Nat.le_refl _) other)
  | erased name => exact unshared.of_chains fun _ _ => chainOf_eraseVariable
  | cleared => exact fun _ _ _ cached => nomatch cached
  | registered name actions =>
      refine unshared.of_chains fun _ _ cached => ?_
      simp only [World.register] at cached
      split at cached <;> exact cached
  | unregistered name => exact unshared.of_chains fun _ _ => id

theorem leavePin_unshared (unshared : world.Unshared) (name : Option String) (chain : ElementId) :
    (world.leavePin name (some chain)).Unshared := by
  have left : (world.withContext (·.leave name (some chain))).Unshared := unshared
  exact (leavePin_sheds world name chain).unshared left nofun

end Unshared

section Evaluations

variable {settings : Settings} {world : World}

theorem unshared_upheld (settings : Settings) : Upheld settings
    (fun world => Walked False (fun _ => False) world ∧ world.Unshared)
    (fun world after => Sequel False world after ∧ (world.Unshared → after.Unshared))
    (MayRun False) :=
  (sequel_upheld settings False fun _ => False).along
    (fun _ after _ cache unshared => unshared.of_chains fun name chain cached => by
      rwa [Context.chainOf, cache] at cached)
    (fun _ name chain unshared => leavePin_unshared unshared name chain)
    (fun _ _ _ _ found unshared copied => cacheCopy_unshared found.rooted unshared copied)
    (fun _ element action _ found unshared _ =>
      perform_unshared found.rooted unshared element action)

/-- An evaluation, whatever its scripts do, gives no chain to two names. -/
theorem render_unshared {fuel : Nat} {start : Option ElementId} {toEnd : Bool}
    {rendered : Rendered} (rooted : world.Rooted) (unshared : world.Unshared)
    (ran : render settings fuel world start toEnd = some rendered) : rendered.2.Unshared := by
  have found : Walked False (fun _ => False) world :=
    ⟨rooted, fun _ => False.elim, fun _ => False.elim, False.elim⟩
  have kept := (unshared_upheld settings).keeps_through fuel world (.render start toEnd) rendered.2
    ⟨found, unshared⟩ trivial (by simp [Stage.after, ran])
  exact kept.2 unshared

end Evaluations

/-- The worlds of a host that has no chain cached under two names. It makes what
elements it likes, but lets those that are cached be: it links, unlinks and destroys
none that begins a value. -/
inductive Tended (settings : Settings) : World → Prop where
  | start (world : World) : world.store.Linked → world.context.cache = {} →
      world.context.retired = [] → Tended settings world
  | stored (world : World) (name : Option String) (chain : Option ElementId) (readOnly : Bool) :
      Tended settings world →
      (∀ head, chain = some head → head < world.store.size ∧
        ∀ other, world.context.chainOf other = some head → other = name) →
      Tended settings (world.setVariable settings name chain readOnly).2
  | erased (world : World) (name : Option String) : Tended settings world →
      Tended settings (world.eraseVariable name)
  | evaluated (world : World) (fuel : Nat) (start : Option ElementId) (toEnd : Bool)
      (rendered : Rendered) : Tended settings world →
      render settings fuel world start toEnd = some rendered → Tended settings rendered.2
  | hosted (world after : World) : Tended settings world → after.store.Linked →
      after.context.cache = world.context.cache → after.context.retired = world.context.retired →
      (∀ chain, world.context.Knows chain → world.store.Root chain → after.store.Root chain) →
      Tended settings after

section Tended

variable {settings : Settings} {world : World}

theorem setVariable_offers (checked : settings.errorChecks = true) {offered : Option ElementId}
    (inside : ∀ head, offered = some head → head < world.store.size) (name : Option String)
    (readOnly : Bool) :
    (∃ notices, (world.setVariable settings name offered readOnly).2 =
      note settings notices world) ∨ ∀ head, offered = some head → world.store.Root head := by
  unfold setVariable
  rw [if_pos checked]
  cases refused : world.cacheRefusal name offered with
  | some refusal => exact Or.inl ⟨refusal.2, rfl⟩
  | none =>
      right
      rintro head rfl
      unfold cacheRefusal at refused
      split at refused
      · cases refused
      · simp only [ite_eq_right_iff, reduceCtorEq, imp_false, Bool.or_eq_true, not_or,
          Option.not_isSome_iff_eq_none] at refused
        exact ⟨inside head rfl, refused.1, refused.2⟩

theorem Tended.separate (tended : Tended settings world) (checked : settings.errorChecks = true) :
    world.Rooted ∧ world.Unshared := by
  -- One case for each way in which a host goes on.
  induction tended with
  | start world linked noCache noRetired =>
      have nothing : ∀ name, world.context.chainOf name = none := fun name => by
        rw [Context.chainOf, noCache]
        rfl
      refine ⟨⟨linked, fun chain known => ?_⟩, fun name _ chain cached => ?_⟩
      · rw [Context.Knows, Context.chains, noCache, noRetired] at known
        rcases known with cached | retired
        · cases cached
        · cases retired
      · rw [nothing] at cached
        cases cached
  | stored world name chain readOnly _ offers ih =>
      obtain ⟨rooted, unshared⟩ := ih
      have inside := fun head isHead => (offers head isHead).1
      rcases setVariable_offers checked inside name readOnly with
        ⟨notices, noted⟩ | root
      · rw [noted]
        exact ⟨⟨rooted.linked, rooted.roots⟩, unshared⟩
      · have sheds := setVariable_sheds settings world name chain readOnly
        exact ⟨(sheds.upkept rooted root).rooted,
          sheds.unshared unshared fun head other isHead => (offers head isHead).2 other⟩
  | erased world name _ ih =>
      exact ⟨(eraseVariable_upkept ih.1 name).rooted,
        ih.2.of_chains fun _ _ => chainOf_eraseVariable⟩
  | evaluated world fuel start toEnd rendered _ ran ih =>
      exact ⟨render_rooted ih.1 ran, render_unshared ih.1 ih.2 ran⟩
  | hosted world after _ linked cache retired roots ih =>
      obtain ⟨rooted, unshared⟩ := ih
      refine ⟨⟨linked, fun chain known => ?_⟩, unshared.of_chains fun name chain cached => ?_⟩
      · rw [Context.Knows, Context.chains, cache, retired] at known
        exact roots chain known (rooted.roots chain known)
      · rwa [Context.chainOf, cache] at cached

/-- As long as no chain is stored under two names, no element belongs to the values of
two names, and to store under a name or to erase it leaves every other name its value
with all its elements and its flag. -/
theorem values_separate (checked : settings.errorChecks = true) (tended : Tended settings world) :
    (∀ name other head start id, world.context.chainOf name = some head →
      world.context.chainOf other = some start → world.store.Reached [head] id →
      world.store.Reached [start] id → name = other) ∧
    ∀ name other, other ≠ name →
      SameValue world (world.eraseVariable name) other ∧
      ∀ chain readOnly,
        SameValue world (world.setVariable settings name chain readOnly).2 other := by
  obtain ⟨rooted, unshared⟩ := tended.separate checked
  have root : ∀ {name chain}, world.context.chainOf name = some chain → world.store.Root chain :=
    fun cached => rooted.roots _ (Or.inl (mem_chains_of_chainOf cached))
  refine ⟨fun name other head start id isHead isStart fromHead fromStart => ?_,
    fun name other different => ⟨?_, fun chain readOnly => ?_⟩⟩
  · -- Nothing but itself leads to the head of a value.
    have shared := ((root isHead).enclosed rooted.linked).origin rooted.linked fromStart fromHead
    have same := (root isStart).reached rooted.linked shared
    exact unshared name other head isHead (same ▸ isStart)
  · exact (eraseVariable_replaces world name).same rooted unshared different
  · exact (setVariable_replaces settings world name chain readOnly).same rooted unshared different

end Tended

def unrelated : Store := ⟨#[{ kind := .text, text := some "a" },
  { kind := .command, text := some "b", child := some 2 },
  { kind := .text, text := some "c", parent := some 1 }]⟩

/-- Two values, of which one is erased. -/
theorem values_separate_erased :
    let first := (World.setVariable {} { store := unrelated } (some "v") (some 0) false).2
    let both := (first.setVariable {} (some "w") (some 1) true).2
    both.context.chainOf (some "v") = some 0 ∧ both.context.chainOf (some "w") = some 1 ∧
      SameValue both (both.eraseVariable (some "v")) (some "w") := by
  intro first both
  have linked : unrelated.Linked := by
    let text : Forest := .cons ⟨.text, some "a", {}⟩ .nil .nil
    let command : Forest := .cons ⟨.command, some "b", {}⟩
      (.cons ⟨.text, some "c", {}⟩ .nil .nil) .nil
    have same : unrelated = (plant (plant {} none none text).1 none none command).1 := by
      decide +kernel
    exact same ▸ grown_linked (plant_grown _ command)
      (grown_linked (plant_grown {} text) empty_sound.linked)
  have one : Tended {} first := by
    refine .stored _ _ _ _ (.start _ linked rfl rfl) ?_
    rintro _ ⟨⟩
    exact ⟨by decide, fun _ cached => nomatch cached⟩
  have two : Tended {} both := by
    refine .stored _ _ _ _ one ?_
    rintro _ ⟨⟩
    refine ⟨by decide, fun other cached => ?_⟩
    have isFirst := setVariable_replaces {} { store := unrelated } (some "v") (some 0) false
    by_cases isName : other = some "v"
    · subst isName
      exact absurd cached (by decide)
    · rw [Context.chainOf, isFirst.entries other isName] at cached
      cases cached
  exact ⟨by decide, by decide,
    ((values_separate rfl two).2 (some "v") (some "w") (by decide)).1⟩

theorem shared_released {world : World} {name other : Option String} {head : ElementId}
    {forest : Forest} {ids : List ElementId}
    (planted : world.store.Planted none none (some head) forest ids)
    (cached : world.context.chainOf name = some head)
    (shared : world.context.chainOf other = some head) (different : other ≠ name)
    (unpinned : world.context.isPinned head = false) :
    (world.eraseVariable name).context.chainOf other = some head ∧
      Cleared world.store (world.eraseVariable name).store (· ∈ ids) := by
  constructor
  · rw [Context.chainOf, (eraseVariable_replaces world name).entries other different]
    exact shared
  · have lone : (world.withContext fun context =>
        { context with cache := context.cache.erase name }).context.isPinned head = false :=
      unpinned
    have released : (world.eraseVariable name).store = world.store.destroyAll (some head) := by
      simp only [eraseVariable, cached, retire, lone]
      rfl
    rw [released]
    exact destroyAll_standing planted

/-- A value is accepted under a second name, and to erase the first one takes it apart. -/
theorem shared_couple_destroyed :
    let once := World.setVariable {} { store := couple } (some "v") (some 0) false
    let twice := once.2.setVariable {} (some "w") (some 0) false
    let erased := twice.2.eraseVariable (some "v")
    once.1 = .ok ∧ twice.1 = .ok ∧ twice.2.store = couple ∧ twice.2.context.pins = [] ∧
      couple.prev 0 = none ∧ couple.parent 0 = none ∧
      erased.context.chainOf (some "w") = some 0 ∧
      ¬ SameValue twice.2 erased (some "w") := by
  intro once twice erased
  refine ⟨by decide, by decide, by decide, by decide, by decide, by decide, by decide, ?_⟩
  intro same
  have kept := same.elements 0 (by decide) 0 (reached_single.mpr .refl)
  exact absurd kept (by decide)

end World

end Stencil
