import Stencil.Proofs.CacheMirror

/-!
Who keeps a chain alive. A history lists the moments of a host that stores, erases
and pins, the newest first, each with the pins that were entered and not left by
then. The context counts exactly these. A chain is held while it is cached, and
after that as long as a pin on it is open without a break; in the second case it
lingers. Every operation on the cache exchanges some chains for others: what it loses
is retired or destroyed. A chain that was not stored again while it lingered is
retired exactly once if it lingers and not at all if not, so no pin that ends takes a
cached value with it. Storing a lingering chain again leaves it retired, and then
its last pin destroys it in the cache.
-/

namespace Stencil

namespace Table

variable {Key Value : Type} [DecidableEq Key] {table : Table Key Value}

theorem erase_others (unique : table.keys.Nodup) (key : Key) :
    (table.erase key).entries = others key table.entries := by
  obtain ⟨entries⟩ := table
  induction entries with
  | nil => rfl
  | cons entry rest ih =>
      have apart : entry.1 ∉ rest.map Prod.fst ∧ (rest.map Prod.fst).Nodup :=
        List.nodup_cons.mp unique
      have later := ih apart.2
      simp only [erase, others] at later ⊢
      by_cases same : entry.1 = key
      · have missed : ∀ other ∈ rest, (other.1 != key) = true := by
          intro other member
          apply bne_iff_ne.mpr
          rintro rfl
          exact apart.1 (same ▸ List.mem_map_of_mem member)
        simp [same, List.filter_eq_self.mpr missed]
      · simp [same, later]

theorem keys_erase_nodup (unique : table.keys.Nodup) (key : Key) :
    (table.erase key).keys.Nodup :=
  unique.sublist (List.filter_sublist.map Prod.fst)

theorem keys_put_nodup (unique : table.keys.Nodup) (key : Key) (value : Value) :
    (table.put key value).keys.Nodup := by
  have keys := (putEntry_perm key value table.entries).map Prod.fst
  apply keys.nodup_iff.mpr
  rw [← erase_others unique key]
  apply List.nodup_cons.mpr
  refine ⟨?_, keys_erase_nodup unique key⟩
  simp [erase]

end Table

namespace World

section Exchanges

/-- The chains in `lost` go out of the cache and those in `taken` come in. -/
structure Exchange (world after : World) (lost taken : List ElementId) : Prop where
  chains : ∃ kept, world.context.chains.Perm (lost ++ kept) ∧
    after.context.chains.Perm (taken ++ kept)
  apart : ∀ chain ∈ lost, chain ∉ taken
  pins : after.context.pins = world.context.pins
  retired : after.context.retired =
    world.context.retired ++ lost.filter world.context.isPinned
  store : after.store = (lost.filter fun chain => !world.context.isPinned chain).foldl
    (fun store chain => store.destroyAll (some chain)) world.store

variable {world after : World} {lost taken : List ElementId}

theorem foldl_retire (lost : List ElementId) (world : World) :
    lost.foldl retire world = { world with
      store := (lost.filter fun chain => !world.context.isPinned chain).foldl
        (fun store chain => store.destroyAll (some chain)) world.store
      context := { world.context with
        retired := world.context.retired ++ lost.filter world.context.isPinned } } := by
  induction lost generalizing world with
  | nil => simp
  | cons chain rest ih =>
      have same : (world.retire chain).context.isPinned = world.context.isPinned := by
        unfold retire
        split <;> rfl
      rw [List.foldl_cons, ih, same]
      by_cases pinned : world.context.isPinned chain = true
      · have retires : world.retire chain = world.withContext fun context =>
            { context with retired := context.retired ++ [chain] } := if_pos pinned
        simp [retires, pinned, withContext]
      · have destroys : world.retire chain = world.destroyAll (some chain) := if_neg pinned
        simp [destroys, pinned, destroyAll]

theorem retire_exchange (chains : ∃ kept, world.context.chains.Perm (lost ++ kept) ∧
      after.context.chains.Perm (taken ++ kept))
    (apart : ∀ chain ∈ lost, chain ∉ taken)
    (store : after.store = (lost.foldl retire world).store)
    (pins : after.context.pins = (lost.foldl retire world).context.pins)
    (retired : after.context.retired = (lost.foldl retire world).context.retired) :
    Exchange world after lost taken := by
  rw [foldl_retire] at store pins retired
  exact ⟨chains, apart, pins, retired, store⟩

theorem note_exchange (settings : Settings) (notices : List Notice) (world : World) :
    Exchange world (note settings notices world) [] [] :=
  ⟨⟨_, .refl _, .refl _⟩, by simp, rfl, by simp [note], rfl⟩

theorem setVariable_exchange (settings : Settings) (world : World) (name : Option String)
    (chain : Option ElementId) (readOnly : Bool) :
    ∃ lost taken, (taken = [] ∨ taken = chain.toList) ∧
      Exchange world (world.setVariable settings name chain readOnly).2 lost taken := by
  unfold setVariable
  split
  · exact ⟨[], [], Or.inl rfl, note_exchange settings _ world⟩
  · have stored := fun context : Context => context.chains_put name ⟨chain, readOnly⟩
    have before := world.context.chains_perm name
    by_cases same : chain = world.context.chainOf name
    · -- The chain keeps its place, so nothing is lost.
      have stays : world.retirePrevious name chain = world := by
        subst same
        cases found : world.context.chainOf name <;> simp [retirePrevious, found]
      rw [stays]
      refine ⟨[], [], Or.inl rfl, retire_exchange ⟨_, .refl _, ?_⟩ (by simp) rfl rfl rfl⟩
      exact (stored world.context).trans (same ▸ before.symm)
    · have leaves : world.retirePrevious name chain =
          (world.context.chainOf name).toList.foldl retire world := by
        cases found : world.context.chainOf name with
        | none => simp [retirePrevious, found]
        | some previous => simp [retirePrevious, found, found ▸ same]
      rw [leaves]
      refine ⟨_, chain.toList, Or.inr rfl, retire_exchange ⟨_, before, ?_⟩ ?_ rfl rfl rfl⟩
      · rw [foldl_retire]
        exact stored _
      · simp only [Option.mem_toList]
        rintro previous isPrevious rfl
        exact same isPrevious.symm

theorem eraseVariable_exchange (unique : world.context.cache.keys.Nodup)
    (name : Option String) :
    Exchange world (world.eraseVariable name) (world.context.chainOf name).toList [] := by
  have before := world.context.chains_perm name
  have others : ({ world.context with cache := world.context.cache.erase name } :
      Context).chains = world.context.otherChains name := by
    simp only [Context.chains, Context.otherChains, Table.erase_others unique]
  have erases : world.eraseVariable name = (world.context.chainOf name).toList.foldl retire
      (world.withContext fun context => { context with cache := context.cache.erase name }) := by
    cases found : world.context.chainOf name <;> simp [eraseVariable, found]
  rw [erases, foldl_retire]
  exact ⟨⟨_, before, .of_eq others⟩, by simp, rfl, rfl, rfl⟩

theorem clearVariables_exchange (world : World) :
    Exchange world world.clearVariables world.context.chains [] :=
  retire_exchange ⟨[], by simp, .refl _⟩ (by simp) rfl rfl rfl

end Exchanges

section Pins

variable (world : World) (name : Option String) (pin : Option ElementId)

@[simp] theorem chains_leavePin :
    (world.leavePin name pin).context.chains = world.context.chains := by
  cases pin with
  | none => rfl
  | some chain =>
      simp only [leavePin, Option.toList_some, List.foldl_cons, List.foldl_nil, releaseRetired]
      split <;> rfl

@[simp] theorem pins_leavePin :
    (world.leavePin name pin).context.pins = world.context.pins.erase pin := by
  cases pin with
  | none => rfl
  | some chain =>
      simp only [leavePin, Option.toList_some, List.foldl_cons, List.foldl_nil, releaseRetired]
      split <;> rfl

theorem retired_leavePin {chain : ElementId} (different : pin ≠ some chain) :
    (world.leavePin name pin).context.retired.count chain =
      world.context.retired.count chain := by
  cases pin with
  | none => rfl
  | some target =>
      have apart : chain ≠ target := fun same => different (congrArg some same.symm)
      simp only [leavePin, Option.toList_some, List.foldl_cons, List.foldl_nil, releaseRetired]
      split
      · exact List.count_erase_of_ne apart
      · rfl

variable {world} {chain : ElementId}

theorem leavePin_pinned
    (pinned : (world.leavePin name (some chain)).context.isPinned chain = true) :
    world.leavePin name (some chain) = world.withContext (·.leave name (some chain)) := by
  have still : (world.withContext (·.leave name (some chain))).context.isPinned chain = true := by
    rw [Context.isPinned, pins_leavePin] at pinned
    exact pinned
  simp [leavePin, releaseRetired, still]

theorem leavePin_unretired (absent : chain ∉ world.context.retired) :
    world.leavePin name (some chain) = world.withContext (·.leave name (some chain)) := by
  have missing : (world.withContext (·.leave name (some chain))).context.retired.contains chain =
      false := by
    simpa [withContext, Context.leave] using absent
  simp only [leavePin, Option.toList_some, List.foldl_cons, List.foldl_nil, releaseRetired,
    missing, Bool.and_false]
  rfl

theorem leavePin_last
    (last : (world.leavePin name (some chain)).context.isPinned chain = false)
    (member : chain ∈ world.context.retired) :
    (world.leavePin name (some chain)).context.retired = world.context.retired.erase chain ∧
      (world.leavePin name (some chain)).store = world.store.destroyAll (some chain) := by
  have gone : (world.withContext (·.leave name (some chain))).context.isPinned chain = false := by
    rw [Context.isPinned, pins_leavePin] at last
    exact last
  have present : (world.withContext (·.leave name (some chain))).context.retired.contains chain =
      true := by
    simpa [withContext, Context.leave] using member
  simp only [leavePin, Option.toList_some, List.foldl_cons, List.foldl_nil, releaseRetired, gone,
    present]
  exact ⟨rfl, rfl⟩

end Pins

inductive CacheStep where
  | set (name : Option String) (chain : Option ElementId) (readOnly : Bool)
  | erase (name : Option String)
  | clear
  | destroy
  | enter (name : Option String) (chain : Option ElementId)
  | leave (name : Option String) (chain : Option ElementId)
  deriving DecidableEq, Repr

def CacheStep.apply (settings : Settings) (world : World) : CacheStep → World
  | set name chain readOnly => (world.setVariable settings name chain readOnly).2
  | erase name => world.eraseVariable name
  | clear => world.clearVariables
  | destroy => world.clear
  | enter name chain => world.enterPin name chain
  | leave name chain => world.leavePin name chain

def CacheStep.offered : CacheStep → Option ElementId
  | set _ chain _ => chain
  | _ => none

def CacheStep.pins (pins : List (Option ElementId)) : CacheStep → List (Option ElementId)
  | enter _ chain => chain :: pins
  | leave _ chain => pins.erase chain
  | _ => pins

/-- A world, and the pins that were entered on the way to it and not left. -/
structure Moment extends World where
  openPins : List (Option ElementId) := []

def CacheStep.next (settings : Settings) (now : Moment) (step : CacheStep) : Moment :=
  ⟨step.apply settings now.toWorld, step.pins now.openPins⟩

/-- The moments from a fresh context on, the newest first. Between the steps the
host may do to the elements what it likes. -/
inductive Course (settings : Settings) : List Moment → Prop
  | start (store : Store) : Course settings [{ store }]
  | step {now : Moment} {past : List Moment} (step : CacheStep)
      (course : Course settings (now :: past)) :
      Course settings (step.next settings now :: now :: past)
  | host {now : Moment} {past : List Moment} (store : Store)
      (course : Course settings (now :: past)) :
      Course settings ({ now with store } :: now :: past)

/-- The chain is cached, or it was when it was pinned and has been pinned since. -/
def Held (chain : ElementId) : List Moment → Prop
  | [] => False
  | now :: past => chain ∈ now.context.chains ∨ some chain ∈ now.openPins ∧ Held chain past

/-- The chain is cached no more, and has been pinned since it was. -/
def Lingers (chain : ElementId) : List Moment → Prop
  | [] => False
  | now :: past => chain ∉ now.context.chains ∧ some chain ∈ now.openPins ∧ Held chain past

/-- The chain was stored again while it lingered. -/
def Revived (chain : ElementId) : List Moment → Prop
  | [] => False
  | now :: past => Lingers chain past ∧ chain ∈ now.context.chains ∨ Revived chain past

instance decidableHeld (chain : ElementId) :
    (history : List Moment) → Decidable (Held chain history)
  | [] => isFalse id
  | now :: past =>
      have := decidableHeld chain past
      inferInstanceAs (Decidable
        (chain ∈ now.context.chains ∨ some chain ∈ now.openPins ∧ Held chain past))

instance decidableLingers (chain : ElementId) :
    (history : List Moment) → Decidable (Lingers chain history)
  | [] => isFalse id
  | now :: past => inferInstanceAs (Decidable
      (chain ∉ now.context.chains ∧ some chain ∈ now.openPins ∧ Held chain past))

instance decidableRevived (chain : ElementId) :
    (history : List Moment) → Decidable (Revived chain history)
  | [] => isFalse id
  | now :: past =>
      have := decidableRevived chain past
      inferInstanceAs (Decidable
        (Lingers chain past ∧ chain ∈ now.context.chains ∨ Revived chain past))

section Custody

variable {settings : Settings} {world : World} {now after : Moment} {past : List Moment}
variable {chain : ElementId} {lost taken : List ElementId}

theorem held_iff :
    Held chain (now :: past) ↔ chain ∈ now.context.chains ∨ Lingers chain (now :: past) := by
  simp only [Held, Lingers]
  by_cases cached : chain ∈ now.context.chains <;> simp [cached]

theorem Lingers.held (lingers : Lingers chain (now :: past)) : Held chain (now :: past) :=
  Or.inr lingers.2

/-- Of the steps only the two on pins are no exchange, and only they open or end a pin. -/
theorem CacheStep.cases (settings : Settings) (unique : world.context.cache.keys.Nodup)
    (step : CacheStep) :
    (∃ name pin, step = .enter name pin) ∨ (∃ name pin, step = .leave name pin) ∨
      (∀ pins, step.pins pins = pins) ∧ ∃ lost taken, (taken = [] ∨ taken = step.offered.toList) ∧
        Exchange world (step.apply settings world) lost taken := by
  cases step with
  | set name chain readOnly =>
      exact Or.inr (Or.inr ⟨fun _ => rfl, setVariable_exchange settings world name chain readOnly⟩)
  | erase name =>
      exact Or.inr (Or.inr
        ⟨fun _ => rfl, _, [], Or.inl rfl, eraseVariable_exchange unique name⟩)
  | clear =>
      exact Or.inr (Or.inr ⟨fun _ => rfl, _, [], Or.inl rfl, clearVariables_exchange world⟩)
  | destroy =>
      have clears := clearVariables_exchange world
      exact Or.inr (Or.inr ⟨fun _ => rfl, _, [], Or.inl rfl,
        clears.chains, clears.apart, clears.pins, clears.retired, clears.store⟩)
  | enter name pin => exact Or.inl ⟨name, pin, rfl⟩
  | leave name pin => exact Or.inr (Or.inl ⟨name, pin, rfl⟩)

/-- A step does to the pins of the context what it does to the open ones. -/
theorem CacheStep.pins_apply (settings : Settings) (unique : world.context.cache.keys.Nodup)
    (step : CacheStep) :
    (step.apply settings world).context.pins = step.pins world.context.pins := by
  rcases step.cases settings unique with
    ⟨name, pin, rfl⟩ | ⟨name, pin, rfl⟩ | ⟨quiet, lost, taken, _, exchange⟩
  · rfl
  · exact pins_leavePin world name pin
  · rw [quiet, exchange.pins]

theorem cache_retire (world : World) (chain : ElementId) :
    (world.retire chain).context.cache = world.context.cache := by
  unfold retire
  split <;> rfl

theorem CacheStep.keys_nodup (settings : Settings) (unique : world.context.cache.keys.Nodup)
    (step : CacheStep) : (step.apply settings world).context.cache.keys.Nodup := by
  cases step with
  | set name chain readOnly =>
      simp only [apply, setVariable]
      split
      · exact unique
      · have kept : (world.retirePrevious name chain).context.cache = world.context.cache := by
          unfold retirePrevious
          split
          · split
            · rfl
            · exact cache_retire world _
          · rfl
        exact Table.keys_put_nodup (kept ▸ unique) name _
  | erase name =>
      have erased := Table.keys_erase_nodup unique name
      simp only [apply, eraseVariable]
      split
      · exact (cache_retire _ _).symm ▸ erased
      · exact erased
  | clear => exact List.nodup_nil
  | destroy => exact List.nodup_nil
  | enter name pin => exact unique
  | leave name pin =>
      cases pin with
      | none => exact unique
      | some chain =>
          simp only [apply, leavePin, Option.toList_some, List.foldl_cons, List.foldl_nil,
            releaseRetired]
          split <;> exact unique

theorem Course.keys_nodup (course : Course settings (now :: past)) :
    now.context.cache.keys.Nodup := by
  generalize moments : now :: past = history at course
  induction course generalizing now past with
  | start store =>
      cases moments
      exact List.nodup_nil
  | step step course ih =>
      cases moments
      exact step.keys_nodup settings (ih rfl)
  | host store course ih =>
      cases moments
      have unique := ih rfl
      exact unique

/-- The context counts the pins that were entered and not left. -/
theorem Course.pins_eq (course : Course settings (now :: past)) :
    now.context.pins = now.openPins := by
  generalize moments : now :: past = history at course
  induction course generalizing now past with
  | start store =>
      cases moments
      rfl
  | step step course ih =>
      cases moments
      exact (step.pins_apply settings course.keys_nodup).trans (congrArg step.pins (ih rfl))
  | host store course ih =>
      cases moments
      have same := ih rfl
      exact same

theorem isPinned_iff (counted : now.context.pins = now.openPins) :
    now.context.isPinned chain = true ↔ some chain ∈ now.openPins := by
  simp [Context.isPinned, counted]

structure Counted (chain : ElementId) (now : Moment) (past : List Moment) : Prop where
  lingering : Lingers chain (now :: past) → now.context.retired.count chain = 1
  done : ¬ Lingers chain (now :: past) → now.context.retired.count chain = 0

section Exchange

variable {changed : World} (exchange : Exchange world changed lost taken)
include exchange

theorem Exchange.cached_of_lost (member : chain ∈ lost) : chain ∈ world.context.chains := by
  obtain ⟨kept, before, _⟩ := exchange.chains
  exact before.symm.subset (List.mem_append_left kept member)

variable (distinct : world.context.chains.Nodup)
include distinct

theorem Exchange.lost_nodup : lost.Nodup := by
  obtain ⟨kept, before, _⟩ := exchange.chains
  exact (List.nodup_append'.mp (before.nodup_iff.mp distinct)).1

theorem Exchange.cached_iff (chain : ElementId) :
    chain ∈ changed.context.chains ↔
      chain ∈ taken ∨ chain ∈ world.context.chains ∧ chain ∉ lost := by
  obtain ⟨kept, before, behind⟩ := exchange.chains
  have apart := (List.nodup_append'.mp (before.nodup_iff.mp distinct)).2.2
  rw [behind.mem_iff, before.mem_iff, List.mem_append, List.mem_append]
  refine or_congr_right ⟨fun member => ⟨Or.inr member, fun isLost => apart isLost member⟩, ?_⟩
  exact fun stays => stays.1.resolve_left stays.2

theorem Exchange.chains_nodup (once : taken.Nodup)
    (new : ∀ chain ∈ taken, chain ∉ world.context.chains) :
    changed.context.chains.Nodup := by
  obtain ⟨kept, before, behind⟩ := exchange.chains
  have parts := List.nodup_append'.mp (before.nodup_iff.mp distinct)
  apply behind.nodup_iff.mpr
  refine List.nodup_append'.mpr ⟨once, parts.2.1, fun chain isNew isKept => ?_⟩
  exact new chain isNew (before.symm.subset (List.mem_append_right lost isKept))

end Exchange

-- An exchange retires what it loses and is pinned. It loses no lingering chain, and
-- none of these comes back.
theorem Exchange.counted (exchange : Exchange now.toWorld after.toWorld lost taken)
    (distinct : now.context.chains.Nodup) (pins : now.context.pins = now.openPins)
    (stay : after.openPins = now.openPins) (counted : Counted chain now past)
    (once : ¬ (Lingers chain (now :: past) ∧ chain ∈ after.context.chains)) :
    Counted chain after (now :: past) := by
  have stays := exchange.cached_iff distinct chain
  have count : after.context.retired.count chain = now.context.retired.count chain +
      (lost.filter now.context.isPinned).count chain := by
    rw [exchange.retired, List.count_append]
  by_cases isLost : chain ∈ lost
  · have cached := exchange.cached_of_lost isLost
    have before : now.context.retired.count chain = 0 :=
      counted.done fun lingers => lingers.1 cached
    have gone : chain ∉ after.context.chains := by
      rw [stays]
      exact not_or.mpr ⟨exchange.apart chain isLost, fun kept => kept.2 isLost⟩
    by_cases pinned : some chain ∈ now.openPins
    · have lingers : Lingers chain (after :: now :: past) :=
        ⟨gone, stay ▸ pinned, Or.inl cached⟩
      refine ⟨fun _ => ?_, fun unpinned => absurd lingers unpinned⟩
      rw [count, before, List.count_filter ((isPinned_iff pins).mpr pinned),
        List.count_eq_one_of_mem (exchange.lost_nodup distinct) isLost]
    · have missed : chain ∉ lost.filter now.context.isPinned := fun member =>
        pinned ((isPinned_iff pins).mp (List.mem_filter.mp member).2)
      refine ⟨fun lingers => absurd (stay ▸ lingers.2.1) pinned, fun _ => ?_⟩
      rw [count, before, List.count_eq_zero_of_not_mem missed]
  · have missed : (lost.filter now.context.isPinned).count chain = 0 :=
      List.count_eq_zero_of_not_mem (by simp [isLost])
    have same : after.context.retired.count chain = now.context.retired.count chain := by
      rw [count, missed, Nat.add_zero]
    have lingers : Lingers chain (after :: now :: past) ↔ Lingers chain (now :: past) := by
      constructor
      · rintro ⟨gone, _, held⟩
        rw [stays] at gone
        exact (held_iff.mp held).resolve_left fun cached => gone (Or.inr ⟨cached, isLost⟩)
      · exact fun lingers => ⟨fun cached => once ⟨lingers, cached⟩, stay ▸ lingers.2.1,
          lingers.held⟩
    exact ⟨fun now => same.trans (counted.lingering (lingers.mp now)),
      fun now => same.trans (counted.done (mt lingers.mpr now))⟩

-- Where neither the cache nor the list of retired chains changes, only the last pin
-- of the chain can matter.
theorem Counted.repinned (counted : Counted chain now past)
    (chains : after.context.chains = now.context.chains)
    (pinned : Lingers chain (now :: past) → some chain ∈ after.openPins)
    (retired : after.context.retired.count chain = now.context.retired.count chain) :
    Counted chain after (now :: past) := by
  have lingers : Lingers chain (after :: now :: past) ↔ Lingers chain (now :: past) := by
    constructor
    · rintro ⟨gone, _, held⟩
      exact (held_iff.mp held).resolve_left (chains ▸ gone)
    · exact fun lingers => ⟨chains ▸ lingers.1, pinned lingers, lingers.held⟩
  exact ⟨fun now => retired.trans (counted.lingering (lingers.mp now)),
    fun now => retired.trans (counted.done (mt lingers.mpr now))⟩

theorem enterPin_counted (counted : Counted chain now past) (name : Option String)
    (pin : Option ElementId) :
    Counted chain (CacheStep.next settings now (.enter name pin)) (now :: past) :=
  counted.repinned rfl (fun lingers => List.mem_cons_of_mem pin lingers.2.1) rfl

theorem leavePin_counted (pins : now.context.pins = now.openPins)
    (counted : Counted chain now past) (name : Option String) (pin : Option ElementId) :
    Counted chain (CacheStep.next settings now (.leave name pin)) (now :: past) := by
  have chains := chains_leavePin now.toWorld name pin
  by_cases different : pin ≠ some chain
  · exact counted.repinned chains
      (fun lingers => (List.mem_erase_of_ne (Ne.symm different)).mpr lingers.2.1)
      (retired_leavePin now.toWorld name pin different)
  obtain rfl := not_not.mp different
  have left : (now.leavePin name (some chain)).context.isPinned chain = true ↔
      some chain ∈ now.openPins.erase (some chain) := by
    simp [Context.isPinned, pins]
  by_cases pinned : some chain ∈ now.openPins.erase (some chain)
  · refine counted.repinned chains (fun _ => pinned) ?_
    change (now.leavePin name (some chain)).context.retired.count chain = _
    rw [leavePin_pinned name (left.mpr pinned)]
    rfl
  -- The last pin is gone, and the chain was retired at most once.
  have last : (now.leavePin name (some chain)).context.isPinned chain = false := by
    simpa using mt left.mp pinned
  refine ⟨fun lingers => absurd lingers.2.1 pinned, fun _ => ?_⟩
  change (now.leavePin name (some chain)).context.retired.count chain = 0
  by_cases member : chain ∈ now.context.retired
  · have lingers : Lingers chain (now :: past) := by
      by_contra gone
      exact List.count_pos_iff.mpr member |>.ne' (counted.done gone)
    rw [(leavePin_last name last member).1, List.count_erase_self, counted.lingering lingers]
  · rw [leavePin_unretired name member]
    exact List.count_eq_zero_of_not_mem member

/-- In a course where the chain was never stored again while it lingered, it is
retired exactly while it lingers. -/
theorem Course.counted (course : Course settings (now :: past))
    (distinct : ∀ moment ∈ now :: past, moment.context.chains.Nodup)
    (once : ¬ Revived chain (now :: past)) : Counted chain now past := by
  generalize moments : now :: past = history at course
  induction course generalizing now past with
  | start store =>
      cases moments
      exact ⟨fun lingers => lingers.2.2.elim, fun _ => rfl⟩
  | @step before earlier step course ih =>
      cases moments
      have counted := ih (fun moment member => distinct moment (List.mem_cons_of_mem _ member))
        (fun revived => once (Or.inr revived)) rfl
      rcases step.cases settings course.keys_nodup with
        ⟨name, pin, rfl⟩ | ⟨name, pin, rfl⟩ | ⟨quiet, lost, taken, _, exchange⟩
      · exact enterPin_counted counted name pin
      · exact leavePin_counted course.pins_eq counted name pin
      · have exchanges : Exchange before.toWorld (step.next settings before).toWorld lost taken :=
          exchange
        exact exchanges.counted (distinct before (by simp)) course.pins_eq (quiet _) counted
          fun again => once (Or.inl again)
  | host store course ih =>
      cases moments
      have counted := ih (fun moment member => distinct moment (List.mem_cons_of_mem _ member))
        (fun revived => once (Or.inr revived)) rfl
      exact counted.repinned rfl (fun lingers => lingers.2.1) rfl

/-- The end of a pin destroys no chain that is the value of a name, unless this was
stored again while it lingered. -/
theorem leavePin_spares (course : Course settings (now :: past))
    (distinct : ∀ moment ∈ now :: past, moment.context.chains.Nodup)
    (cached : chain ∈ now.context.chains) (once : ¬ Revived chain (now :: past))
    (name : Option String) :
    (now.leavePin name (some chain)).store = now.store := by
  have counted := course.counted distinct once
  have absent : chain ∉ now.context.retired :=
    List.count_eq_zero.mp (counted.done fun lingers => lingers.1 cached)
  rw [leavePin_unretired name absent]
  rfl

theorem cacheRefusal_status (name : Option String) (offered : Option ElementId)
    {refusal : Status × List Notice} (refused : world.cacheRefusal name offered = some refusal) :
    refusal.1 ≠ .ok := by
  unfold cacheRefusal at refused
  split at refused
  · cases refused
    simp
  · split at refused
    · split at refused
      · cases refused
        simp
      · cases refused
    · cases refused

theorem setVariable_cases (settings : Settings) (name : Option String)
    (offered : Option ElementId) (readOnly : Bool) :
    ((world.setVariable settings name offered readOnly).1 = .ok ∧
      offered.toList ⊆ (world.setVariable settings name offered readOnly).2.context.chains) ∨
    (world.setVariable settings name offered readOnly).1 ≠ .ok ∧ ∃ notices,
      (world.setVariable settings name offered readOnly).2 = note settings notices world := by
  unfold setVariable
  split
  · rename_i refusal refused
    split at refused
    · exact Or.inr ⟨cacheRefusal_status name offered refused, refusal.2, rfl⟩
    · cases refused
  · refine Or.inl ⟨rfl, fun chain isOffered => ?_⟩
    exact ((world.retirePrevious name offered).context.chains_put name
      ⟨offered, readOnly⟩).symm.subset (List.mem_append_left _ isOffered)

theorem setVariable_caches (settings : Settings) (name : Option String) (readOnly : Bool)
    (accepted : (world.setVariable settings name (some chain) readOnly).1 = .ok) :
    chain ∈ (world.setVariable settings name (some chain) readOnly).2.context.chains := by
  rcases setVariable_cases settings name (some chain) readOnly with stored | refused
  · exact stored.2 (by simp)
  · exact absurd accepted refused.1

/-- A lingering chain that is stored again is destroyed in the cache when its last
pin ends. -/
theorem revived_destroyed (course : Course settings (now :: past))
    (distinct : ∀ moment ∈ now :: past, moment.context.chains.Nodup)
    (once : ¬ Revived chain (now :: past)) (lingers : Lingers chain (now :: past))
    (name pinned : Option String) (readOnly : Bool)
    (accepted : (now.setVariable settings name (some chain) readOnly).1 = .ok)
    (last : now.openPins.count (some chain) = 1) :
    let stored := (now.setVariable settings name (some chain) readOnly).2
    chain ∈ (stored.leavePin pinned (some chain)).context.chains ∧
      (stored.leavePin pinned (some chain)).store = stored.store.destroyAll (some chain) := by
  intro stored
  obtain ⟨lost, taken, _, exchange⟩ :=
    setVariable_exchange settings now.toWorld name (some chain) readOnly
  have still : chain ∈ stored.context.retired := by
    have retired := (course.counted distinct once).lingering lingers
    rw [show stored.context.retired = _ from exchange.retired]
    exact List.mem_append_left _ (List.count_pos_iff.mp (by omega))
  have unpinned : (stored.leavePin pinned (some chain)).context.isPinned chain = false := by
    have none : (now.context.pins.erase (some chain)).count (some chain) = 0 := by
      rw [course.pins_eq, List.count_erase_self, last]
    rw [Context.isPinned, pins_leavePin, show stored.context.pins = _ from exchange.pins]
    simpa using List.count_eq_zero.mp none
  refine ⟨?_, (leavePin_last pinned unpinned still).2⟩
  rw [chains_leavePin]
  exact setVariable_caches settings name readOnly accepted

end Custody

def couple : Store := ⟨#[{ kind := .text, text := some "a", next := some 1 },
  { kind := .text, text := some "b", prev := some 0 }]⟩

/-- A value that outlives one of its two pins. -/
theorem leavePin_spares_couple :
    let stored : World := CacheStep.apply {} { store := couple } (.set (some "v") (some 0) false)
    let twice := (stored.enterPin (some "v") (some 0)).enterPin (some "w") (some 0)
    let once := twice.leavePin (some "w") (some 0)
    0 ∈ once.context.chains ∧ (once.leavePin (some "v") (some 0)).store = couple := by
  intro stored twice once
  have course : Course {} [⟨once, [some 0]⟩, ⟨twice, [some 0, some 0]⟩,
      ⟨stored.enterPin (some "v") (some 0), [some 0]⟩, ⟨stored, []⟩, { store := couple }] :=
    .step (.leave (some "w") (some 0)) (.step (.enter (some "w") (some 0))
      (.step (.enter (some "v") (some 0)) (.step (.set (some "v") (some 0) false) (.start couple))))
  have cached : 0 ∈ once.context.chains := by decide
  have spared := leavePin_spares course (by decide) cached (by decide) (some "v")
  exact ⟨cached, spared.trans (by rfl)⟩

/-- Not every value outlives its pins: stored, pinned, erased and stored again, it is
gone when the pin ends. -/
theorem revived_couple_destroyed :
    let steps : List CacheStep := [.set (some "v") (some 0) false, .enter (some "p") (some 0),
      .erase (some "v"), .set (some "v") (some 0) false]
    let world := fun count => (steps.take count).foldl (CacheStep.apply {}) { store := couple }
    let left := (world 4).leavePin (some "p") (some 0)
    (∀ count ≤ 4, (world count).context.chains.Nodup ∧ (world count).store = couple) ∧
      (world 4).context.chainOf (some "v") = some 0 ∧ left.context.chainOf (some "v") = some 0 ∧
      couple.next 0 = some 1 ∧ left.store.next 0 = none ∧ left.store.prev 1 = none := by
  decide

end World

end Stencil
