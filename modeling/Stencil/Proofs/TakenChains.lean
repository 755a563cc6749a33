import Stencil.Proofs.ChainCustody
import Stencil.Proofs.StandingRelease

/-!
What becomes of the chains that a cache has taken over, each of them once. A chain
that is held stands as it was handed over; one that is not has been released, with
everything below it. Chains that stand apart share no cell, so the exchange of
some of them releases these and touches no other. The list of retired chains is
exact: it holds the lingering ones, each once, and nothing is on it without a pin.
-/

namespace Stencil

namespace Store

structure Bare (store : Store) (id : ElementId) : Prop where
  next : store.next id = none
  prev : store.prev id = none
  child : store.child id = none
  parent : store.parent id = none
  properties : store.properties id = {}

section Release

variable {store changed : Store} {id : ElementId} {region : ElementId → Prop}

theorem bare_release (store : Store) (id : ElementId) : (store.release id).Bare id := by
  obtain ⟨next, prev, child, parent⟩ := release_unlinked store id
  refine ⟨next, prev, child, parent, ?_⟩
  rw [properties, release, get?_update, if_pos rfl]
  cases store.get? id <;> rfl

theorem Bare.kept (bare : store.Bare id) (same : changed.get? id = store.get? id) :
    changed.Bare id := by
  obtain ⟨next, prev, child, parent⟩ := links_of_get? same
  refine ⟨next.trans bare.next, prev.trans bare.prev, child.trans bare.child,
    parent.trans bare.parent, ?_⟩
  rw [Store.properties, same]
  exact bare.properties

theorem Cleared.bare (clears : Cleared store changed region) (inside : region id) :
    changed.Bare id :=
  (bare_release store id).kept (clears.within id inside)

theorem Cleared.bare_kept (clears : Cleared store changed region) (bare : store.Bare id) :
    changed.Bare id := by
  by_cases inside : region id
  · exact clears.bare inside
  · exact bare.kept (clears.beyond id inside)

end Release

/-- The chain begins with this element and stands by itself on these cells. -/
def Stands (store : Store) (head : ElementId) (ids : List ElementId) : Prop :=
  ∃ forest, store.Planted none none (some head) forest ids

section Stands

variable {store changed : Store} {head other id : ElementId} {ids otherIds : List ElementId}

theorem Stands.kept (stands : store.Stands head ids)
    (same : ∀ id ∈ ids, changed.get? id = store.get? id) : changed.Stands head ids :=
  stands.imp fun _ planted => planted.kept same

theorem Stands.reached_iff (stands : store.Stands head ids) :
    store.Reached [head] id ↔ id ∈ ids := by
  obtain ⟨_, planted⟩ := stands
  exact planted.reached_iff

theorem Stands.apart (stands : store.Stands head ids) (others : store.Stands other otherIds)
    (different : other ≠ head) : ∀ id ∈ ids, id ∉ otherIds := by
  obtain ⟨_, planted⟩ := stands
  obtain ⟨_, otherPlanted⟩ := others
  exact planted.apart otherPlanted fun same => different (Option.some.inj same)

theorem reached_cons_iff (heads : List ElementId) :
    store.Reached (head :: heads) id ↔ store.Reached [head] id ∨ store.Reached heads id := by
  simp [Reached]

theorem destroyEach_cleared (heads : List ElementId)
    (standing : ∀ head ∈ heads, ∃ ids, store.Stands head ids) (distinct : heads.Nodup) :
    Cleared store (heads.foldl (fun store head => store.destroyAll (some head)) store)
      (store.Reached heads) := by
  induction heads generalizing store with
  | nil => exact ⟨by simp [Reached], fun _ _ => rfl⟩
  | cons head rest ih =>
      obtain ⟨fresh, distinct⟩ := List.nodup_cons.mp distinct
      obtain ⟨ids, stands⟩ := standing head List.mem_cons_self
      have first : Cleared store (store.destroyAll (some head)) (· ∈ ids) :=
        stands.elim fun _ planted => destroyAll_standing planted
      -- The chains that are still to be destroyed stand as before.
      have spared : ∀ other ∈ rest, ∀ otherIds, store.Stands other otherIds →
          ∀ id ∈ otherIds, (store.destroyAll (some head)).get? id = store.get? id := by
        intro other member otherIds others id inside
        have different : other ≠ head := fun same => fresh (same ▸ member)
        exact first.beyond id fun inFirst => stands.apart others different id inFirst inside
      have reached : ∀ id, (store.destroyAll (some head)).Reached rest id ↔
          store.Reached rest id := by
        intro id
        refine exists_congr fun other => and_congr_right fun member => ?_
        obtain ⟨otherIds, others⟩ := standing other (List.mem_cons_of_mem head member)
        have still := others.kept (spared other member otherIds others)
        simpa [Reached] using still.reached_iff.trans others.reached_iff.symm
      have later := ih (fun other member => (standing other (List.mem_cons_of_mem head member)).imp
        fun otherIds others => others.kept (spared other member otherIds others)) distinct
      constructor
      · intro id inside
        by_cases inRest : store.Reached rest id
        · obtain ⟨other, member, walk⟩ := inRest
          obtain ⟨otherIds, others⟩ := standing other (List.mem_cons_of_mem head member)
          have same := spared other member otherIds others id
            (others.reached_iff.mp ⟨other, by simp, walk⟩)
          rw [List.foldl_cons, later.within id ((reached id).mpr ⟨other, member, walk⟩)]
          simp only [release, get?_update, same]
        · have inFirst := ((reached_cons_iff rest).mp inside).resolve_right inRest
          rw [List.foldl_cons, later.beyond id (mt (reached id).mp inRest)]
          exact first.within id (stands.reached_iff.mp inFirst)
      · intro id outside
        have missed := not_or.mp (mt (reached_cons_iff rest).mpr outside)
        rw [List.foldl_cons, later.beyond id (mt (reached id).mp missed.2)]
        exact first.beyond id (mt stands.reached_iff.mpr missed.1)

end Stands

end Store

namespace World

open Store

structure Handover where
  head : ElementId
  ids : List ElementId
  store : Store

/-- The course of a host that hands every chain over once, with the chains that were
accepted. What it hands over stands by itself, and afterwards it lets the elements
of the chain alone. -/
inductive Custody (settings : Settings) : List Moment → List Handover → Prop
  | start (store : Store) : Custody settings [{ store }] []
  | step {now : Moment} {past : List Moment} {deeds : List Handover} (step : CacheStep)
      (custody : Custody settings (now :: past) deeds) (quiet : step.offered = none) :
      Custody settings (step.next settings now :: now :: past) deeds
  | refuse {now : Moment} {past : List Moment} {deeds : List Handover} (name : Option String)
      (chain : Option ElementId) (readOnly : Bool) (custody : Custody settings (now :: past) deeds)
      (refused : (now.setVariable settings name chain readOnly).1 ≠ .ok) :
      Custody settings (CacheStep.next settings now (.set name chain readOnly) :: now :: past) deeds
  | take {now : Moment} {past : List Moment} {deeds : List Handover} (name : Option String)
      (head : ElementId) (readOnly : Bool) (ids : List ElementId)
      (custody : Custody settings (now :: past) deeds)
      (accepted : (now.setVariable settings name (some head) readOnly).1 = .ok)
      (stands : now.store.Stands head ids) (fresh : ∀ deed ∈ deeds, deed.head ≠ head) :
      Custody settings (CacheStep.next settings now (.set name (some head) readOnly) :: now :: past)
        (⟨head, ids, now.store⟩ :: deeds)
  | host {now : Moment} {past : List Moment} {deeds : List Handover} (store : Store)
      (custody : Custody settings (now :: past) deeds)
      (untouched : ∀ deed ∈ deeds, ∀ id ∈ deed.ids, store.get? id = now.store.get? id) :
      Custody settings ({ now with store } :: now :: past) deeds

section Custody

variable {settings : Settings} {now after : Moment} {past : List Moment} {deeds : List Handover}

theorem Custody.course (custody : Custody settings (now :: past) deeds) :
    Course settings (now :: past) := by
  generalize moments : now :: past = history at custody ⊢
  clear moments
  induction custody with
  | start store => exact .start store
  | step step _ _ ih => exact .step step ih
  | refuse name chain readOnly _ _ ih => exact .step (.set name chain readOnly) ih
  | take name head readOnly _ _ _ _ _ ih => exact .step (.set name (some head) readOnly) ih
  | host store _ _ ih => exact .host store ih

structure Kept (now : Moment) (past : List Moment) (deeds : List Handover) : Prop where
  known : ∀ chain, Held chain (now :: past) → ∃ deed ∈ deeds, deed.head = chain
  distinct : now.context.chains.Nodup
  pins : now.context.pins = now.openPins
  counted : ∀ chain, Counted chain now past
  handed : ∀ deed ∈ deeds, deed.store.Stands deed.head deed.ids
  whole : ∀ deed ∈ deeds, Held deed.head (now :: past) →
    ∀ id ∈ deed.ids, now.store.get? id = deed.store.get? id
  gone : ∀ deed ∈ deeds, ¬ Held deed.head (now :: past) → ∀ id ∈ deed.ids, now.store.Bare id

theorem Kept.standing (kept : Kept now past deeds) {chain : ElementId}
    (held : Held chain (now :: past)) : ∃ ids, now.store.Stands chain ids := by
  obtain ⟨deed, member, rfl⟩ := kept.known chain held
  exact ⟨deed.ids, (kept.handed deed member).kept (kept.whole deed member held)⟩

theorem spared_of_apart {heads : List ElementId} {store changed : Store} {head : ElementId}
    {ids : List ElementId} (clears : Cleared store changed (store.Reached heads))
    (standing : ∀ other ∈ heads, ∃ ids, store.Stands other ids)
    (stands : store.Stands head ids) (apart : head ∉ heads) :
    ∀ id ∈ ids, changed.get? id = store.get? id := by
  intro id inside
  apply clears.beyond
  rintro ⟨other, member, walk⟩
  obtain ⟨otherIds, others⟩ := standing other member
  have different : other ≠ head := fun same => apart (same ▸ member)
  exact stands.apart others different id inside (others.reached_iff.mp ⟨other, by simp, walk⟩)

-- The step changes the store by clearing chains that are held no more.
theorem Kept.cleared (kept : Kept now past deeds) {heads : List ElementId}
    (clears : Cleared now.store after.store (now.store.Reached heads))
    (lets : ∀ chain ∈ heads, Held chain (now :: past) ∧ ¬ Held chain (after :: now :: past))
    (holds : ∀ chain, Held chain (after :: now :: past) → (∃ deed ∈ deeds, deed.head = chain) →
      Held chain (now :: past))
    (loses : ∀ chain, Held chain (now :: past) → ¬ Held chain (after :: now :: past) →
      chain ∈ heads) :
    (∀ deed ∈ deeds, Held deed.head (after :: now :: past) →
      ∀ id ∈ deed.ids, after.store.get? id = deed.store.get? id) ∧
    (∀ deed ∈ deeds, ¬ Held deed.head (after :: now :: past) →
      ∀ id ∈ deed.ids, after.store.Bare id) := by
  have standing : ∀ chain ∈ heads, ∃ ids, now.store.Stands chain ids := fun chain member =>
    kept.standing (lets chain member).1
  constructor
  · intro deed member held id inside
    have before := holds deed.head held ⟨deed, member, rfl⟩
    have same := kept.whole deed member before
    have stands := (kept.handed deed member).kept same
    have apart : deed.head ∉ heads := fun lost => (lets deed.head lost).2 held
    exact (spared_of_apart clears standing stands apart id inside).trans (same id inside)
  · intro deed member lost id inside
    by_cases before : Held deed.head (now :: past)
    · have stands := (kept.handed deed member).kept (kept.whole deed member before)
      obtain ⟨_, _, walk⟩ := stands.reached_iff.mpr inside
      exact clears.bare ⟨deed.head, loses deed.head before lost,
        List.mem_singleton.mp ‹_› ▸ walk⟩
    · exact clears.bare_kept (kept.gone deed member before id inside)

theorem held_kept {chain : ElementId} (chains : after.context.chains = now.context.chains)
    (pinned : Lingers chain (now :: past) → some chain ∈ after.openPins) :
    Held chain (after :: now :: past) ↔ Held chain (now :: past) := by
  constructor
  · rintro (cached | ⟨_, held⟩)
    · exact Or.inl (chains ▸ cached)
    · exact held
  · intro held
    rcases held_iff.mp held with cached | lingers
    · exact Or.inl (chains ▸ cached)
    · exact Or.inr ⟨pinned lingers, held⟩

theorem Kept.unchanged (kept : Kept now past deeds)
    (held : ∀ chain, Held chain (after :: now :: past) ↔ Held chain (now :: past))
    (chains : after.context.chains = now.context.chains)
    (cells : ∀ deed ∈ deeds, ∀ id ∈ deed.ids, after.store.get? id = now.store.get? id)
    (pins : after.context.pins = after.openPins)
    (counted : ∀ chain, Counted chain after (now :: past)) : Kept after (now :: past) deeds where
  known := fun chain holds => kept.known chain ((held chain).mp holds)
  distinct := chains ▸ kept.distinct
  pins := pins
  counted := counted
  handed := kept.handed
  whole := fun deed member holds id inside =>
    (cells deed member id inside).trans (kept.whole deed member ((held _).mp holds) id inside)
  gone := fun deed member lost id inside =>
    (kept.gone deed member (mt (held _).mpr lost) id inside).kept (cells deed member id inside)

theorem Kept.enterPin (kept : Kept now past deeds) (name : Option String)
    (pin : Option ElementId) :
    Kept (CacheStep.next settings now (.enter name pin)) (now :: past) deeds :=
  kept.unchanged (fun _ => held_kept rfl fun lingers => List.mem_cons_of_mem pin lingers.2.1) rfl
    (fun _ _ _ _ => rfl) (congrArg (pin :: ·) kept.pins)
    fun chain => enterPin_counted (kept.counted chain) name pin

theorem Kept.pins_leavePin (kept : Kept now past deeds) (name : Option String)
    (pin : Option ElementId) :
    (now.leavePin name pin).context.pins = now.openPins.erase pin :=
  (World.pins_leavePin now.toWorld name pin).trans (congrArg (List.erase · pin) kept.pins)

/-- A pin matters for its own chain alone. -/
theorem held_leavePin (name : Option String) {pin : Option ElementId} {chain : ElementId}
    (different : pin ≠ some chain) :
    Held chain (CacheStep.next settings now (.leave name pin) :: now :: past) ↔
      Held chain (now :: past) :=
  held_kept (chains_leavePin now.toWorld name pin) fun lingers =>
    (List.mem_erase_of_ne (Ne.symm different)).mpr lingers.2.1

/-- With its last pin a lingering chain is destroyed, and no other one is. -/
theorem Kept.leaveLast (kept : Kept now past deeds) (name : Option String) {chain : ElementId}
    (lingers : Lingers chain (now :: past)) (retired : chain ∈ now.context.retired)
    (last : some chain ∉ now.openPins.erase (some chain)) :
    Kept (CacheStep.next settings now (.leave name (some chain))) (now :: past) deeds := by
  have chains := chains_leavePin now.toWorld name (some chain)
  have pins := kept.pins_leavePin name (some chain)
  have unpinned : (now.leavePin name (some chain)).context.isPinned chain = false := by
    rw [Context.isPinned, pins]
    simpa using last
  let left := CacheStep.next settings now (.leave name (some chain))
  have lost : ¬ Held chain (left :: now :: past) := by
    rintro (cached | ⟨pinned, _⟩)
    · exact lingers.1 (chains ▸ cached)
    · exact last pinned
  have same : ∀ other, other ≠ chain →
      (Held other (left :: now :: past) ↔ Held other (now :: past)) :=
    fun other different => held_leavePin name fun isPin => different (Option.some.inj isPin).symm
  have holds : ∀ other, Held other (left :: now :: past) → Held other (now :: past) := by
    intro other held
    by_cases isChain : other = chain
    · exact absurd (isChain ▸ held) lost
    · exact (same other isChain).mp held
  have clears : Cleared now.store left.store (now.store.Reached [chain]) := by
    rw [show left.store = _ from (leavePin_last name unpinned retired).2]
    exact destroyEach_cleared [chain] (by simpa using kept.standing lingers.held) (by simp)
  obtain ⟨whole, gone⟩ := kept.cleared clears (by simpa using ⟨lingers.held, lost⟩)
    (fun other held _ => holds other held)
    (fun other held gone => by
      by_contra different
      exact gone ((same other (by simpa using different)).mpr held))
  exact ⟨fun other held => kept.known other (holds other held), chains ▸ kept.distinct, pins,
    fun other => leavePin_counted kept.pins (kept.counted other) name (some chain), kept.handed,
    whole, gone⟩

theorem Kept.leavePin (kept : Kept now past deeds) (name : Option String)
    (pin : Option ElementId) :
    Kept (CacheStep.next settings now (.leave name pin)) (now :: past) deeds := by
  by_cases ends : ∃ chain, pin = some chain ∧ chain ∈ now.context.retired ∧
      some chain ∉ now.openPins.erase pin
  · obtain ⟨chain, rfl, retired, last⟩ := ends
    have lingers : Lingers chain (now :: past) := by
      by_contra gone
      exact (List.count_pos_iff.mpr retired).ne' ((kept.counted chain).done gone)
    exact kept.leaveLast name lingers retired last
  · have chains := chains_leavePin now.toWorld name pin
    have pins := kept.pins_leavePin name pin
    have remains : ∀ chain, pin = some chain → chain ∈ now.context.retired →
        some chain ∈ now.openPins.erase pin := by
      intro chain isPin retired
      by_contra last
      exact ends ⟨chain, isPin, retired, last⟩
    have store : (now.leavePin name pin).store = now.store := by
      cases pin with
      | none => rfl
      | some chain =>
          by_cases retired : chain ∈ now.context.retired
          · have pinned : (now.leavePin name (some chain)).context.isPinned chain = true := by
              rw [Context.isPinned, pins]
              simpa using remains chain rfl retired
            rw [leavePin_pinned name pinned]
            rfl
          · rw [leavePin_unretired name retired]
            rfl
    refine kept.unchanged (fun chain => ?_) chains (fun _ _ _ _ => congrArg (Store.get? · _) store)
      pins fun chain => leavePin_counted kept.pins (kept.counted chain) name pin
    by_cases different : pin ≠ some chain
    · exact held_leavePin name different
    · have isPin := not_not.mp different
      refine held_kept chains fun lingers => remains chain isPin ?_
      exact List.count_pos_iff.mp (((kept.counted chain).lingering lingers).symm ▸ Nat.one_pos)

/-- An exchange destroys exactly the chains that are held no more. -/
theorem Exchange.destroys {lost taken : List ElementId}
    (exchange : Exchange now.toWorld after.toWorld lost taken)
    (pins : now.context.pins = now.openPins) (stay : after.openPins = now.openPins)
    (distinct : now.context.chains.Nodup)
    (new : ∀ chain ∈ taken, ¬ Held chain (now :: past)) (chain : ElementId) :
    chain ∈ lost.filter (fun chain => !now.context.isPinned chain) ↔
      Held chain (now :: past) ∧ ¬ Held chain (after :: now :: past) := by
  simp only [List.mem_filter, Bool.not_eq_true']
  constructor
  · rintro ⟨isLost, unpinned⟩
    have old := exchange.cached_of_lost isLost
    refine ⟨Or.inl old, ?_⟩
    rintro (still | ⟨pinned, _⟩)
    · rcases (exchange.cached_iff distinct chain).mp still with isNew | stays
      · exact new chain isNew (Or.inl old)
      · exact stays.2 isLost
    · rw [(isPinned_iff pins).mpr (stay ▸ pinned)] at unpinned
      cases unpinned
  · rintro ⟨held, gone⟩
    have unpinned : some chain ∉ now.openPins := fun pinned =>
      gone (Or.inr ⟨stay.symm ▸ pinned, held⟩)
    have old : chain ∈ now.context.chains :=
      held.resolve_right fun pinned => unpinned pinned.1
    refine ⟨?_, by simpa using mt (isPinned_iff pins).mp unpinned⟩
    by_contra stays
    exact gone (Or.inl ((exchange.cached_iff distinct chain).mpr (Or.inr ⟨old, stays⟩)))

theorem Exchange.holds {lost taken : List ElementId}
    (exchange : Exchange now.toWorld after.toWorld lost taken)
    (distinct : now.context.chains.Nodup) {chain : ElementId}
    (held : Held chain (after :: now :: past)) : chain ∈ taken ∨ Held chain (now :: past) := by
  rcases held with cached | ⟨_, before⟩
  · exact ((exchange.cached_iff distinct chain).mp cached).imp_right fun stays => Or.inl stays.1
  · exact Or.inr before

theorem Kept.clears {lost taken : List ElementId} (kept : Kept now past deeds)
    (exchange : Exchange now.toWorld after.toWorld lost taken)
    (stay : after.openPins = now.openPins)
    (new : ∀ chain ∈ taken, ¬ Held chain (now :: past)) :
    (∀ chain ∈ lost.filter fun chain => !now.context.isPinned chain,
      ∃ ids, now.store.Stands chain ids) ∧
    Cleared now.store after.store
      (now.store.Reached (lost.filter fun chain => !now.context.isPinned chain)) := by
  have standing : ∀ chain ∈ lost.filter fun chain => !now.context.isPinned chain,
      ∃ ids, now.store.Stands chain ids := fun chain member =>
    kept.standing ((exchange.destroys kept.pins stay kept.distinct new chain).mp member).1
  refine ⟨standing, ?_⟩
  rw [exchange.store]
  exact destroyEach_cleared _ standing ((exchange.lost_nodup kept.distinct).filter _)

/-- An exchange takes at most one new chain in, which stands by itself. -/
theorem Kept.exchange {lost : List ElementId} (kept : Kept now past deeds)
    (fresh : Option Handover)
    (exchange : Exchange now.toWorld after.toWorld lost (fresh.map Handover.head).toList)
    (stay : after.openPins = now.openPins)
    (new : ∀ deed ∈ fresh, deed.store = now.store ∧ now.store.Stands deed.head deed.ids ∧
      ∀ old ∈ deeds, old.head ≠ deed.head) :
    Kept after (now :: past) (fresh.toList ++ deeds) := by
  have unknown : ∀ deed ∈ fresh, ¬ Held deed.head (now :: past) := by
    intro deed isFresh held
    obtain ⟨old, member, same⟩ := kept.known deed.head held
    exact (new deed isFresh).2.2 old member same
  have unheld : ∀ chain ∈ (fresh.map Handover.head).toList, ¬ Held chain (now :: past) := by
    intro chain isNew
    obtain ⟨deed, isFresh, rfl⟩ := by simpa using isNew
    exact unknown deed isFresh
  have cached := exchange.cached_iff kept.distinct
  have destroys := exchange.destroys kept.pins stay kept.distinct unheld
  obtain ⟨standing, clears⟩ := kept.clears exchange stay unheld
  obtain ⟨whole, gone⟩ := kept.cleared clears (fun chain => (destroys chain).mp)
    (fun chain held old => (exchange.holds kept.distinct held).resolve_left fun isNew => by
      obtain ⟨deed, isFresh, isHead⟩ := by simpa using isNew
      obtain ⟨other, member, same⟩ := old
      exact (new deed isFresh).2.2 other member (same.trans isHead.symm))
    (fun chain held lost => (destroys chain).mpr ⟨held, lost⟩)
  constructor
  case known =>
    intro chain held
    rcases exchange.holds kept.distinct held with isNew | old
    · obtain ⟨deed, isFresh, isHead⟩ := by simpa using isNew
      exact ⟨deed, List.mem_append_left _ (by simpa using isFresh), isHead⟩
    · obtain ⟨deed, member, isHead⟩ := kept.known chain old
      exact ⟨deed, List.mem_append_right _ member, isHead⟩
  case distinct =>
    exact exchange.chains_nodup kept.distinct (Option.toList_nodup _) fun chain isNew old =>
      unheld chain isNew (Or.inl old)
  case pins => exact exchange.pins.trans (kept.pins.trans stay.symm)
  case counted =>
    intro chain
    apply exchange.counted kept.distinct kept.pins stay (kept.counted chain)
    rintro ⟨lingers, inCache⟩
    -- A lingering chain was handed over before, so it is not the one that comes in.
    rcases (cached chain).mp inCache with isNew | stays
    · exact unheld chain isNew lingers.held
    · exact lingers.1 stays.1
  case handed =>
    intro deed member
    rcases List.mem_append.mp member with isFresh | old
    · obtain ⟨store, stands, _⟩ := new deed (by simpa using isFresh)
      exact store ▸ stands
    · exact kept.handed deed old
  case whole =>
    intro deed member held id inside
    rcases List.mem_append.mp member with isFresh | old
    · -- What is handed over now is none of the chains that are destroyed.
      have isFresh : deed ∈ fresh := by simpa using isFresh
      obtain ⟨store, stands, _⟩ := new deed isFresh
      rw [store]
      refine spared_of_apart clears standing stands ?_ id inside
      exact fun lost => unknown deed isFresh ((destroys deed.head).mp lost).1
    · exact whole deed old held id inside
  case gone =>
    intro deed member lost id inside
    rcases List.mem_append.mp member with isFresh | old
    · have isNew : deed.head ∈ (fresh.map Handover.head).toList := by
        simpa using ⟨deed, by simpa using isFresh, rfl⟩
      exact absurd (Or.inl ((cached deed.head).mpr (Or.inl isNew))) lost
    · exact gone deed old lost id inside

theorem Custody.kept (custody : Custody settings (now :: past) deeds) : Kept now past deeds := by
  generalize moments : now :: past = history at custody
  induction custody generalizing now past with
  | start store =>
      cases moments
      refine ⟨?_, List.nodup_nil, rfl, ?_, by simp, by simp, by simp⟩
      · rintro chain (cached | ⟨_, held⟩)
        · cases cached
        · cases held
      · exact fun chain => ⟨fun lingers => lingers.2.2.elim, fun _ => rfl⟩
  | @step before _ _ step custody quiet ih =>
      cases moments
      rcases step.cases settings custody.course.keys_nodup with
        ⟨name, pin, rfl⟩ | ⟨name, pin, rfl⟩ | ⟨idle, lost, taken, few, exchange⟩
      · exact (ih rfl).enterPin name pin
      · exact (ih rfl).leavePin name pin
      · have none : taken = [] := by simpa [quiet] using few
        subst none
        have exchanges : Exchange before.toWorld (step.next settings before).toWorld lost [] :=
          exchange
        exact (ih rfl).exchange none exchanges (idle _) (by simp)
  | refuse name chain readOnly custody refused ih =>
      cases moments
      have kept := ih rfl
      rcases setVariable_cases settings name chain readOnly with stored | ⟨_, notices, noted⟩
      · exact absurd stored.1 refused
      · rw [CacheStep.next, CacheStep.apply, noted]
        exact kept.unchanged (fun chain => held_kept rfl fun lingers => lingers.2.1) rfl
          (fun _ _ _ _ => rfl) kept.pins
          fun chain => (kept.counted chain).repinned rfl (fun lingers => lingers.2.1) rfl
  | @take before _ deeds name head readOnly ids custody accepted stands fresh ih =>
      cases moments
      have kept := ih rfl
      obtain ⟨lost, taken, few, exchange⟩ :=
        setVariable_exchange settings before.toWorld name (some head) readOnly
      have unheld : head ∉ before.context.chains := by
        intro cached
        obtain ⟨old, member, same⟩ := kept.known head (Or.inl cached)
        exact fresh old member same
      have isNew : taken = [head] := by
        refine few.resolve_left fun none => ?_
        have inCache := setVariable_caches settings name readOnly accepted
        rw [exchange.cached_iff kept.distinct head, none] at inCache
        simp [unheld] at inCache
      subst isNew
      have exchanges : Exchange before.toWorld
          (CacheStep.next settings before (.set name (some head) readOnly)).toWorld lost [head] :=
        exchange
      exact kept.exchange (some ⟨head, ids, before.store⟩) exchanges rfl
        (by simpa using ⟨stands, fresh⟩)
  | host store custody untouched ih =>
      cases moments
      have kept := ih rfl
      exact kept.unchanged (fun chain => held_kept rfl fun lingers => lingers.2.1) rfl untouched
        kept.pins fun chain => (kept.counted chain).repinned rfl (fun lingers => lingers.2.1) rfl

/-- Whatever the order of the steps: a chain that was taken over stands as it was
handed over while it is cached, and after that as long as it is pinned without a
break; else it was released with all its cells. The retired chains are those that
linger, each once, and there is none without an open pin. -/
theorem custody_kept (custody : Custody settings (now :: past) deeds) :
    (∀ deed ∈ deeds, Held deed.head (now :: past) →
      ∀ id ∈ deed.ids, now.store.get? id = deed.store.get? id) ∧
    (∀ deed ∈ deeds, ¬ Held deed.head (now :: past) → ∀ id ∈ deed.ids, now.store.Bare id) ∧
    (∀ chain, now.context.retired.count chain = if Lingers chain (now :: past) then 1 else 0) ∧
    (∀ chain, Held chain (now :: past) → ∃ deed ∈ deeds, deed.head = chain) ∧
    (now.openPins = [] → now.context.retired = []) := by
  have kept := custody.kept
  have retired : ∀ chain, now.context.retired.count chain =
      if Lingers chain (now :: past) then 1 else 0 := by
    intro chain
    split
    · exact (kept.counted chain).lingering ‹_›
    · exact (kept.counted chain).done ‹_›
  refine ⟨kept.whole, kept.gone, retired, kept.known, fun unpinned => ?_⟩
  apply List.eq_nil_iff_forall_not_mem.mpr
  intro chain member
  have lingers : Lingers chain (now :: past) := by
    by_contra gone
    have none := retired chain
    rw [if_neg gone] at none
    exact List.count_eq_zero.mp none member
  have pinned := lingers.2.1
  simp [unpinned] at pinned

end Custody

def trio : Store := ⟨#[{ kind := .text, text := some "a", next := some 1 },
  { kind := .text, text := some "b", prev := some 0 }, { kind := .text, text := some "c" }]⟩

/-- A value with two pins is replaced and outlives that and the first of its pins, but
not the second. -/
theorem custody_kept_replaced :
    let stored := CacheStep.next {} { store := trio } (.set (some "v") (some 0) false)
    let pinned := CacheStep.next {} stored (.enter (some "v") (some 0))
    let twice := CacheStep.next {} pinned (.enter (some "w") (some 0))
    let replaced := CacheStep.next {} twice (.set (some "v") (some 2) false)
    let once := CacheStep.next {} replaced (.leave (some "v") (some 0))
    let left := CacheStep.next {} once (.leave (some "w") (some 0))
    let deeds : List Handover := [⟨2, [2], trio⟩, ⟨0, [0, 1], trio⟩]
    Custody {} [left, once, replaced, twice, pinned, stored, { store := trio }] deeds ∧
      replaced.context.chainOf (some "v") = some 2 ∧ once.store.next 0 = some 1 ∧
      once.context.retired.count 0 = 1 ∧ left.store.Bare 0 ∧ left.store.Bare 1 ∧
      left.context.retired = [] := by
  intro stored pinned twice replaced once left deeds
  have couple : trio.Stands 0 [0, 1] :=
    ⟨_, .cons none none (some 1) none 0 _ _ _ [] [1] (by rfl) (.nil _ _)
      (.cons none (some 0) none none 1 _ _ _ [] [] (by rfl) (.nil _ _) (.nil _ _))⟩
  have single : trio.Stands 2 [2] :=
    ⟨_, .cons none none none none 2 _ _ _ [] [] (by rfl) (.nil _ _) (.nil _ _)⟩
  have taken : Custody {} [stored, { store := trio }] [⟨0, [0, 1], trio⟩] :=
    .take (some "v") 0 false [0, 1] (.start trio) (by rfl) couple (by simp)
  have replaces : Custody {} [replaced, twice, pinned, stored, { store := trio }] deeds :=
    .take (some "v") 2 false [2]
      (.step (.enter (some "w") (some 0)) (.step (.enter (some "v") (some 0)) taken rfl) rfl)
      (by rfl) single (by simp)
  have lingers : Custody {} [once, replaced, twice, pinned, stored, { store := trio }] deeds :=
    .step (.leave (some "v") (some 0)) replaces rfl
  have course : Custody {} [left, once, replaced, twice, pinned, stored, { store := trio }] deeds :=
    .step (.leave (some "w") (some 0)) lingers rfl
  obtain ⟨whole, _, retired, _⟩ := custody_kept lingers
  obtain ⟨_, gone, _, _, idle⟩ := custody_kept course
  have next : once.store.next 0 = some 1 :=
    (links_of_get? (whole ⟨0, [0, 1], trio⟩ (by simp [deeds]) (by decide) 0 (by simp))).1
  have bare := gone ⟨0, [0, 1], trio⟩ (by simp [deeds]) (by decide)
  exact ⟨course, by rfl, next, (retired 0).trans (if_pos (by decide)), bare 0 (by simp),
    bare 1 (by simp), idle (by rfl)⟩

end World

end Stencil
