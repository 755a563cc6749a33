import Stencil.Proofs.ShedValues
import Stencil.Proofs.TameScripts

/-!
What an evaluation never touches. Between the elements of an enclosed region and all
others there is no link. An evaluation by scripts that only write adds elements and
destroys chains that the context knows. So where no such chain begins in the region,
the region stays as it is, and no chain that comes to be known begins in it.
-/

namespace Stencil

namespace Store

open Relation

section Beyond

variable {store : Store} {region : ElementId → Prop}

theorem Enclosed.beyond (enclosed : store.Enclosed region) (linked : store.Linked) :
    store.Enclosed fun id => ¬ region id where
  next := by
    intro id outside after next inside
    exact outside (enclosed.prev after inside id ((linked.next_prev id after).mp next))
  prev := by
    intro id outside before prev inside
    exact outside (enclosed.next before inside id ((linked.next_prev before id).mpr prev))
  child := by
    intro id outside below child inside
    exact outside (enclosed.parent below inside id ((linked.first id below).mp child).1)
  parent := by
    intro id outside owner parent inside
    obtain ⟨first, child, onward⟩ := linked.exists_child parent
    have walk : ReflTransGen store.Leads first id :=
      ReflTransGen.mono (fun _ _ => Or.inl) _ _ onward
    exact outside (enclosed.reached (enclosed.child owner inside first child)
      ⟨first, List.mem_singleton_self first, walk⟩)

theorem Enclosed.destroyAll (enclosed : store.Enclosed region) (linked : store.Linked)
    {chain : ElementId} (apart : ¬ region chain) {id : ElementId} (inside : region id) :
    (store.destroyAll (some chain)).get? id = store.get? id := by
  have confined : Confined store (store.destroyAll (some chain)) fun id => ¬ region id :=
    destroyAll_confined (enclosed.beyond linked) (into_some apart)
  exact confined.beyond id fun outside => outside inside

end Beyond

end Store

namespace World

open Store

/-- The region is enclosed, and no chain that the context knows begins in it. -/
structure Aloof (region : ElementId → Prop) (world : World) : Prop where
  linked : world.store.Linked
  enclosed : world.store.Enclosed region
  inside : ∀ id, region id → id < world.store.size
  apart : ∀ chain, world.context.Knows chain → ¬ region chain
  commands : Tame world.context.commands

structure Untouched (region : ElementId → Prop) (world after : World) : Prop where
  orderly : Orderly world after
  aloof : Aloof region world → Aloof region after
  cells : Aloof region world → ∀ id, region id → after.store.get? id = world.store.get? id

section Untouched

variable {region : ElementId → Prop} {settings : Settings} {world between after : World}
variable {name : Option String} {chain : ElementId}

theorem Untouched.refl (world : World) : Untouched region world world :=
  ⟨.refl world, id, fun _ _ _ => rfl⟩

theorem Untouched.trans (first : Untouched region world between)
    (second : Untouched region between after) : Untouched region world after where
  orderly := first.orderly.trans second.orderly
  aloof := second.aloof ∘ first.aloof
  cells := fun aloof id inside =>
    (second.cells (first.aloof aloof) id inside).trans (first.cells aloof id inside)

theorem Aloof.of_context (aloof : Aloof region world) (store : after.store = world.store)
    (knows : ∀ chain, after.context.Knows chain → world.context.Knows chain)
    (commands : after.context.commands = world.context.commands) : Aloof region after where
  linked := store ▸ aloof.linked
  enclosed := store ▸ aloof.enclosed
  inside := store ▸ aloof.inside
  apart := fun chain known => aloof.apart chain (knows chain known)
  commands := commands ▸ aloof.commands

theorem note_untouched (settings : Settings) (world : World) (notices : List Notice) :
    Untouched region world (note settings notices world) where
  orderly := ⟨rfl, rfl, rfl, .refl _⟩
  aloof := fun aloof => aloof.of_context rfl (fun _ => id) rfl
  cells := fun _ _ _ => rfl

theorem Sheds.cells {offered : Option ElementId} (sheds : Sheds world after name offered)
    (aloof : Aloof region world) {id : ElementId} (inside : region id) :
    after.store.get? id = world.store.get? id := by
  rcases sheds.store with same | ⟨chain, known, _, same⟩
  · rw [same]
  · rw [same]
    exact aloof.enclosed.destroyAll aloof.linked (aloof.apart chain known) inside

theorem Sheds.aloof {offered : Option ElementId} (sheds : Sheds world after name offered)
    (aloof : Aloof region world) (apart : ∀ chain, offered = some chain → ¬ region chain) :
    Aloof region after where
  linked := sheds.linked aloof.linked
  enclosed := aloof.enclosed.kept fun _ inside => sheds.cells aloof inside
  inside := fun id inside => (sheds.trims aloof.linked).inside (aloof.inside id inside)
  apart := fun chain known => (sheds.knows chain known).elim (aloof.apart chain) (apart chain)
  commands := sheds.commands ▸ aloof.commands

theorem Aloof.grown (aloof : Aloof region world) (context : after.context = world.context)
    {start : Option ElementId} {forest : Forest} {ids : List ElementId}
    (grows : Grown world.store after.store start forest ids) : Aloof region after where
  linked := grown_linked grows aloof.linked
  enclosed := aloof.enclosed.kept fun id inside => grows.kept id (aloof.inside id inside)
  inside := fun id inside => grows.trims.inside (aloof.inside id inside)
  apart := fun chain known => aloof.apart chain (context ▸ known)
  commands := context ▸ aloof.commands

theorem cacheCopy_untouched {start : Option ElementId}
    (copied : world.cacheCopy settings name start = some after) :
    Untouched region world after := by
  obtain ⟨forest, store, head, ids, _, grows, planted, cached, sheds⟩ := cacheCopy_cases copied
  have copies : Untouched region world { world with store } :=
    ⟨planted, fun aloof => aloof.grown rfl grows,
      fun aloof id inside => grows.kept id (aloof.inside id inside)⟩
  refine ⟨planted.trans cached, fun aloof => ?_, fun aloof id inside => ?_⟩
  · refine sheds.aloof (copies.aloof aloof) ?_
    rintro chain rfl inside
    have fresh := grows.fresh chain grows.planted.start_links.1
    exact Nat.not_lt_of_le fresh (aloof.inside chain inside)
  · exact (sheds.cells (copies.aloof aloof) inside).trans (copies.cells aloof id inside)

theorem leavePin_untouched (unmarked : world.context.isExpanding name = false)
    (inner : Untouched region (world.enterPin name (some chain)) after) :
    Untouched region world (after.leavePin name (some chain)) := by
  have sheds := leavePin_sheds after name chain
  have entered : Aloof region world → Aloof region (world.enterPin name (some chain)) :=
    fun aloof => aloof.of_context rfl (fun _ => id) rfl
  have left : Aloof region world → Aloof region (after.withContext (·.leave name (some chain))) :=
    fun aloof => (inner.aloof (entered aloof)).of_context rfl (fun _ => id) rfl
  refine ⟨leavePin_orderly unmarked inner.orderly, fun aloof => ?_, fun aloof id inside => ?_⟩
  · exact sheds.aloof (left aloof) nofun
  · exact (sheds.cells (left aloof) inside).trans (inner.cells (entered aloof) id inside)

/-- Every operation of an evaluation by scripts that write leaves the region alone. -/
theorem untouched_upheld (region : ElementId → Prop) (settings : Settings) :
    Upheld settings (Aloof region) (Untouched region)
      fun _ element actions => (∃ id, element = some id) ∧ ∀ action ∈ actions, action.Writes where
  refl := .refl
  trans _ _ _ := .trans
  kept _ _ untouched := untouched.aloof
  note := note_untouched settings
  deeper _ aloof _ := aloof.of_context rfl (fun _ => id) rfl
  shallower world after inner := by
    have orderly := shallower_orderly inner.orderly
    have deeper : Aloof region world → Aloof region world.deeper :=
      fun aloof => aloof.of_context rfl (fun _ => id) rfl
    refine ⟨orderly, fun aloof => ?_, fun aloof id inside => ?_⟩
    · exact (inner.aloof (deeper aloof)).of_context rfl (fun _ => id) rfl
    · exact inner.cells (deeper aloof) id inside
  enters _ _ _ aloof _ := aloof.of_context rfl (fun _ => id) rfl
  leaves _ _ _ _ _ _ unmarked inner := leavePin_untouched unmarked inner
  assigns _ _ _ _ _ copied := cacheCopy_untouched copied
  calls world id actions aloof _ isHandler := ⟨⟨id, rfl⟩, aloof.commands _ _ isHandler⟩
  performs world element action rest _ writes := by
    obtain ⟨⟨id, rfl⟩, writes⟩ := writes
    obtain ⟨notices, same, _⟩ := perform_writes settings world id (writes _ List.mem_cons_self)
    rw [same]
    exact note_untouched settings world notices
  runs_on _ _ _ action _ _ writes :=
    ⟨writes.1, fun other member => writes.2 other (List.mem_cons_of_mem action member)⟩

theorem Aloof.renders (aloof : Aloof region world) {fuel : Nat} {start : Option ElementId}
    {toEnd : Bool} {rendered : Rendered}
    (ran : render settings fuel world start toEnd = some rendered) : Aloof region rendered.2 := by
  have untouched := (untouched_upheld region settings).keeps_through fuel world
    (.render start toEnd) rendered.2 aloof trivial (by simp [Stage.after, ran])
  exact untouched.aloof aloof

theorem aloof_nowhere (linked : world.store.Linked) (tame : Tame world.context.commands) :
    Aloof (fun _ => False) world :=
  ⟨linked, enclosed_none _, fun _ => False.elim, fun _ _ => False.elim, tame⟩

end Untouched

end World

end Stencil
