import Stencil.Proofs.ShedValues
import Stencil.Proofs.TameScripts
import Stencil.Proofs.TrimmedChains

/-!
How deep an evaluation nests. The copies that are cached in the meantime are no higher
than what they are copied from, and destruction lowers what it leaves. A name that
is expanded is marked until the end, so at most once for each name a chain is rendered
below another one that is not nested in it. The commands only write and render their
content. So the depth stays below a bound that the names and the heights at the
beginning set, whatever the limit of depth is. The depth counts the renderings that are
under way, so these nest no deeper; only a rendering of nothing, which does not look at
the depth, may be nested in the innermost of them.
-/

namespace Stencil.World

open Store

section Shallow

variable {names : Finset (Option String)} {height bound : Nat} {settings : Settings}
variable {world between after : World} {name : Option String} {id : ElementId}

/-- The values of known names refer to known names and are no higher than this, and the
commands only write. -/
structure Shallow (names : Finset (Option String)) (height : Nat) (world : World) : Prop where
  linked : world.store.Linked
  cached : ∀ name chain, world.context.chainOf name = some chain →
    name ∈ names ∧ world.store.Nests (· ∈ names) height (some chain)
  commands : Tame world.context.commands

structure Bounded (names : Finset (Option String)) (height : Nat) (world after : World) : Prop where
  orderly : Orderly world after
  shallow : Shallow names height world → Shallow names height after
  trims : Shallow names height world → Trims world.store after.store

theorem Bounded.refl (world : World) : Bounded names height world world :=
  ⟨.refl world, id, fun _ => .refl _⟩

theorem Bounded.trans (first : Bounded names height world between)
    (second : Bounded names height between after) : Bounded names height world after where
  orderly := first.orderly.trans second.orderly
  shallow := second.shallow ∘ first.shallow
  trims := fun shallow =>
    (first.trims shallow).trans shallow.linked (second.trims (first.shallow shallow))

/-- What is cached is as it was, trimmed, or a value that is offered and no higher. -/
theorem Shallow.sheds (shallow : Shallow names height world) {offered : Option ElementId}
    (sheds : Sheds world after name offered)
    (nests : ∀ chain, offered = some chain →
      name ∈ names ∧ world.store.Nests (· ∈ names) height offered) :
    Shallow names height after := by
  refine ⟨sheds.linked shallow.linked, fun other chain isChain => ?_,
    sheds.commands ▸ shallow.commands⟩
  have found : other ∈ names ∧ world.store.Nests (· ∈ names) height (some chain) := by
    rcases sheds.cached other chain isChain with old | ⟨rfl, rfl⟩
    · exact shallow.cached other chain old
    · exact nests chain rfl
  exact ⟨found.1, found.2.trims (sheds.trims shallow.linked)⟩

theorem Bounded.of_sheds (orderly : Orderly world after) {offered : Option ElementId}
    (sheds : Sheds world after name offered)
    (nests : ∀ chain, offered = some chain →
      name ∈ names ∧ world.store.Nests (· ∈ names) height offered) :
    Bounded names height world after :=
  ⟨orderly, fun shallow => shallow.sheds sheds nests, fun shallow => sheds.trims shallow.linked⟩

theorem note_bounded (settings : Settings) (notices : List Notice) (world : World) :
    Bounded names height world (note settings notices world) := by
  have sheds : Sheds world (note settings notices world) none none := .of_context rfl rfl
  exact .of_sheds ⟨rfl, rfl, rfl, .refl _⟩ sheds nofun

theorem cacheCopy_bounded (linked : world.store.Linked) (known : name ∈ names)
    {start : Option ElementId} (nests : world.store.Nests (· ∈ names) height start)
    (copied : world.cacheCopy settings name start = some after) :
    Bounded names height world after := by
  obtain ⟨forest, store, head, ids, read, grows, planted, cached, sheds⟩ := cacheCopy_cases copied
  have copies : Bounded names height world { world with store } := by
    refine ⟨planted, fun shallow => ?_, fun _ => grows.trims⟩
    refine ⟨grown_linked grows shallow.linked, fun other chain isChain => ?_, shallow.commands⟩
    obtain ⟨known, nests⟩ := shallow.cached other chain isChain
    exact ⟨known, nests.trims grows.trims⟩
  obtain ⟨_, same, low, named⟩ := linked.forest_of_nests nests
  obtain rfl := Option.some.inj (read.symm.trans same)
  have copyNests : store.Nests (· ∈ names) height head :=
    nests_of_forestFor _ grows.planted.forest? low named
  exact copies.trans (.of_sheds cached sheds fun _ _ => ⟨known, copyNests⟩)

theorem leavePin_bounded {chain : ElementId} (unmarked : world.context.isExpanding name = false)
    (inner : Bounded names height (world.enterPin name (some chain)) after) :
    Bounded names height world (after.leavePin name (some chain)) := by
  have sheds := leavePin_sheds after name chain
  have within : Shallow names height world →
      Shallow names height (after.withContext (·.leave name (some chain))) ∧
        Trims world.store after.store := by
    intro shallow
    have entered : Shallow names height (world.enterPin name (some chain)) :=
      ⟨shallow.linked, shallow.cached, shallow.commands⟩
    have left := inner.shallow entered
    exact ⟨⟨left.linked, left.cached, left.commands⟩, inner.trims entered⟩
  exact ⟨leavePin_orderly unmarked inner.orderly,
    fun shallow => (within shallow).1.sheds sheds nofun,
    fun shallow => (within shallow).2.trans shallow.linked (sheds.trims (within shallow).1.linked)⟩

end Shallow

section Room

variable (names : Finset (Option String)) (height bound : Nat)

def free (world : World) : Nat :=
  (names.filter fun name => world.context.isExpanding name = false).card

/-- There is room to render a chain. It takes as many levels as are nested in it, and for
each name that may still be expanded as many as there are in a value. -/
def Room (world : World) (start : Option ElementId) : Prop :=
  ∃ levels ≤ height, world.store.Nests (· ∈ names) levels start ∧
    world.context.depth + levels + free names world * height ≤ bound

def RoomWithin (world : World) (id : ElementId) : Prop :=
  ∃ levels < height, world.store.Nests (· ∈ names) (levels + 1) (some id) ∧
    world.context.depth + levels + free names world * height ≤ bound

def Task.Fits (world : World) : Task → Prop
  | .render start _ => Room names height bound world start
  | .follow id _ => RoomWithin names height bound world id
  | .one id => RoomWithin names height bound world id
  | .assign name variableId =>
      name ∈ names ∧ world.store.Nests (· ∈ names) height (world.store.child variableId)
  | .value _ => world.context.depth + free names world * height ≤ bound
  | .call handler element =>
      handler.Writes ∧ ∃ id, element = some id ∧ RoomWithin names height bound world id
  | .run element actions _ =>
      (∀ action ∈ actions, action.Writes) ∧
        ∃ id, element = some id ∧ RoomWithin names height bound world id

variable {names height bound} {settings : Settings} {world after : World} {start : Option ElementId}
variable {id next : ElementId} {name : Option String}

theorem Orderly.free (orderly : Orderly world after) : free names after = free names world := by
  unfold World.free Context.isExpanding
  rw [orderly.expanding]

theorem free_enterPin (known : name ∈ names) (unmarked : world.context.isExpanding name = false)
    (chain : Option ElementId) :
    free names (world.enterPin name chain) + 1 = free names world := by
  have marks : (names.filter fun other =>
      (world.enterPin name chain).context.isExpanding other = false) =
      (names.filter fun other => world.context.isExpanding other = false).erase name := by
    ext other
    have expanding : (world.enterPin name chain).context.expanding =
        name :: world.context.expanding := by
      change (if world.context.isExpanding name then _ else _) = _
      simp [unmarked]
    by_cases same : other = name <;>
      simp [Context.isExpanding, expanding, same]
  rw [free, marks]
  exact Finset.card_erase_add_one (Finset.mem_filter.mpr ⟨known, unmarked⟩)

theorem RoomWithin.child (room : RoomWithin names height bound world id) :
    Room names height bound world (world.store.child id) := by
  obtain ⟨levels, low, nests, left⟩ := room
  obtain ⟨_, isSucc, body, _⟩ := nests.level
  obtain rfl := Nat.succ.inj isSucc
  exact ⟨levels, low.le, body, left⟩

theorem RoomWithin.inside (room : RoomWithin names height bound world id) :
    id < world.store.size := by
  obtain ⟨_, _, nests, _⟩ := room
  exact nests.inside

theorem RoomWithin.onward (room : RoomWithin names height bound world id)
    (onward : world.store.Onward id next) : RoomWithin names height bound world next := by
  obtain ⟨levels, low, nests, left⟩ := room
  exact ⟨levels, low, nests.onward onward, left⟩

theorem RoomWithin.kept (room : RoomWithin names height bound world id)
    (shallow : Shallow names height world) (bounds : Bounded names height world after) :
    RoomWithin names height bound after id := by
  obtain ⟨levels, low, nests, left⟩ := room
  refine ⟨levels, low, nests.trims (bounds.trims shallow), ?_⟩
  rw [bounds.orderly.depth, bounds.orderly.free]
  exact left

theorem Room.kept (room : Room names height bound world start)
    (shallow : Shallow names height world) (bounds : Bounded names height world after) :
    Room names height bound after start := by
  obtain ⟨levels, low, nests, left⟩ := room
  refine ⟨levels, low, nests.trims (bounds.trims shallow), ?_⟩
  rw [bounds.orderly.depth, bounds.orderly.free]
  exact left

theorem Room.deeper (room : Room names height bound world (some id)) :
    world.context.depth < bound ∧ RoomWithin names height bound world.deeper id := by
  obtain ⟨levels, low, nests, left⟩ := room
  obtain ⟨below, rfl, _, _⟩ := nests.level
  have same : World.free names world.deeper = World.free names world := rfl
  have deep : world.deeper.context.depth = world.context.depth + 1 := rfl
  refine ⟨by omega, below, by omega, nests, ?_⟩
  rw [same, deep]
  omega

theorem room_pinned (shallow : Shallow names height world) {chain : ElementId}
    (isChain : world.context.chainOf name = some chain)
    (unmarked : world.context.isExpanding name = false)
    (left : world.context.depth + free names world * height ≤ bound) :
    Room names height bound (world.enterPin name (some chain)) (some chain) := by
  obtain ⟨known, nests⟩ := shallow.cached name chain isChain
  refine ⟨height, le_refl _, nests, ?_⟩
  have fewer := free_enterPin known unmarked (some chain)
  have same : (world.enterPin name (some chain)).context.depth = world.context.depth := rfl
  rw [← fewer, Nat.succ_mul] at left
  rw [same]
  omega

theorem room_none (left : world.context.depth + free names world * height ≤ bound) :
    Room names height bound world none := ⟨0, Nat.zero_le _, .nil 0, left⟩

theorem RoomWithin.left (room : RoomWithin names height bound world id) :
    world.context.depth + free names world * height ≤ bound := by
  obtain ⟨levels, _, _, left⟩ := room
  omega

theorem room_asked (room : RoomWithin names height bound world id) {action : Action}
    (writes : action.Writes) {changed : World} {toEnd : Bool}
    (performed : world.perform settings (some id) action = (.ok (.render start toEnd), changed)) :
    Room names height bound world start := by
  obtain ⟨_, _, ⟨text, adds⟩ | ⟨asked, renders, isBody⟩⟩ := perform_writes settings world id writes
  · rw [performed] at adds
    cases adds
  · rw [performed] at renders
    cases renders
    rcases isBody with rfl | rfl
    · exact room_none room.left
    · exact room.child

variable (settings names height bound) in
/-- All that comes of a task with room in a shallow world is such a task. -/
theorem room_conduct : Conduct settings
    (fun world task => Shallow names height world ∧ task.Fits names height bound world)
    (Bounded names height) where
  refl := .refl
  trans _ _ _ := .trans
  note world notices := note_bounded settings notices world
  begins := by
    rintro stage next begins ⟨shallow, fits⟩ bounds
    cases begins with
    | render _ => exact ⟨⟨shallow.linked, shallow.cached, shallow.commands⟩, fits.deeper.2⟩
    | one => exact ⟨shallow, fits⟩
    | next _ isNext =>
        exact ⟨bounds.shallow shallow, (fits.kept shallow bounds).onward (.single isNext)⟩
    | body _ isBody => exact ⟨shallow, isBody ▸ fits.child⟩
    | assign isKind _ _ =>
        -- The body is one level lower than the variable, and only trimmed since then.
        obtain ⟨levels, low, nests, _⟩ := fits.kept shallow bounds
        obtain ⟨_, isSucc, body, _⟩ := nests.level
        obtain rfl := Nat.succ.inj isSucc
        obtain ⟨_, _, known, _⟩ := fits
        obtain ⟨_, _, _, named⟩ := known.level
        exact ⟨bounds.shallow shallow, named isKind, body.mono low.le⟩
    | value _ _ => exact ⟨shallow, fits.left⟩
    | pinned isChain unmarked =>
        exact ⟨⟨shallow.linked, shallow.cached, shallow.commands⟩,
          room_pinned shallow isChain unmarked fits⟩
    | call _ isHandler => exact ⟨shallow, shallow.commands _ _ isHandler, _, rfl, fits⟩
    | script => exact ⟨shallow, fits⟩
    | @added _ _ _ _ action rest _ _ _ =>
        obtain ⟨writes, id, rfl, room⟩ := fits
        have later : ∀ other ∈ rest, other.Writes := fun other member =>
          writes other (List.mem_cons_of_mem action member)
        exact ⟨bounds.shallow shallow, later, id, rfl, room.kept shallow bounds⟩
    | asked performed =>
        obtain ⟨writes, id, rfl, room⟩ := fits
        have asked := room_asked room (writes _ List.mem_cons_self) performed
        exact ⟨bounds.shallow shallow, asked.kept shallow bounds⟩
    | @resumed _ _ _ _ _ _ action rest _ _ _ _ _ =>
        obtain ⟨writes, id, rfl, room⟩ := fits
        have later : ∀ other ∈ rest, other.Writes := fun other member =>
          writes other (List.mem_cons_of_mem action member)
        exact ⟨bounds.shallow shallow, later, id, rfl, room.kept shallow bounds⟩
  shallower world after _ _ _ inner := by
    have orderly := shallower_orderly inner.orderly
    refine ⟨orderly, fun shallow => ?_, fun shallow => ?_⟩
    · have deep := inner.shallow ⟨shallow.linked, shallow.cached, shallow.commands⟩
      exact ⟨deep.linked, deep.cached, deep.commands⟩
    · exact inner.trims ⟨shallow.linked, shallow.cached, shallow.commands⟩
  leaves _ _ _ _ _ _ unmarked inner := leavePin_bounded unmarked inner
  assigns _ _ _ _ fits copied := cacheCopy_bounded fits.1.linked fits.2.1 fits.2.2 copied
  performs world element action rest _ fits := by
    obtain ⟨_, writes, id, rfl, _⟩ := fits
    obtain ⟨notices, same, _⟩ := perform_writes settings world id (writes _ List.mem_cons_self)
    rw [same]
    exact note_bounded settings notices world

theorem Room.not_overlong (room : Room names height bound world start)
    (shallow : Shallow names height world) {fuel : Nat} {toEnd : Bool} {stage : Stage}
    (during : During settings ⟨fuel, world, .render start toEnd⟩ stage) :
    ¬ stage.Overlong settings := by
  have fits := ((room_conduct names height bound settings).during during ⟨shallow, room⟩).2
  obtain ⟨fuel, later, task⟩ := stage
  cases task with
  | call handler element =>
      rintro ⟨value, after, called, _⟩
      obtain ⟨writes, id, rfl, _⟩ := fits
      obtain ⟨text, isText⟩ := call_writes fuel writes called
      cases isText
  | _ => exact id

end Room

section Nested

def Task.renderings : Task → Nat
  | .render _ _ => 1
  | _ => 0

/-- So many renderings are under way at a stage, from that of the origin on to its own. -/
inductive Nested (settings : Settings) (origin : Stage) : Nat → Stage → Prop where
  | origin : Nested settings origin origin.task.renderings origin
  | begins {count : Nat} {stage next : Stage} (nested : Nested settings origin count stage)
      (begins : Begins settings stage next) :
      Nested settings origin (count + next.task.renderings) next

variable {settings : Settings} {origin stage : Stage} {count fuel : Nat} {world : World}
variable {start called : Option ElementId} {toEnd onward : Bool}

theorem Nested.during (nested : Nested settings origin count stage) :
    During settings origin stage := by
  induction nested with
  | origin => exact .refl
  | begins _ begins ih => exact ih.tail begins

theorem depth_entered (stage : Stage) :
    stage.entered.context.depth = stage.world.context.depth + stage.task.renderings := by
  obtain ⟨fuel, world, task⟩ := stage
  cases task <;> rfl

/-- The depth counts the renderings that are under way. -/
theorem Nested.depth (nested : Nested settings ⟨fuel, world, .render start toEnd⟩ count stage) :
    stage.world.context.depth + stage.task.renderings = world.context.depth + count := by
  induction nested with
  | origin => rfl
  | begins _ begins ih =>
      rw [begins.orderly.depth, depth_entered, ih, Nat.add_assoc]

variable {names : Finset (Option String)} {height bound : Nat}

/-- There is room for every element that is rendered, and for nothing one level deeper. -/
theorem Room.nested_le (room : Room names height bound world start)
    (shallow : Shallow names height world)
    (nested : Nested settings ⟨fuel, world, .render start toEnd⟩ count stage)
    (renders : stage.task = .render called onward) :
    world.context.depth + count ≤ bound + (if called = none then 1 else 0) ∧
      (called ≠ none → stage.world.context.depth < bound) := by
  have fits := ((room_conduct names height bound settings).during nested.during
    ⟨shallow, room⟩).2
  have depth := nested.depth
  rw [renders] at fits depth
  change stage.world.context.depth + 1 = _ at depth
  cases called with
  | none =>
      obtain ⟨levels, _, _, left⟩ := fits
      exact ⟨by simp only [if_true]; omega, fun isSome => absurd rfl isSome⟩
  | some id =>
      have low := fits.deeper.1
      exact ⟨by simp only [reduceCtorEq, if_false]; omega, fun _ => low⟩

end Nested

end Stencil.World
