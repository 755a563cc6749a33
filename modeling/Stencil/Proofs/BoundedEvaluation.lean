import Stencil.Proofs.NestingBound

/-!
Evaluations with room come to an end. The depth that is left below the bound decreases
from a chain to what is rendered below it, and along a chain the elements that are still
ahead become fewer, since what a chain loses in the meantime only brings its later
elements nearer. A limit of depth that is never reached makes no difference, so all
limits from the bound on lead to the same end.
-/

namespace Stencil

def Settings.limited (settings : Settings) (limit : Int) : Settings :=
  { settings with maxDepth := limit }

@[simp] theorem Settings.maxDepth_limited (settings : Settings) (limit : Int) :
    (settings.limited limit).maxDepth = limit := rfl

def YieldsUnder {Value : Type} (settings : Settings) (limits : Int → Prop)
    (step : Settings → Nat → Option Value) (value : Value) : Prop :=
  ∀ limit, limits limit → Yields (step (settings.limited limit)) value

section Steps

variable {Value Other Result : Type} {settings : Settings} {limits : Int → Prop}
variable {step : Settings → Nat → Option Value} {other : Settings → Nat → Option Other}
variable {outer : Settings → Nat → Option Result} {value : Value} {otherValue : Other}
variable {result : Result}

theorem YieldsUnder.now
    (answers : ∀ limit fuel, step (settings.limited limit) (fuel + 1) = some value) :
    YieldsUnder settings limits step value := fun limit _ => .now (answers limit)

theorem YieldsUnder.next (ends : YieldsUnder settings limits step value)
    (answers : ∀ limit fuel, limits limit → step (settings.limited limit) fuel = some value →
      outer (settings.limited limit) (fuel + 1) = some result) :
    YieldsUnder settings limits outer result :=
  fun limit isLimit => (ends limit isLimit).next fun fuel => answers limit fuel isLimit

theorem YieldsUnder.both (first : YieldsUnder settings limits step value)
    (second : YieldsUnder settings limits other otherValue)
    (answers : ∀ limit fuel, step (settings.limited limit) fuel = some value →
      other (settings.limited limit) fuel = some otherValue →
      outer (settings.limited limit) (fuel + 1) = some result) :
    YieldsUnder settings limits outer result :=
  fun limit isLimit => (first limit isLimit).both (second limit isLimit) (answers limit)

end Steps

/-- Below the bound the limits are not reached, but for a limit that is the only one. -/
def Decides (limits : Int → Prop) (bound : Nat) : Prop :=
  ∃ limit, limits limit ∧ ∀ depth : Nat, depth < bound →
    (limit ≤ depth ∧ ∀ other, limits other → other = limit) ∨
      ∀ other, limits other → ¬ other ≤ depth

theorem decides_one (limit : Int) (bound : Nat) : Decides (· = limit) bound := by
  refine ⟨limit, rfl, fun depth _ => ?_⟩
  by_cases reached : limit ≤ depth
  · exact Or.inl ⟨reached, fun _ => id⟩
  · exact Or.inr fun _ same => same ▸ reached

theorem decides_high (bound : Nat) : Decides ((bound : Int) ≤ ·) bound :=
  ⟨bound, le_refl _, fun depth low => Or.inr fun other high => by omega⟩

namespace World

open Store Relation

theorem perform_limited (settings : Settings) (limit : Int) (world : World)
    (element : Option ElementId) (action : Action) :
    world.perform (settings.limited limit) element action =
      world.perform settings element action := by
  cases action <;> rfl

theorem cacheCopy_limited (settings : Settings) (limit : Int) (world : World)
    (name : Option String) (start : Option ElementId) :
    world.cacheCopy (settings.limited limit) name start = world.cacheCopy settings name start := rfl

theorem note_limited (settings : Settings) (limit : Int) (notices : List Notice) (world : World) :
    note (settings.limited limit) notices world = note settings notices world := rfl

theorem concludeCommand_limited (settings : Settings) (limit : Int) (name : Option String)
    (replied : Except Trouble Reply × World) :
    concludeCommand (settings.limited limit) name replied =
      concludeCommand settings name replied := by
  obtain ⟨reply | trouble, between⟩ := replied <;> rfl

section Ends

variable {settings : Settings} {limits : Int → Prop} {names : Finset (Option String)}
variable {height bound levels : Nat} {world : World} {id : ElementId}

def RendersFor (settings : Settings) (limits : Int → Prop) (names : Finset (Option String))
    (height bound levels : Nat) : Prop :=
  ∀ world start toEnd, Shallow names height world → Room names height bound world start →
    bound - world.context.depth ≤ levels →
    ∃ rendered, YieldsUnder settings limits
      (fun settings fuel => render settings fuel world start toEnd) rendered

variable (decides : Decides limits bound)
include decides

theorem bounded_of_ends {Value : Type} {step : Settings → Nat → Option Value} {value : Value}
    (task : Task) (after : World) (shallow : Shallow names height world)
    (fits : task.Fits names height bound world)
    (ends : YieldsUnder settings limits step value)
    (leads : ∀ settings fuel, step settings fuel = some value →
      Stage.after settings ⟨fuel, world, task⟩ = some after) :
    Bounded names height world after := by
  obtain ⟨limit, isLimit, _⟩ := decides
  obtain ⟨fuel, enough⟩ := ends limit isLimit
  have conduct := room_conduct names height bound (settings.limited limit)
  exact conduct.keeps_through fuel world task after ⟨shallow, fits⟩
    (leads _ fuel (enough fuel (le_refl fuel)))

variable (below : RendersFor settings limits names height bound levels)
include below

theorem run_ends {actions : List Action} (output : String) (shallow : Shallow names height world)
    (writes : ∀ action ∈ actions, action.Writes) (room : RoomWithin names height bound world id)
    (left : bound - world.context.depth ≤ levels) :
    ∃ replied, YieldsUnder settings limits
      (fun settings fuel => run settings fuel world (some id) actions output) replied := by
  induction actions generalizing world output with
  | nil => exact ⟨(.ok (.text output), world), .now fun _ _ => rfl⟩
  | cons action rest ih =>
      have restWrites : ∀ action ∈ rest, action.Writes := fun other member =>
        writes other (List.mem_cons_of_mem action member)
      obtain ⟨notices, same, answers⟩ :=
        perform_writes settings world id (writes action List.mem_cons_self)
      have noted : Bounded names height world (note settings notices world) :=
        note_bounded settings notices world
      have shallowNoted := noted.shallow shallow
      have roomNoted := room.kept shallow noted
      rcases answers with ⟨text, adds⟩ | ⟨start, asks, _⟩
      · have performed : world.perform settings (some id) action =
            (.ok (.add text), note settings notices world) := Prod.ext adds same
        obtain ⟨replied, ends⟩ := ih (output ++ text) shallowNoted restWrites roomNoted left
        refine ⟨replied, ends.next fun limit fuel _ ran => ?_⟩
        simp [run, perform_limited, performed, ran]
      · have performed : world.perform settings (some id) action =
            (.ok (.render start true), note settings notices world) := Prod.ext asks same
        have asked := room_asked room (writes action List.mem_cons_self) performed
        obtain ⟨⟨rendered, between⟩, ends⟩ :=
          below _ start true shallowNoted (asked.kept shallow noted) left
        have bounds := bounded_of_ends decides (.render start true) between shallowNoted
          (asked.kept shallow noted) ends fun settings fuel ran => by simp [Stage.after, ran]
        cases rendered with
        | error fault =>
            refine ⟨(.error (.fault fault), between), ends.next fun limit fuel _ ran => ?_⟩
            simp [run, perform_limited, performed, ran]
        | ok text =>
            obtain ⟨replied, others⟩ := ih (output ++ text) (bounds.shallow shallowNoted) restWrites
              (roomNoted.kept shallowNoted bounds) (by rw [bounds.orderly.depth]; exact left)
            refine ⟨replied, ends.both others fun limit fuel ran ranOthers => ?_⟩
            simp [run, perform_limited, performed, ran, ranOthers]

theorem call_ends {handler : Handler} (shallow : Shallow names height world)
    (writes : handler.Writes) (room : RoomWithin names height bound world id)
    (left : bound - world.context.depth ≤ levels) :
    ∃ replied, YieldsUnder settings limits
      (fun settings fuel => call settings fuel world handler (some id)) replied := by
  cases handler with
  | inert => exact ⟨(.error .notCallable, world), .now fun _ _ => rfl⟩
  | script actions =>
      obtain ⟨replied, ends⟩ := run_ends decides below "" shallow writes room left
      exact ⟨replied, ends.next fun _ _ _ ran => ran⟩

omit decides in
theorem renderCached_ends (name : Option String) (shallow : Shallow names height world)
    (room : world.context.depth + free names world * height ≤ bound)
    (left : bound - world.context.depth ≤ levels) :
    ∃ rendered, YieldsUnder settings limits
      (fun settings fuel => renderCached settings fuel world name) rendered := by
  cases isChain : world.context.chainOf name with
  | none =>
      refine ⟨(.ok "", world), .now fun limit fuel => ?_⟩
      simp [renderCached, isChain]
  | some chain =>
      cases marked : world.context.isExpanding name with
      | true =>
          refine ⟨(.ok "", note settings [.variableCircular (shown name)] world),
            .now fun limit fuel => ?_⟩
          simp [renderCached, isChain, marked, note_limited]
      | false =>
          obtain ⟨rendered, ends⟩ := below (world.enterPin name (some chain)) (some chain) true
            ⟨shallow.linked, shallow.cached, shallow.commands⟩
            (room_pinned shallow isChain marked room) left
          refine ⟨(rendered.1, rendered.2.leavePin name (some chain)),
            ends.next fun limit fuel _ ran => ?_⟩
          simp [renderCached, isChain, marked, ran]

theorem renderOne_ends (shallow : Shallow names height world)
    (room : RoomWithin names height bound world id)
    (left : bound - world.context.depth ≤ levels) :
    ∃ rendered, YieldsUnder settings limits (fun settings fuel => renderOne settings fuel world id)
      rendered := by
  match isKind : world.store.kind? id with
  | none =>
      refine ⟨(.ok "", world), .now fun limit fuel => ?_⟩
      simp [renderOne, isKind]
  | some .text =>
      cases isText : world.store.text id with
      | none =>
          refine ⟨(.error .noValue, world), .now fun limit fuel => ?_⟩
          simp [renderOne, isKind, isText]
      | some text =>
          refine ⟨(.ok (Text.unescape text), world), .now fun limit fuel => ?_⟩
          simp [renderOne, isKind, isText]
  | some .variable =>
      cases isBody : world.store.child id with
      | none =>
          obtain ⟨rendered, ends⟩ :=
            renderCached_ends below (world.store.text id) shallow room.left left
          refine ⟨rendered, ends.next fun limit fuel _ ran => ?_⟩
          simp [renderOne, isKind, isBody, ran]
      | some body =>
          have fits : Room names height bound world (some body) := isBody ▸ room.child
          obtain ⟨⟨output, between⟩, ends⟩ := below world (some body) true shallow fits left
          have bounds := bounded_of_ends decides (.render (some body) true) between shallow fits
            ends fun settings fuel ran => by simp [Stage.after, ran]
          cases output with
          | error fault =>
              refine ⟨(.error fault, between), ends.next fun limit fuel _ ran => ?_⟩
              simp [renderOne, isKind, isBody, ran, concludeAssignment]
          | ok output =>
              -- The body may have been trimmed in the meantime, but it has an end.
              obtain ⟨_, _, nests, _⟩ := (room.kept shallow bounds).child
              obtain ⟨forest, read, _⟩ :=
                (bounds.shallow shallow).linked.forest_of_nests nests
              have copies : ∃ cached, between.cacheCopy settings (world.store.text id)
                  (between.store.child id) = some cached := by
                simp [cacheCopy, copyAll, read]
              obtain ⟨cached, copied⟩ := copies
              refine ⟨(.ok output, cached), ends.next fun limit fuel _ ran => ?_⟩
              simp [renderOne, isKind, isBody, ran, concludeAssignment, cacheCopy_limited, copied]
  | some .command =>
      cases isHandler : world.context.commands.get? (world.store.text id) with
      | none =>
          refine ⟨(.ok "", note settings [.commandMissing (shown (world.store.text id))] world),
            .now fun limit fuel => ?_⟩
          simp [renderOne, isKind, isHandler, note_limited]
      | some handler =>
          obtain ⟨replied, ends⟩ :=
            call_ends decides below shallow (shallow.commands _ _ isHandler) room left
          refine ⟨concludeCommand settings (world.store.text id) replied,
            ends.next fun limit fuel _ ran => ?_⟩
          simp [renderOne, isKind, isHandler, ran, concludeCommand_limited]

-- By induction on what was behind the element in the store that the walk began in.
theorem renderFrom_ends (toEnd : Bool) (shallow : Shallow names height world)
    (room : RoomWithin names height bound world id)
    (left : bound - world.context.depth ≤ levels) :
    ∃ rendered, YieldsUnder settings limits
      (fun settings fuel => renderFrom settings fuel world id toEnd) rendered := by
  have walks : ∀ id, ∀ later : World, id < world.store.size → Shallow names height later →
      Trims world.store later.store → RoomWithin names height bound later id →
      bound - later.context.depth ≤ levels → ∃ rendered, YieldsUnder settings limits
        (fun settings fuel => renderFrom settings fuel later id toEnd) rendered := by
    intro id
    induction id using shallow.linked.induct_behind with
    | step id ih =>
        intro later inside shallowLater trims room left
        obtain ⟨⟨output, between⟩, ends⟩ := renderOne_ends decides below shallowLater room left
        have bounds := bounded_of_ends decides (.one id) between shallowLater room ends
          fun settings fuel ran => by simp [Stage.after, ran]
        cases output with
        | error fault =>
            refine ⟨(.error fault, between), ends.next fun limit fuel _ ran => ?_⟩
            simp [renderFrom, ran]
        | ok output =>
            cases isNext : if toEnd then between.store.next id else none with
            | none =>
                refine ⟨(.ok output, between), ends.next fun limit fuel _ ran => ?_⟩
                simp [renderFrom, ran, isNext]
            | some next =>
                have follows : between.store.next id = some next := by
                  cases toEnd with
                  | true => exact isNext
                  | false => cases isNext
                have trimmed := trims.trans shallow.linked (bounds.trims shallowLater)
                have behind := trimmed.next id next inside follows
                obtain ⟨rest, others⟩ := ih next behind between
                  (shallow.linked.inside_of_walk behind) (bounds.shallow shallowLater) trimmed
                  ((room.kept shallowLater bounds).onward (.single follows))
                  (by rw [bounds.orderly.depth]; exact left)
                refine ⟨((output ++ ·) <$> rest.1, rest.2),
                  ends.both others fun limit fuel ran ranOthers => ?_⟩
                simp [renderFrom, ran, isNext, ranOthers]
  exact walks id world room.inside shallow (.refl _) room left

omit below in
/-- By induction on the levels that are left below the bound. -/
theorem render_ends (levels : Nat) : RendersFor settings limits names height bound levels := by
  induction levels with
  | zero =>
      intro world start toEnd shallow room left
      cases start with
      | none => exact ⟨(.ok "", world), .now fun _ _ => rfl⟩
      | some id =>
          have low := room.deeper.1
          omega
  | succ levels ih =>
      intro world start toEnd shallow room left
      cases start with
      | none => exact ⟨(.ok "", world), .now fun _ _ => rfl⟩
      | some id =>
          obtain ⟨low, deep⟩ := room.deeper
          have deeper : bound - world.deeper.context.depth ≤ levels := by
            have depth : world.deeper.context.depth = world.context.depth + 1 := rfl
            omega
          have shallowDeeper : Shallow names height world.deeper :=
            ⟨shallow.linked, shallow.cached, shallow.commands⟩
          obtain ⟨rendered, ends⟩ := renderFrom_ends decides ih toEnd shallowDeeper deep deeper
          obtain ⟨limit, _, cases⟩ := decides
          rcases cases world.context.depth low with ⟨reached, only⟩ | free
          · refine ⟨(.ok "", note settings [.depthReached limit] world), fun other isLimit =>
              .now fun fuel => ?_⟩
            obtain rfl := only other isLimit
            simp [render, reached, note_limited]
          · refine ⟨(rendered.1, rendered.2.shallower), ends.next fun other fuel isLimit ran => ?_⟩
            simp [render, free other isLimit, ran]

end Ends

def values (world : World) : List Forest :=
  world.context.chains.filterMap fun chain => world.store.forest? (some chain)

def names (world : World) (document : Forest) : Finset (Option String) :=
  (world.context.cache.keys ++ (document :: world.values).flatMap Forest.variableNames).toFinset

def height (world : World) (document : Forest) : Nat :=
  ((document :: world.values).map Forest.height).foldr max 0

/-- So many levels are enough for the document and, once for each name, for a value. -/
def nestingBound (world : World) (document : Forest) : Nat :=
  ((world.names document).card + 1) * world.height document

section Bound

variable {world : World} {document : Forest}

theorem nests_of_known {start : Option ElementId} {forest : Forest}
    (read : world.store.forest? start = some forest) (known : forest ∈ document :: world.values) :
    world.store.Nests (· ∈ world.names document) (world.height document) start := by
  apply nests_of_forestFor _ read
  · exact List.le_max_of_le' 0 (List.mem_map_of_mem known) (le_refl _)
  · intro name member
    simp only [names, List.mem_toFinset, List.mem_append, List.mem_flatMap]
    exact Or.inr ⟨forest, known, member⟩

theorem shallow_of_values (linked : world.store.Linked) (tame : Tame world.context.commands)
    (ends : ∀ chain ∈ world.context.chains, ∃ value, world.store.forest? (some chain) = some value)
    (document : Forest) : Shallow (world.names document) (world.height document) world where
  linked := linked
  cached := by
    intro name chain isChain
    have member := mem_chains_of_chainOf isChain
    obtain ⟨value, read⟩ := ends chain member
    refine ⟨?_, nests_of_known read (List.mem_cons_of_mem _ (List.mem_filterMap.mpr
      ⟨chain, member, read⟩))⟩
    obtain ⟨cached, found, _⟩ := Option.bind_eq_some_iff.mp isChain
    simp only [names, List.mem_toFinset, List.mem_append]
    exact Or.inl (List.mem_map_of_mem (Table.mem_of_lookup found))
  commands := tame

theorem room_of_nests {names : Finset (Option String)} {height : Nat} {start : Option ElementId}
    (nests : world.store.Nests (· ∈ names) height start) :
    Room names height (world.context.depth + (names.card + 1) * height) world start := by
  refine ⟨height, le_refl _, nests, ?_⟩
  have few : free names world ≤ names.card := Finset.card_filter_le _ _
  have fewer := Nat.mul_le_mul_right height few
  rw [Nat.succ_mul]
  omega

/-- Cycle detection alone bounds evaluation. Whatever the limit of depth is, renderings of
elements nest no deeper than so many levels and a rendering of nothing at most one level
deeper, and no element is rendered deeper than so many levels below the depth at the
beginning. No limit from there on is reached, so all of them lead to the same output,
cache and log, and to an end. -/
theorem evaluation_bounded (settings : Settings) (set : Option CommandSet) {start : ElementId}
    (toEnd : Bool) (linked : world.store.Linked)
    (commands : world.context.commands = (stocked settings set).context.commands)
    (ends : ∀ chain ∈ world.context.chains, ∃ value, world.store.forest? (some chain) = some value)
    (read : world.store.forest? (some start) = some document) :
    (∀ limit fuel count (stage : Stage) called onward,
      Nested (settings.limited limit) ⟨fuel, world, .render (some start) toEnd⟩ count stage →
      stage.task = .render called onward →
        count ≤ world.nestingBound document + (if called = none then 1 else 0) ∧
        (called ≠ none →
          stage.world.context.depth < world.context.depth + world.nestingBound document)) ∧
    ∃ rendered, ∀ limit : Int, world.context.depth + world.nestingBound document ≤ limit →
      Yields (fun fuel => render (settings.limited limit) fuel world (some start) toEnd)
        rendered := by
  have shallow := shallow_of_values linked (commands ▸ stocked_tame settings set) ends document
  have room := room_of_nests (nests_of_known read List.mem_cons_self)
  constructor
  · intro limit fuel count stage called onward nested renders
    obtain ⟨few, low⟩ := room.nested_le shallow nested renders
    rw [Nat.add_assoc] at few
    exact ⟨Nat.le_of_add_le_add_left few, low⟩
  · obtain ⟨rendered, yields⟩ :=
      render_ends (decides_high _) _ world (some start) toEnd shallow room (le_refl _)
    exact ⟨rendered, fun limit high => yields limit (by push_cast; exact high)⟩

end Bound

/-- Two values that refer to each other, "A\x7b\x7bb$\x7d\x7d" and "B\x7b\x7ba$\x7d\x7d",
and a reference to the first. -/
def circling : World where
  store := ⟨#[{ kind := .text, text := some "A", next := some 1 },
    { kind := .variable, text := some "b", prev := some 0 },
    { kind := .text, text := some "B", next := some 3 },
    { kind := .variable, text := some "a", prev := some 2 },
    { kind := .variable, text := some "a" }]⟩
  context := { cache := ⟨[(some "a", ⟨some 0, false⟩), (some "b", ⟨some 2, false⟩)]⟩ }

/-- Two names and a height of one make three levels, which are all used. -/
theorem evaluation_bounded_circling :
    (∀ limit fuel count (stage : Stage) called onward,
      Nested (Settings.limited {} limit) ⟨fuel, circling, .render (some 4) true⟩ count stage →
      stage.task = .render called onward → count ≤ 3 + (if called = none then 1 else 0)) ∧
    (∃ after, after.log = [.variableCircular "a"] ∧ ∀ limit : Int, 3 ≤ limit →
      Yields (fun fuel => render (Settings.limited {} limit) fuel circling (some 4) true)
        (.ok "AB", after)) ∧
    (render (Settings.limited {} 2) 20 circling (some 4) true).map Prod.fst = some (.ok "A") := by
  let value (text name : String) : Forest :=
    .cons ⟨.text, some text, {}⟩ .nil (.cons ⟨.variable, some name, {}⟩ .nil .nil)
  let first := plant {} none none (value "A" "b")
  let second := plant first.1 none none (value "B" "a")
  have linked : circling.store.Linked := by
    have planted := grown_linked (plant_grown {} (value "A" "b")) empty_sound.linked
    have both := grown_linked (plant_grown first.1 (value "B" "a")) planted
    have same : circling.store = (second.1.add ⟨.variable, some "a", {}⟩) := by decide +kernel
    exact same ▸ grown_linked (add_grown second.1 _) both
  have ends : ∀ chain ∈ circling.context.chains,
      ∃ value, circling.store.forest? (some chain) = some value := by
    intro chain member
    have isChain : chain = 0 ∨ chain = 2 := by simpa [Context.chains, circling] using member
    rcases isChain with rfl | rfl
    · exact ⟨value "A" "b", by rfl⟩
    · exact ⟨value "B" "a", by rfl⟩
  have read : circling.store.forest? (some 4) =
      some (.cons ⟨.variable, some "a", {}⟩ .nil .nil) := by rfl
  obtain ⟨low, ⟨output, after⟩, yields⟩ := evaluation_bounded {} none true linked (by rfl) ends read
  have bound : circling.nestingBound (.cons ⟨.variable, some "a", {}⟩ .nil .nil) = 3 := by
    decide +kernel
  rw [bound] at low yields
  refine ⟨fun limit fuel count stage called onward nested renders =>
    (low limit fuel count stage called onward nested renders).1, ?_, by rfl⟩
  obtain ⟨fuel, enough⟩ := yields 3 (by decide)
  have ran : (render (Settings.limited {} 3) (fuel + 20) circling (some 4) true).map
      (fun rendered => (rendered.1, rendered.2.log)) =
        some (.ok "AB", [.variableCircular "a"]) := by rfl
  have renders : render (Settings.limited {} 3) (fuel + 20) circling (some 4) true =
      some (output, after) := enough _ (Nat.le_add_right fuel 20)
  rw [renders] at ran
  obtain ⟨rfl, logged⟩ := Prod.mk.inj (Option.some.inj ran)
  exact ⟨after, logged, yields⟩

def bodiless : World where
  store := ⟨#[{ kind := .command, text := some "b" }]⟩
  context := (stocked {} (some .html)).context

/-- The handler renders the body that is not there, so one rendering of nothing is nested
deeper than there are levels. -/
theorem bodiless_nests_deeper :
    let document : Forest := .cons ⟨.command, some "b", {}⟩ .nil .nil
    bodiless.store.Linked ∧ bodiless.context.chains = [] ∧ bodiless.context.pins = [] ∧
      bodiless.store.forest? (some 0) = some document ∧ bodiless.nestingBound document = 1 ∧
      ∃ stage, Nested {} ⟨7, bodiless, .render (some 0) true⟩ 2 stage ∧
        stage.task = .render none true := by
  intro document
  have linked : bodiless.store.Linked :=
    grown_linked (add_grown {} ⟨.command, some "b", {}⟩) empty_sound.linked
  have follows : Nested {} ⟨7, bodiless, .render (some 0) true⟩ 1
      ⟨6, bodiless.deeper, .follow 0 true⟩ := .begins .origin (.render (by decide))
  have calls : Nested {} ⟨7, bodiless, .render (some 0) true⟩ 1
      ⟨3, bodiless.deeper, .run (some 0) [.text "<b>", .content, .text "</b>"] ""⟩ :=
    .begins (.begins (.begins follows .one) (.call (by rfl) (by rfl))) .script
  have asks : Nested {} ⟨7, bodiless, .render (some 0) true⟩ 2
      ⟨1, bodiless.deeper, .render none true⟩ :=
    .begins (.begins calls (.added (by rfl))) (.asked (by rfl))
  exact ⟨linked, by rfl, by rfl, by rfl, by decide +kernel, _, asks, rfl⟩

end World

end Stencil
