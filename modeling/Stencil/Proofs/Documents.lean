import Stencil.Proofs.SoundStore
import Stencil.Proofs.Rendering

/-!
Documents that are rendered one after another in one context. Each source is
parsed, its chain is rendered and then destroyed; the cache passes on from one
document to the next. Between two documents nothing is pinned and no name is
expanding, and a chain that stays behind is one of the cache. So the outputs and
the final cache are those of the evaluation of the outlines.
-/

namespace Stencil

/-- A value that a cache starts out with: the chain of a source that is parsed in a range,
or none. Without checks the range must lie in the source, as nothing else refuses it. -/
structure Initial (settings : Settings) where
  name : Option String
  source : Option String
  readOnly : Bool
  first : Option Int := none
  last : Option Int := none
  inside : settings.errorChecks = false → ∀ text ∈ source, Store.InRange text first last

def Initial.whole {settings : Settings} (name source : Option String) (readOnly : Bool) :
    Initial settings where
  name := name
  source := source
  readOnly := readOnly
  inside := fun _ text _ => Store.inRange_whole text

namespace World

def document (settings : Settings) (fuel : Nat) (world : World) (source : String) :
    Option (Except Stop String × World) :=
  match world.parse settings source with
  | .error fault => some (.error (.fault fault), world)
  | .ok (.error report, parsed) =>
      some (.error (.failure ⟨report.status, report.position.toNat⟩), parsed)
  | .ok (.ok head, parsed) => do
      match ← render settings fuel parsed (some head) true with
      | (.error fault, rendered) => pure (.error (.fault fault), rendered)
      | (.ok output, rendered) => pure (.ok output, rendered.destroyAll (some head))

def documents (settings : Settings) (fuel : Nat) :
    World → List String → Option (List (Except Stop String) × World)
  | world, [] => some ([], world)
  | world, source :: rest => do
      let first ← document settings fuel world source
      let others ← documents settings fuel first.2 rest
      pure (first.1 :: others.1, others.2)

def setAll (settings : Settings) : World → List (Initial settings) → Except Fault World
  | world, [] => pure world
  | world, value :: rest => do
      let set ← world.setVariableText settings value.name value.source value.readOnly value.first
        value.last
      setAll settings set.2 rest

def listing (world : World) : List (Option String × Option Forest × Bool) :=
  world.context.cache.entries.map fun entry =>
    (entry.1, world.store.forest? entry.2.chain, entry.2.readOnly)

def stocked (settings : Settings) : Option CommandSet → World
  | none => {}
  | some set => set.addTo settings {}

/-- What a fresh context with some initial values makes of the sources, and what
its cache holds in the end. -/
def session (settings : Settings) (set : Option CommandSet) (initial : List (Initial settings))
    (sources : List String) (fuel : Nat) :
    Option (List (Except Stop String) × List (Option String × Option Forest × Bool)) :=
  match (stocked settings set).setAll settings initial with
  | .error _ => none
  | .ok world => do
      let rendered ← world.documents settings fuel sources
      pure (rendered.1, rendered.2.listing)

end World

namespace Evaluation

def outline (source : String) : Except Stop Forest :=
  Outline.read (Source.ofString source) ⟨0, (Source.ofString source).size⟩

def document (settings : Settings) (meaning : Meaning) (state : State) (source : String) :
    Except Stop String × State :=
  match outline source with
  | .error stop => (.error stop, state)
  | .ok forest =>
      let evaluated := evaluate meaning settings.maxDepth.toNat [] state forest
      (.ok evaluated.1, evaluated.2)

def documents (settings : Settings) (meaning : Meaning) :
    State → List String → List (Except Stop String) × State
  | state, [] => ([], state)
  | state, source :: rest =>
      let first := document settings meaning state source
      let others := documents settings meaning first.2 rest
      (first.1 :: others.1, others.2)

/-- The outline of a range of a source. What is refused or cannot be parsed has none, and
the empty source has one for every range. -/
def excerpt (checks : Bool) (source : String) (first last : Option Int) : Forest :=
  let size := (Source.ofString source).size
  let first := first.getD 0
  let last := last.getD (size - 1)
  if size = 0 then .cons ⟨.text, some "", {}⟩ .nil .nil
  else if checks && !Store.rangeValid size first last then .nil
  else
    match Outline.read (Source.ofString source) ⟨first.toNat, (last + 1).toNat⟩ with
    | .error _ => .nil
    | .ok forest => forest

section Excerpt

variable {checks : Bool} {source : String} {first last : Option Int}

theorem excerpt_empty (empty : (Source.ofString source).size = 0) :
    excerpt checks source first last = .cons ⟨.text, some "", {}⟩ .nil .nil := by
  simp [excerpt, empty]

theorem excerpt_inside (filled : (Source.ofString source).size ≠ 0)
    (inside : Store.InRange source first last) :
    excerpt checks source first last =
      (Outline.read (Source.ofString source) ⟨(first.getD 0).toNat,
        (last.getD ((Source.ofString source).size - 1) + 1).toNat⟩).toOption.getD .nil := by
  have within := inside.resolve_left filled
  simp only [excerpt, if_neg filled, within, Bool.not_true, Bool.and_false, Bool.false_eq_true,
    if_false]
  split <;> simp [*, Except.toOption]

theorem excerpt_outside (outside : ¬ Store.InRange source first last) :
    excerpt true source first last = .nil := by
  obtain ⟨filled, invalid⟩ := not_or.mp outside
  simp [excerpt, filled, invalid]

end Excerpt

def initialForest {settings : Settings} (value : Initial settings) : Forest :=
  (value.source.map fun source =>
    excerpt settings.errorChecks source value.first value.last).getD .nil

def setAll (settings : Settings) : State → List (Initial settings) → State
  | state, [] => state
  | state, value :: rest =>
      let set := if settings.errorChecks && !value.name.any isName then state
        else state.put value.name ⟨initialForest value, value.readOnly⟩
      setAll settings set rest

def meaningOf : Option CommandSet → Meaning
  | none => fun _ => none
  | some set => set.meaning

def session (settings : Settings) (set : Option CommandSet) (initial : List (Initial settings))
    (sources : List String) :
    List (Except Stop String) × List (Option String × Option Forest × Bool) :=
  let evaluated := documents settings (meaningOf set) (setAll settings {} initial) sources
  (evaluated.1, evaluated.2.entries.map fun entry =>
    (entry.1, some entry.2.forest, entry.2.readOnly))

end Evaluation

namespace World

open Store

structure Idle (meaning : Evaluation.Meaning) (world : World) (state : Evaluation.State) :
    Prop where
  mirrors : world.Mirrors state
  speaks : Speaks world.context.commands meaning
  expands : world.context.expanding = []
  pins : world.context.pins = []
  depth : world.context.depth = 0

section Steps

variable (settings : Settings) {meaning : Evaluation.Meaning} {world after : World}
variable {region : ElementId → Prop} {state next : Evaluation.State}

theorem empty_guards (world : World) : world.Guards fun _ => False :=
  ⟨enclosed_none world.store, fun _ => False.elim, fun _ _ => False.elim⟩

theorem Idle.passed (idle : Idle meaning world state)
    (passes : Passes world after region next) : Idle meaning after next where
  mirrors := passes.mirrors
  speaks := by
    rw [passes.undisturbed.commands]
    exact idle.speaks
  expands := passes.undisturbed.expanding.trans idle.expands
  pins := passes.undisturbed.pins.trans idle.pins
  depth := passes.undisturbed.depth.trans idle.depth

/-- A parse of a range puts the outline of its span into new cells, or reports why there
is none. -/
theorem span_cases (world : World) (source : String) (first last : Option Int) (span : Span)
    (begins : first.getD 0 = span.start)
    (ends : last.getD ((Source.ofString source).size - 1) + 1 = span.stop)
    (ordered : span.start ≤ span.stop) (inside : span.stop ≤ (Source.ofString source).size) :
    (∃ forest grown ids, Outline.read (Source.ofString source) span = .ok forest ∧
      world.parse settings source first last =
        .ok (.ok world.store.size, note settings [] { world with store := grown }) ∧
      Grown world.store grown (some world.store.size) forest ids ∧ forest.Proper) ∨
    ∃ failure report, Outline.read (Source.ofString source) span = .error (.failure failure) ∧
      world.parse settings source first last =
        .ok (.error report, note settings (failureNotices failure report) world) ∧
      report.status = failure.status ∧ report.position = failure.position := by
  rcases parse_spec settings.errorChecks world.store source first last span begins ends ordered
      inside with ⟨forest, grown, ids, read, ran, grows⟩ | ⟨failure, report, read, ran, same⟩
  · have proper := ((Outline.read_settles (Source.ofString source) inside).of_ok read).1
    exact Or.inl ⟨forest, grown, ids, read, by simp [World.parse, ran], grows, proper⟩
  · exact Or.inr ⟨failure, report, read, by simp [World.parse, ran], same⟩

theorem parse_cases (world : World) (source : String) :
    (∃ forest grown ids, Evaluation.outline source = .ok forest ∧
      world.parse settings source =
        .ok (.ok world.store.size, note settings [] { world with store := grown }) ∧
      Grown world.store grown (some world.store.size) forest ids ∧ forest.Proper) ∨
    ∃ failure report, Evaluation.outline source = .error (.failure failure) ∧
      world.parse settings source =
        .ok (.error report, note settings (failureNotices failure report) world) ∧
      report.status = failure.status ∧ report.position = failure.position :=
  span_cases settings world source none none ⟨0, (Source.ofString source).size⟩ rfl (by simp)
    (Nat.zero_le _) (Nat.le_refl _)

theorem parse_ok {settings : Settings} {source : String} {head : ElementId} {parsed : World}
    (parses : world.parse settings source = .ok (.ok head, parsed)) :
    ∃ forest ids, Evaluation.outline source = .ok forest ∧
      Grown world.store parsed.store (some head) forest ids ∧ forest.Proper ∧
      parsed.context = world.context := by
  rcases parse_cases settings world source with
    ⟨forest, grown, ids, read, ran, grows, proper⟩ | ⟨_, _, _, ran, _⟩
  · cases ran.symm.trans parses
    exact ⟨forest, ids, read, grows, proper, rfl⟩
  · cases ran.symm.trans parses

theorem parse_context {settings : Settings} {text : String} {first last : Option Int}
    {result : Except Report ElementId}
    (parses : world.parse settings text first last = .ok (result, after)) :
    after.context = world.context := by
  obtain ⟨parsed, _, done⟩ := bind_eq_ok.mp (show _ >>= _ = _ from parses)
  cases done
  rfl

theorem parse_passes (mirrors : world.Mirrors state) (source : String) :
    (∃ forest parsed head ids, Evaluation.outline source = .ok forest ∧
      world.parse settings source = .ok (.ok head, parsed) ∧
      Passes world parsed (fun _ => False) state ∧
      parsed.store.Planted none none (some head) forest ids ∧ forest.Proper ∧
      parsed.context = world.context ∧ ∀ id ∈ ids, world.store.size ≤ id) ∨
    ∃ failure parsed report, Evaluation.outline source = .error (.failure failure) ∧
      world.parse settings source = .ok (.error report, parsed) ∧
      Passes world parsed (fun _ => False) state ∧ report.status = failure.status ∧
      report.position = failure.position ∧ parsed.context = world.context := by
  have guards := empty_guards world
  rcases parse_cases settings world source with
    ⟨forest, grown, ids, read, ran, grows, proper⟩ | ⟨failure, report, read, ran, status, position⟩
  · exact Or.inl ⟨forest, _, world.store.size, ids, read, ran,
      (grow_passes mirrors guards grows).note settings [], grows.planted, proper, rfl, grows.fresh⟩
  · exact Or.inr ⟨failure, _, report, read, ran,
      (Passes.refl mirrors guards).note settings (failureNotices failure report), status, position,
      rfl⟩

/-- A document is rendered as its outline is evaluated, and its chain is gone
afterwards. -/
theorem document_evaluates (idle : Idle meaning world state) (source : String) :
    ∃ after, Yields (fun fuel => document settings fuel world source)
        ((Evaluation.document settings meaning state source).1, after) ∧
      Idle meaning after (Evaluation.document settings meaning state source).2 := by
  rcases parse_passes settings idle.mirrors source with
    ⟨forest, parsed, head, ids, read, ran, passes, planted, proper, context, new⟩ |
    ⟨failure, parsed, report, read, ran, passes, status, position, _⟩
  · have guards : parsed.Guards (· ∈ ids) := by
      refine ⟨planted.enclosed, planted.inside, fun chain cached member => ?_⟩
      rw [context] at cached
      exact absurd cached (idle.mirrors.fresh (empty_guards world) (new chain member)).1
    have scene : Scene settings meaning parsed (· ∈ ids) state [] settings.maxDepth.toNat := by
      obtain ⟨mirrors, speaks, expands, pins, depth⟩ := idle.passed passes
      refine ⟨mirrors, guards, speaks, expands, ?_⟩
      simp [depth]
    obtain ⟨rendered, yields, renders⟩ := render_realizes settings meaning _ _ _ _ _ _ _ _ _ _
      scene planted (fun _ member => member) proper
    have idleAfter := (idle.passed passes).passed renders
    have stands := planted.kept renders.undisturbed.cells
    -- The chain of the document is guarded and nothing is pinned, so it is not cached.
    have uncached : head ∉ rendered.context.chains := by
      intro cached
      have pinned := renders.guards.pinned head cached planted.start_links.1
      simp [Context.isPinned, idleAfter.pins] at pinned
    have gone := destroyAll_passes renders.mirrors (empty_guards rendered) stands uncached id
    refine ⟨rendered.destroyAll (some head), yields.together yields fun fuel rendersTo _ => ?_, ?_⟩
    · simp [document, ran, rendersTo, Evaluation.document, read]
    · simp only [Evaluation.document, read]
      exact idleAfter.passed gone
  · refine ⟨parsed, .now fun fuel => ?_, ?_⟩
    · simp [document, ran, Evaluation.document, read, status, position]
    · simp only [Evaluation.document, read]
      exact idle.passed passes

theorem documents_evaluate (idle : Idle meaning world state) (sources : List String) :
    ∃ after, Yields (fun fuel => documents settings fuel world sources)
        ((Evaluation.documents settings meaning state sources).1, after) ∧
      Idle meaning after (Evaluation.documents settings meaning state sources).2 := by
  induction sources generalizing world state with
  | nil => exact ⟨world, .now fun _ => rfl, idle⟩
  | cons source rest ih =>
      obtain ⟨between, yields, idleBetween⟩ := document_evaluates settings idle source
      obtain ⟨after, others, idleAfter⟩ := ih idleBetween
      refine ⟨after, yields.together others fun fuel ran ranOthers => ?_, idleAfter⟩
      simp [documents, ran, ranOthers, Evaluation.documents]

theorem parsedHead_of_grown (mirrors : world.Mirrors state) {first last : Option Int}
    {source : String} {grown : Store} {head : ElementId} {forest : Forest} {ids : List ElementId}
    {notices : List Notice}
    (ran : world.parse settings source first last =
      .ok (.ok head, note settings notices { world with store := grown }))
    (grows : Grown world.store grown (some head) forest ids) :
    ∃ parsed, world.parsedHead settings source first last = .ok (some head, parsed) ∧
      Passes world parsed (fun _ => False) state ∧
      parsed.store.Planted none none (some head) forest ids ∧ parsed.context = world.context :=
  ⟨_, by simp [parsedHead, ran],
    (grow_passes mirrors (empty_guards world) grows).note settings notices, grows.planted, rfl⟩

theorem parsedHead_of_report (mirrors : world.Mirrors state) {first last : Option Int}
    {source : String} {report : Report} {notices : List Notice}
    (ran : world.parse settings source first last =
      .ok (.error report, note settings notices world)) :
    ∃ parsed, world.parsedHead settings source first last = .ok (none, parsed) ∧
      Passes world parsed (fun _ => False) state ∧
      parsed.store.Planted none none none .nil [] ∧ parsed.context = world.context :=
  ⟨_, by simp [parsedHead, ran],
    (Passes.refl mirrors (empty_guards world)).note settings notices, .nil none none, rfl⟩

/-- A range is parsed into the chain of its excerpt, which stands by itself, or there is
none. -/
theorem excerpt_passes (mirrors : world.Mirrors state) (source : String) (first last : Option Int)
    (inside : settings.errorChecks = false → InRange source first last) :
    ∃ parsed start ids, world.parsedHead settings source first last = .ok (start, parsed) ∧
      Passes world parsed (fun _ => False) state ∧
      parsed.store.Planted none none start
        (Evaluation.excerpt settings.errorChecks source first last) ids ∧
      (Evaluation.excerpt settings.errorChecks source first last).Proper ∧
      parsed.context = world.context ∧ ∀ id ∈ ids, world.store.size ≤ id := by
  by_cases valid : InRange source first last
  · by_cases empty : (Source.ofString source).size = 0
    · have grows := add_grown world.store ⟨.text, some "", {}⟩
      have proper : Node.Proper ⟨.text, some "", {}⟩ := ⟨rfl, fun noText => absurd rfl noText⟩
      have ran : world.parse settings source first last = .ok (.ok world.store.size,
          note settings [] { world with store := world.store.add ⟨.text, some "", {}⟩ }) := by
        simp [World.parse, Store.parse, empty]
      obtain ⟨parsed, headed, passes, planted, context⟩ :=
        parsedHead_of_grown settings mirrors ran grows
      rw [Evaluation.excerpt_empty empty]
      exact ⟨parsed, _, _, headed, passes, planted, ⟨proper, fun _ => rfl, trivial, trivial⟩,
        context, grows.fresh⟩
    · have within := valid.resolve_left empty
      rw [Evaluation.excerpt_inside empty valid]
      simp only [rangeValid, Bool.and_eq_true, decide_eq_true_eq] at within
      rcases span_cases settings world source first last ⟨(first.getD 0).toNat,
          (last.getD ((Source.ofString source).size - 1) + 1).toNat⟩ (by simp only; omega)
          (by simp only; omega) (by simp only; omega) (by simp only; omega) with
        ⟨forest, grown, ids, read, ran, grows, proper⟩ | ⟨failure, report, read, ran, _⟩
      · obtain ⟨parsed, headed, passes, planted, context⟩ :=
          parsedHead_of_grown settings mirrors ran grows
        rw [read]
        exact ⟨parsed, _, ids, headed, passes, planted, proper, context, grows.fresh⟩
      · obtain ⟨parsed, headed, passes, planted, context⟩ :=
          parsedHead_of_report settings mirrors ran
        rw [read]
        exact ⟨parsed, none, [], headed, passes, planted, trivial, context, by simp⟩
  · -- The range is refused, since there are checks.
    have checks : settings.errorChecks = true := by
      by_contra unchecked
      exact valid (inside (by simpa using unchecked))
    have ran : ∃ report notices, world.parse settings source first last =
        .ok (.error report, note settings notices world) := by
      simp only [World.parse, checks, parse_outside world.store valid, ok_bind]
      exact ⟨_, _, rfl⟩
    obtain ⟨report, notices, ran⟩ := ran
    obtain ⟨parsed, headed, passes, planted, context⟩ :=
      parsedHead_of_report settings mirrors ran
    rw [checks, Evaluation.excerpt_outside valid]
    exact ⟨parsed, none, [], headed, passes, planted, trivial, context, by simp⟩

/-- An initial value is parsed into a chain that stands by itself, new and not yet
cached. -/
theorem initial_parses (mirrors : world.Mirrors state) (value : Initial settings) :
    ∃ parsed start ids,
      (∀ name readOnly, world.setVariableText settings name value.source readOnly value.first
        value.last = .ok (parsed.setVariable settings name start readOnly)) ∧
      Passes world parsed (fun _ => False) state ∧
      parsed.store.Planted none none start (Evaluation.initialForest value) ids ∧
      (Evaluation.initialForest value).Proper ∧ parsed.context = world.context ∧
      ∀ id ∈ ids, world.store.size ≤ id := by
  obtain ⟨_, source, _, first, last, inside⟩ := value
  cases source with
  | none =>
      exact ⟨world, none, [], fun _ _ => rfl, .refl mirrors (empty_guards world), .nil none none,
        trivial, rfl, by simp⟩
  | some source =>
      obtain ⟨parsed, start, ids, ran, rest⟩ := excerpt_passes settings mirrors source first last
        fun unchecked => inside unchecked source rfl
      exact ⟨parsed, start, ids, fun name readOnly => by simp [setVariableText, ran], rest⟩

theorem setVariableText_idle (idle : Idle meaning world state) (value : Initial settings) :
    ∃ status after, world.setVariableText settings value.name value.source value.readOnly
        value.first value.last = .ok (status, after) ∧
      Idle meaning after (if settings.errorChecks && !value.name.any isName then state
        else state.put value.name ⟨Evaluation.initialForest value, value.readOnly⟩) := by
  obtain ⟨parsed, start, ids, ran, passes, planted, proper, context, new⟩ :=
    initial_parses settings idle.mirrors value
  rw [ran]
  have idleParsed := idle.passed passes
  by_cases refused : (settings.errorChecks && !value.name.any isName) = true
  · rw [if_pos refused]
    obtain ⟨checks, invalid⟩ := Bool.and_eq_true_iff.mp refused
    have result : parsed.setVariable settings value.name start value.readOnly =
        (.invalidParameter, note settings [.variableNameInvalid (shown value.name)] parsed) := by
      simp only [setVariable, cacheRefusal, checks, invalid, if_true]
    rw [result]
    exact ⟨_, _, rfl, idle.passed (passes.note settings _)⟩
  · rw [if_neg refused]
    have named : settings.errorChecks = true → value.name.any isName = true := by
      intro checks
      simpa [checks] using refused
    have fresh : ∀ head, start = some head → head ∉ parsed.context.chains ∧
        head ∉ parsed.context.retired ∧ ¬ False := by
      rintro head rfl
      rw [context]
      exact idle.mirrors.fresh (empty_guards world) (new head planted.start_links.1)
    obtain ⟨after, takes, set⟩ := setVariable_passes passes.mirrors passes.guards proper planted
      fresh value.name value.readOnly settings named
    rw [takes]
    exact ⟨_, _, rfl, idleParsed.passed set⟩

theorem setAll_idle (idle : Idle meaning world state) (initial : List (Initial settings)) :
    ∃ after, world.setAll settings initial = .ok after ∧
      Idle meaning after (Evaluation.setAll settings state initial) := by
  induction initial generalizing world state with
  | nil => exact ⟨world, rfl, idle⟩
  | cons value rest ih =>
      obtain ⟨status, between, ran, idleBetween⟩ := setVariableText_idle settings idle value
      obtain ⟨after, others, idleAfter⟩ := ih idleBetween
      refine ⟨after, ?_, idleAfter⟩
      rw [setAll, ran, ok_bind, others]

theorem Mirrors.listing (mirrors : world.Mirrors state) :
    world.listing = state.entries.map fun entry =>
      (entry.1, some entry.2.forest, entry.2.readOnly) := by
  have pairs : ∀ entries cells, List.Forall₂ (Shows world.store) entries cells →
      (entries.map fun entry => (entry.1, world.store.forest? entry.2.chain, entry.2.readOnly)) =
        cells.map fun cell => (cell.1, some cell.2.forest, cell.2.readOnly) := by
    intro entries cells all
    induction all with
    | nil => rfl
    | cons shows _ ih =>
        obtain ⟨ids, planted⟩ := shows.stands
        rw [List.map_cons, List.map_cons, ih, shows.key, shows.flag, planted.forest?]
  exact pairs _ _ mirrors.cached

end Steps

theorem stocked_idle (settings : Settings) (set : Option CommandSet) :
    Idle (Evaluation.meaningOf set) (stocked settings set) {} := by
  have empty : ∀ commands, ({ context := { commands } } : World).Mirrors {} := fun commands =>
    ⟨empty_sound.linked, .nil, List.nodup_nil, by simp⟩
  cases set with
  | none => exact ⟨empty _, fun name => Or.inl ⟨rfl, rfl⟩, rfl, rfl, rfl⟩
  | some set =>
      have speaks := set.speaks settings {} rfl
      rw [CommandSet.addTo_eq] at speaks
      rw [stocked, CommandSet.addTo_eq]
      exact ⟨empty _, speaks, rfl, rfl, rfl⟩

/-- With enough fuel the outputs and the final cache are those of the evaluation,
for every depth, every command set, every initial cache and all sources. -/
theorem session_evaluates (settings : Settings) (set : Option CommandSet)
    (initial : List (Initial settings)) (sources : List String) :
    ∃ bound, ∀ fuel, bound ≤ fuel →
      session settings set initial sources fuel =
        some (Evaluation.session settings set initial sources) := by
  obtain ⟨world, ran, idle⟩ := setAll_idle settings (stocked_idle settings set) initial
  obtain ⟨after, ⟨bound, enough⟩, idleAfter⟩ := documents_evaluate settings idle sources
  refine ⟨bound, fun fuel more => ?_⟩
  simp only [session, ran, Evaluation.session]
  simp [enough fuel more, idleAfter.mirrors.listing]

-- A value that is replaced while it is rendered is rendered to its end.
example : (session {} none [.whole (some "v") (some "1\x7b\x7bv$ 2\x7d\x7d3") true]
    ["\x7b\x7bv$\x7d\x7d", "\x7b\x7bv$\x7d\x7d"] 20).map Prod.fst =
      some [.ok "123", .ok "2"] := by
  decide +kernel

end World

end Stencil
