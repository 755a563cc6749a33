import Stencil.Proofs.BoundedEvaluation
import Stencil.Proofs.DocumentWalk

/-!
One document behind another. If nothing meets at the seam of two sources, the source of
both parses to the first chain with the second behind it. It renders to the output of the
first document and then that of the second, and leads to the same store and context: to
the same cache. All of it goes for any context with the commands of a set, whatever it
has cached, pinned, retired or marked as expanding, and for every depth.
-/

namespace Stencil

namespace Forest

theorem variableNames_append (forest other : Forest) :
    (forest ++ other).variableNames = forest.variableNames ++ other.variableNames := by
  change (append forest other).variableNames = _
  induction forest with
  | nil => rfl
  | cons node body rest _ ih => simp [append, variableNames, ih]

theorem height_append (forest other : Forest) :
    (forest ++ other).height = max forest.height other.height := by
  change (append forest other).height = _
  induction forest with
  | nil => simp [append, height]
  | cons node body rest _ ih => simp [append, height, ih, Nat.max_assoc]

end Forest

namespace World

open Store

section Render

variable {settings : Settings} {world between after : World} {region : ElementId → Prop}
variable {start next joined : ElementId} {output otherOutput : String}
variable {forest other : Forest}

/-- To render a chain is to walk along it one level deeper. -/
theorem render_iff (left : ¬ settings.maxDepth ≤ world.context.depth) :
    Yields (fun fuel => render settings fuel world (some start) true) (.ok output, after) ↔
      ∃ inner, Walks settings world.deeper (some start) output inner ∧ after = inner.shallower := by
  constructor
  · intro yields
    obtain ⟨fuel, ran⟩ := yields.ran
    simp only [render, if_neg left] at ran
    obtain ⟨⟨answer, inner⟩, follows, done⟩ := Option.bind_eq_some_iff.mp ran
    cases done
    exact ⟨inner, renderFrom_yields follows, rfl⟩
  · rintro ⟨inner, walks, rfl⟩
    refine Yields.next walks fun fuel ran => ?_
    simp [render, if_neg left, ran]

theorem render_reached (reached : settings.maxDepth ≤ world.context.depth) :
    Yields (fun fuel => render settings fuel world (some start) true)
      (.ok "", note settings [.depthReached settings.maxDepth] world) :=
  .now fun fuel => by simp [render, reached]

theorem deeper_shallower (deep : 0 < world.context.depth) : world.shallower.deeper = world := by
  obtain ⟨store, context, log⟩ := world
  simp only [shallower, deeper, withContext, Nat.sub_add_cancel deep]

/-- Two chains that are rendered one after the other render like the joined chain. -/
theorem render_join (aloof : Aloof region world) (seamless : Seamless forest other)
    (filled : other ≠ .nil) (lies : world.store.Lies region (some start) forest)
    (otherLies : world.store.Lies region (some next) other)
    (joinedLies : world.store.Lies region (some joined) (forest.join other))
    (renders : Yields (fun fuel => render settings fuel world (some start) true)
      (.ok output, between))
    (otherRenders : Yields (fun fuel => render settings fuel between (some next) true)
      (.ok otherOutput, after)) :
    ∃ behind, Yields (fun fuel => render settings fuel world (some joined) true)
        (.ok (output ++ otherOutput), behind) ∧
      behind.store = after.store ∧ behind.context = after.context := by
  by_cases reached : settings.maxDepth ≤ world.context.depth
  · -- Nothing is rendered, and there is one notice in place of two.
    obtain ⟨isOutput, rfl⟩ := Prod.mk.inj (renders.unique (render_reached reached))
    obtain ⟨isOther, rfl⟩ := Prod.mk.inj (otherRenders.unique (render_reached reached))
    obtain rfl := Except.ok.inj isOutput
    obtain rfl := Except.ok.inj isOther
    exact ⟨_, render_reached reached, rfl, rfl⟩
  · obtain ⟨inner, walks, rfl⟩ := (render_iff reached).mp renders
    have deeper : Aloof region world.deeper := aloof.of_context rfl (fun _ known => known) rfl
    obtain ⟨fuel, ran⟩ := walks.ran
    have left := (untouched_upheld region settings).keeps_through (fuel + 1) world.deeper
      (.follow start true) inner deeper trivial (by simp [Stage.after, ran])
    have depth : inner.context.depth = world.context.depth + 1 := left.orderly.depth
    have again : inner.shallower.deeper = inner := deeper_shallower (by omega)
    have same : inner.shallower.context.depth = world.context.depth := by
      change inner.context.depth - 1 = _
      omega
    obtain ⟨last, otherWalks, rfl⟩ := (render_iff (same ▸ reached)).mp otherRenders
    rw [again] at otherWalks
    have both := walks_join deeper seamless filled lies otherLies joinedLies walks otherWalks
    exact ⟨_, (render_iff reached).mpr ⟨last, both, rfl⟩, rfl, rfl⟩

end Render

section Documents

variable {names : Finset (Option String)} {height : Nat} {world after : World}

theorem Shallow.grown (shallow : Shallow names height world)
    (context : after.context = world.context) {start : Option ElementId} {forest : Forest}
    {ids : List ElementId} (grows : Grown world.store after.store start forest ids) :
    Shallow names height after := by
  refine ⟨grown_linked grows shallow.linked, fun name chain isChain => ?_,
    context ▸ shallow.commands⟩
  obtain ⟨known, nests⟩ := shallow.cached name chain (context ▸ isChain)
  exact ⟨known, nests.trims grows.trims⟩

theorem Shallow.renders (shallow : Shallow names height world) (settings : Settings)
    (worded : world.store.Worded) {start : Option ElementId}
    (nests : world.store.Nests (· ∈ names) height start) :
    ∃ output after, Yields (fun fuel => render settings fuel world start true)
      (.ok output, after) ∧ Bounded names height world after := by
  have room := room_of_nests nests
  have decides := decides_one settings.maxDepth (world.context.depth + (names.card + 1) * height)
  have all : ∀ levels, RendersFor settings (· = settings.maxDepth) names height _ levels :=
    render_ends decides
  obtain ⟨⟨answer, after⟩, ends⟩ := all _ world start true shallow room (le_refl _)
  have bounded := bounded_of_ends decides (.render start true) after shallow room ends
    fun settings fuel ran => by simp [Stage.after, ran]
  have yields : Yields (fun fuel => render settings fuel world start true) (answer, after) :=
    ends settings.maxDepth rfl
  obtain ⟨fuel, ran⟩ := yields.ran
  cases answer with
  | ok output => exact ⟨output, after, yields, bounded⟩
  | error fault =>
      obtain ⟨_, stage, during, overlong⟩ :=
        (explained settings _).render world start true _ worded ran fault rfl
      exact absurd overlong (room.not_overlong shallow during)

end Documents

theorem inside_of_forest? {store : Store} {id : ElementId} {forest : Forest}
    (read : store.forest? (some id) = some forest) : id < store.size := by
  have nests : store.Nests (fun _ => True) forest.height (some id) :=
    nests_of_forestFor _ read (le_refl _) fun _ _ => trivial
  exact nests.inside

theorem nests_of_part (world : World) (document : Forest) {store : Store} {part : Forest}
    {start : Option ElementId} (read : store.forest? start = some part)
    (low : part.height ≤ document.height)
    (named : ∀ name ∈ part.variableNames, name ∈ document.variableNames) :
    store.Nests (· ∈ world.names document) (world.height document) start := by
  apply nests_of_forestFor _ read
  · exact le_trans low (List.le_max_of_le' 0 (List.mem_map_of_mem List.mem_cons_self) (le_refl _))
  · intro name member
    simp only [names, List.mem_toFinset, List.mem_append, List.mem_flatMap]
    exact Or.inr ⟨document, List.mem_cons_self, named name member⟩

section Parse

variable {settings : Settings} {world : World} {source : String} {forest : Forest}

theorem parse_of_outline (settings : Settings) (world : World)
    (read : Evaluation.outline source = .ok forest) :
    ∃ head parsed ids, world.parse settings source = .ok (.ok head, parsed) ∧
      Grown world.store parsed.store (some head) forest ids ∧ forest.Proper ∧
      parsed.context = world.context := by
  rcases parse_cases settings world source with
    ⟨found, grown, ids, foundRead, ran, grows, proper⟩ | ⟨_, _, noRead, _⟩
  · cases foundRead.symm.trans read
    exact ⟨_, _, ids, ran, grows, proper, rfl⟩
  · cases noRead.symm.trans read

end Parse

/-- A world where what lies in the region may be rendered: the context knows none of its
elements, and none that is not there yet. -/
structure Ready (names : Finset (Option String)) (height : Nat) (region : ElementId → Prop)
    (world : World) : Prop where
  aloof : Aloof region world
  old : ∀ chain, world.context.Knows chain → chain < world.store.size
  shallow : Shallow names height world
  worded : world.store.Worded

section Ready

variable {names : Finset (Option String)} {height : Nat} {region : ElementId → Prop}
variable {world after : World} {start other : Option ElementId} {forest document : Forest}
variable {ids : List ElementId}

theorem Ready.grown (ready : Ready names height region world)
    (context : after.context = world.context)
    (grows : Grown world.store after.store start forest ids) (worded : forest.Worded) :
    Ready names height (fun id => region id ∨ id ∈ ids) after := by
  have aloof := ready.aloof.grown context grows
  have still : ∀ chain, after.context.Knows chain → chain < world.store.size := fun chain known =>
    ready.old chain (context ▸ known)
  refine ⟨⟨aloof.linked, aloof.enclosed.union grows.planted.enclosed, ?_, ?_, aloof.commands⟩,
    fun chain known => grows.trims.inside (still chain known), ready.shallow.grown context grows,
    ready.worded.grow grows worded⟩
  · rintro id (inside | member)
    · exact aloof.inside id inside
    · exact grows.planted.inside id member
  · rintro chain known (inside | member)
    · exact aloof.apart chain known inside
    · exact Nat.not_lt_of_le (grows.fresh chain member) (still chain known)

theorem Ready.lies_grown (ready : Ready names height region world)
    (grows : Grown world.store after.store start forest ids)
    (lies : world.store.Lies region other document) :
    after.store.Lies (fun id => region id ∨ id ∈ ids) other document := by
  obtain ⟨owner, before, otherIds, planted, inside⟩ := lies.kept fun id inside =>
    grows.kept id (ready.aloof.inside id inside)
  exact ⟨owner, before, otherIds, planted, fun id member => Or.inl (inside id member)⟩

theorem ready_none (document : Forest) (linked : world.store.Linked) (worded : world.store.Worded)
    (tame : Tame world.context.commands)
    (values : ∀ chain ∈ world.context.chains,
      ∃ value, world.store.forest? (some chain) = some value)
    (retired : ∀ chain ∈ world.context.retired, chain < world.store.size) :
    Ready (world.names document) (world.height document) (fun _ => False) world := by
  refine ⟨⟨linked, enclosed_none world.store, fun _ => False.elim, fun _ _ => id, tame⟩,
    fun chain known => ?_, shallow_of_values linked tame values document, worded⟩
  rcases known with cached | gone
  · obtain ⟨value, read⟩ := values chain cached
    exact inside_of_forest? read
  · exact retired chain gone

end Ready

/-- For every two sources that parse and are apart, and every context with the commands of a
set: the source of both parses, its chain is the first chain with the second behind it, and
it renders to the first output with the second behind it. It leads to the store and the
context that the two documents lead to one after the other, and so to the same cache. -/
theorem documents_join (settings : Settings) (set : Option CommandSet)
    {world first second : World} {source other : String} {head next : ElementId}
    (linked : world.store.Linked) (worded : world.store.Worded)
    (commands : world.context.commands = (stocked settings set).context.commands)
    (values : ∀ chain ∈ world.context.chains,
      ∃ value, world.store.forest? (some chain) = some value)
    (retired : ∀ chain ∈ world.context.retired, chain < world.store.size)
    (apart : Text.Apart source.toList other.toList)
    (parses : world.parse settings source = .ok (.ok head, first))
    (otherParses : first.parse settings other = .ok (.ok next, second)) :
    ∃ forest otherForest joined third,
      second.parse settings (source ++ other) = .ok (.ok joined, third) ∧
      first.store.forest? (some head) = some forest ∧
      second.store.forest? (some next) = some otherForest ∧
      third.store.forest? (some joined) = some (forest.join otherForest) ∧
      ∃ output otherOutput between after behind,
        Yields (fun fuel => render settings fuel third (some head) true) (.ok output, between) ∧
        Yields (fun fuel => render settings fuel between (some next) true)
          (.ok otherOutput, after) ∧
        Yields (fun fuel => render settings fuel third (some joined) true)
          (.ok (output ++ otherOutput), behind) ∧
        behind.store = after.store ∧ behind.context = after.context := by
  obtain ⟨forest, ids, read, grows, proper, context⟩ := parse_ok parses
  obtain ⟨otherForest, otherIds, otherRead, otherGrows, otherProper, otherContext⟩ :=
    parse_ok otherParses
  obtain ⟨joined, third, joinedIds, ran, joinedGrows, joinedProper, joinedContext⟩ :=
    parse_of_outline settings second (Outline.read_join apart read otherRead)
  have tame : Tame world.context.commands := commands ▸ stocked_tame settings set
  have ready := ready_none (forest ++ otherForest) linked worded tame values retired
  have one := ready.grown context grows proper.worded
  have two := one.grown otherContext otherGrows otherProper.worded
  have three := two.grown joinedContext joinedGrows joinedProper.worded
  have lies := two.lies_grown joinedGrows (one.lies_grown otherGrows (grows.lies _))
  have otherLies := two.lies_grown joinedGrows (otherGrows.lies _)
  have joinedLies := joinedGrows.lies fun id => (False ∨ id ∈ ids) ∨ id ∈ otherIds
  refine ⟨forest, otherForest, joined, third, ran, grows.planted.forest?,
    otherGrows.planted.forest?, joinedLies.read, ?_⟩
  have nests := nests_of_part world (forest ++ otherForest) lies.read
    (by simp [Forest.height_append]) (by simp +contextual [Forest.variableNames_append])
  have otherNests := nests_of_part world (forest ++ otherForest) otherLies.read
    (by simp [Forest.height_append]) (by simp +contextual [Forest.variableNames_append])
  obtain ⟨output, between, renders, bounded⟩ := three.shallow.renders settings three.worded nests
  obtain ⟨otherOutput, after, otherRenders, _⟩ := (bounded.shallow three.shallow).renders settings
    (bounded.orderly.retains.worded three.worded) (otherNests.trims (bounded.trims three.shallow))
  -- No escape stands across the seam, so both texts lose theirs by themselves.
  have seamless : Seamless forest otherForest := fun _ _ =>
    Outline.unescape_seam apart read otherRead
  have filled : otherForest ≠ .nil :=
    ((Outline.read_settles _ (Nat.le_refl _)).of_ok otherRead).2
  obtain ⟨behind, joinedRenders, sameStore, sameContext⟩ :=
    render_join three.aloof seamless filled lies otherLies joinedLies renders otherRenders
  exact ⟨output, otherOutput, between, after, behind, renders, otherRenders, joinedRenders,
    sameStore, sameContext⟩

def sideBySide (count : Nat) : World where
  store := ⟨List.toArray ([
    { kind := .variable, text := some "v", next := some 1, child := some 2 },
    { kind := .text, text := some "a", prev := some 0 },
    { kind := .text, text := some "1", parent := some 0 },
    { kind := .text, text := some "b", next := some 4 },
    { kind := .variable, text := some "v", prev := some 3 },
    { kind := .variable, text := some "v", next := some 6, child := some 8 },
    { kind := .text, text := some "ab", next := some 7, prev := some 5 },
    { kind := .variable, text := some "v", prev := some 6 },
    { kind := .text, text := some "1", parent := some 5 }].take count)⟩

/-- A value that the first document assigns is there for the second one. -/
theorem documents_join_assigned :
    let forest := Forest.cons ⟨.variable, some "v", {}⟩ (.cons ⟨.text, some "1", {}⟩ .nil .nil)
      (.cons ⟨.text, some "ab", {}⟩ .nil (.cons ⟨.variable, some "v", {}⟩ .nil .nil))
    World.parse {} (sideBySide 5) "\x7b\x7bv$ 1\x7d\x7dab\x7b\x7bv$\x7d\x7d" =
      .ok (.ok 5, sideBySide 9) ∧
    (sideBySide 9).store.forest? (some 5) = some forest ∧
    ∃ between after behind,
      Yields (fun fuel => render {} fuel (sideBySide 9) (some 0) true) (.ok "1a", between) ∧
      Yields (fun fuel => render {} fuel between (some 3) true) (.ok "b1", after) ∧
      Yields (fun fuel => render {} fuel (sideBySide 9) (some 5) true) (.ok "1ab1", behind) ∧
      behind.store = after.store ∧ behind.context = after.context := by
  have apart : Text.Apart "\x7b\x7bv$ 1\x7d\x7da".toList "b\x7b\x7bv$\x7d\x7d".toList := by
    refine ⟨by decide, ?_, ?_⟩
    · rintro c d isLast _ blank
      obtain rfl : 'a' = c := Option.some.inj isLast
      cases blank
    · rintro c isLast brace
      obtain rfl : 'a' = c := Option.some.inj isLast
      cases brace
  have parses : World.parse {} {} "\x7b\x7bv$ 1\x7d\x7da" = .ok (.ok 0, sideBySide 3) := by rfl
  have otherParses : World.parse {} (sideBySide 3) "b\x7b\x7bv$\x7d\x7d" =
      .ok (.ok 3, sideBySide 5) := by rfl
  have joinedParses : World.parse {} (sideBySide 5) "\x7b\x7bv$ 1\x7d\x7dab\x7b\x7bv$\x7d\x7d" =
      .ok (.ok 5, sideBySide 9) := by rfl
  have worded : ({} : World).store.Worded := fun id cell found => by simp [Store.get?] at found
  obtain ⟨_, _, joined, third, ran, _, _, _, output, otherOutput, between, after, behind, renders,
    otherRenders, joinedRenders, same⟩ :=
    documents_join {} none empty_sound.linked worded rfl (by simp [Context.chains]) (by simp) apart
      parses otherParses
  cases joinedParses.symm.trans ran
  have first : output = "1a" := Except.ok.inj (renders.reads 20 fun fuel => by rfl)
  have both : output ++ otherOutput = "1ab1" :=
    Except.ok.inj (joinedRenders.reads 20 fun fuel => by rfl)
  subst first
  obtain rfl : otherOutput = "b1" := (String.append_right_inj "1a").mp both
  exact ⟨joinedParses, by rfl, between, after, behind, renders, otherRenders, joinedRenders, same⟩

end World

end Stencil
