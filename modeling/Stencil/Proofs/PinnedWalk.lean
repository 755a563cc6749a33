import Stencil.Proofs.RootedEvaluation
import Stencil.Proofs.TakenChains

/-!
Walks along pinned chains. A walk goes on from each element along its link as that
is once the element was rendered. A pinned chain loses no element to an assignment,
and what was ahead in it stays ahead if scripts take no element out; so the walk
renders every sibling that was there when it began, in their order. A bare
reference pins the chain that it renders. A walk that began without a pin loses
its chain when the variable is assigned on the way.
-/

namespace Stencil

namespace Store

open Relation

def Ahead (store : Store) (id : ElementId) : List ElementId → Prop
  | [] => True
  | next :: rest => TransGen store.Follows id next ∧ store.Ahead next rest

section Ahead

variable {store changed : Store} {head id next : ElementId} {rest : List ElementId}

theorem Ahead.continue (ahead : store.Ahead id rest) (continues : Continues store changed head)
    (onward : store.Onward head id) : changed.Ahead id rest := by
  induction rest generalizing id with
  | nil => trivial
  | cons next rest ih =>
      obtain ⟨later, others⟩ := ahead
      exact ⟨continues.later onward later, ih others (onward.trans later.to_reflTransGen)⟩

theorem Ahead.last (ahead : store.Ahead id rest) (noNext : store.next id = none) : rest = [] := by
  cases rest with
  | nil => rfl
  | cons next rest =>
      obtain ⟨after, step, _⟩ := TransGen.head'_iff.mp ahead.1
      rw [Follows, noNext] at step
      cases step

theorem Ahead.step (ahead : store.Ahead id rest) (isNext : store.next id = some next) :
    (∃ others, rest = next :: others ∧ store.Ahead next others) ∨ store.Ahead next rest := by
  cases rest with
  | nil => exact Or.inr trivial
  | cons first others =>
      obtain ⟨after, step, onward⟩ := TransGen.head'_iff.mp ahead.1
      obtain rfl := Option.some.inj (isNext.symm.trans step)
      rcases reflTransGen_iff_eq_or_transGen.mp onward with same | later
      · exact Or.inl ⟨others, by rw [same], same ▸ ahead.2⟩
      · exact Or.inr ⟨later, ahead.2⟩

theorem visit_ahead (store : Store) (id : ElementId) :
    ∃ rest, (store.visit (some id)).1 = id :: rest ∧ store.Ahead id rest := by
  unfold visit
  generalize store.size = count
  induction count generalizing id with
  | zero =>
      refine ⟨[], ?_, trivial⟩
      cases next : store.next id <;> simp [visitFor, next]
  | succ count ih =>
      cases next : store.next id with
      | none => exact ⟨[], by simp [visitFor, next], trivial⟩
      | some after =>
          obtain ⟨rest, visits, ahead⟩ := ih after
          refine ⟨after :: rest, ?_, .single next, ahead⟩
          rw [visitFor, next, ← visits]

end Ahead

end Store

namespace World

open Store Relation

/-- Elements are rendered one after the other, each in the world that the one before
it left. -/
inductive InTurn (settings : Settings) : World → List ElementId → String → World → Prop where
  | nil (world : World) : InTurn settings world [] "" world
  | cons {fuel : Nat} {world between after : World} {id : ElementId} {rest : List ElementId}
      {text output : String} (one : renderOne settings fuel world id = some (.ok text, between))
      (others : InTurn settings between rest output after) :
      InTurn settings world (id :: rest) (text ++ output) after

/-- No assignment in a walk along the chain releases an element of it, and if scripts
take none out, the walk renders in their order all siblings that it began with. -/
structure WholeWalk (settings : Settings) (fuel : Nat) (world : World) (chain : ElementId) :
    Prop where
  spared : ∀ {left : Nat} {between after : World} {name : Option String} {variableId : ElementId},
    During settings ⟨fuel, world, .follow chain true⟩ ⟨left, between, .assign name variableId⟩ →
    between.cacheCopy settings name (between.store.child variableId) = some after →
      Spares between.store after.store chain
  whole : world.context.Conserves → ∀ {output : String} {after : World},
    renderFrom settings fuel world chain true = some (.ok output, after) →
      ∃ ids, (world.store.visit (some chain)).1.Sublist ids ∧
        InTurn settings world ids output after

section Walks

variable {settings : Settings} {fuel : Nat} {world : World} {chain : ElementId}

theorem renderOne_ahead {id : ElementId} {ahead : List ElementId} {rendered : Rendered}
    (found : Walked True (· = chain) world) (onward : world.store.Onward chain id)
    (isAhead : world.store.Ahead id ahead)
    (one : renderOne settings fuel world id = some rendered) :
    Walked True (· = chain) rendered.2 ∧ rendered.2.store.Onward chain id ∧
      rendered.2.store.Ahead id ahead := by
  have sequel : Sequel True world rendered.2 :=
    (sequel_upheld settings True (· = chain)).keeps_through fuel world (.one id) rendered.2 found
      trivial (by simp [Stage.after, one])
  have continues := sequel.continues trivial found.rooted chain (found.pinned chain rfl)
    (found.roots chain rfl)
  exact ⟨sequel.walked found, continues.onward onward, isAhead.continue continues onward⟩

/-- A walk along a chain meets what is ahead of it, whatever comes between. -/
theorem renderFrom_meets {id : ElementId} {ahead : List ElementId} {output : String}
    {after : World} (found : Walked True (· = chain) world)
    (onward : world.store.Onward chain id) (isAhead : world.store.Ahead id ahead)
    (ran : renderFrom settings fuel world id true = some (.ok output, after)) :
    ∃ ids, ahead.Sublist ids ∧ InTurn settings world (id :: ids) output after := by
  induction fuel generalizing world id ahead output with
  | zero => simp [renderFrom] at ran
  | succ fuel ih =>
      simp only [renderFrom, if_true] at ran
      obtain ⟨⟨rendered, between⟩, one, rest⟩ := Option.bind_eq_some_iff.mp ran
      obtain ⟨found, onward, isAhead⟩ := renderOne_ahead found onward isAhead one
      cases rendered with
      | error fault => cases rest
      | ok text =>
          simp only at rest
          split at rest
          · rename_i noNext
            cases rest
            rw [isAhead.last noNext]
            have last := InTurn.cons one (.nil after)
            exact ⟨[], .refl [], by rwa [String.append_empty] at last⟩
          · rename_i next isNext
            obtain ⟨⟨later, final⟩, follows, done⟩ := Option.bind_eq_some_iff.mp rest
            obtain ⟨isOutput, rfl⟩ := Prod.mk.inj (Option.some.inj done)
            cases later with
            | error fault => cases isOutput
            | ok more =>
                cases isOutput
                have here : between.store.Onward chain next := onward.tail isNext
                rcases isAhead.step isNext with ⟨others, rfl, behind⟩ | behind
                · obtain ⟨ids, sub, each⟩ := ih found here behind follows
                  exact ⟨next :: ids, sub.cons_cons next, .cons one each⟩
                · obtain ⟨ids, sub, each⟩ := ih found here behind follows
                  exact ⟨next :: ids, sub.cons next, .cons one each⟩

theorem Rooted.wholeWalk (rooted : world.Rooted) (root : world.store.Root chain)
    (pinned : world.context.isPinned chain = true) : WholeWalk settings fuel world chain where
  spared := by
    intro left between after name variableId during copied
    have found : Walked False (· = chain) world :=
      ⟨rooted, by simpa using root, by simpa using pinned, False.elim⟩
    have here := ((sequel_upheld settings False (· = chain)).during during found trivial).1
    exact (cacheCopy_upkept here.rooted copied).spares chain (here.pinned chain rfl)
      (here.roots chain rfl)
  whole := by
    intro conserves output after ran
    have found : Walked True (· = chain) world :=
      ⟨rooted, by simpa using root, by simpa using pinned, fun _ => conserves⟩
    obtain ⟨rest, visits, ahead⟩ := visit_ahead world.store chain
    obtain ⟨ids, sub, renders⟩ := renderFrom_meets found .refl ahead ran
    exact ⟨chain :: ids, visits ▸ sub.cons_cons chain, renders⟩

/-- In an evaluation of a rooted world, every walk along a cached chain is whole if
the chain is pinned when it begins; a bare reference to the variable pins it. -/
theorem pinned_walk_whole (settings : Settings) (fuel : Nat) {world : World}
    (rooted : world.Rooted) (start : Option ElementId) (toEnd : Bool) :
    (∀ left between chain name,
      During settings ⟨fuel, world, .render start toEnd⟩ ⟨left, between, .follow chain true⟩ →
      between.context.chainOf name = some chain → between.context.isPinned chain = true →
        WholeWalk settings left between chain) ∧
    ∀ left between chain name,
      During settings ⟨fuel, world, .render start toEnd⟩ ⟨left + 2, between, .value name⟩ →
      between.context.chainOf name = some chain →
        WholeWalk settings left (between.enterPin name (some chain)).deeper chain := by
  have upheld := sequel_upheld settings False fun _ => False
  have found : Walked False (fun _ => False) world :=
    ⟨rooted, fun _ => False.elim, fun _ => False.elim, False.elim⟩
  constructor
  · intro left between chain name during cached pinned
    have here := (upheld.during during found trivial).1.rooted
    exact here.wholeWalk (here.roots chain (Or.inl (mem_chains_of_chainOf cached))) pinned
  · intro left between chain name during cached
    have here := (upheld.during during found trivial).1.rooted
    have entered : (between.enterPin name (some chain)).deeper.Rooted := ⟨here.linked, here.roots⟩
    apply entered.wholeWalk (here.roots chain (Or.inl (mem_chains_of_chainOf cached)))
    simp [World.deeper, World.enterPin, World.withContext, Context.enter, Context.isPinned]

theorem setVariable_destroys {name : Option String} {offered : Option ElementId} (readOnly : Bool)
    (accepted : (if settings.errorChecks then world.cacheRefusal name offered else none) = none)
    (cached : world.context.chainOf name = some chain) (different : offered ≠ some chain)
    (unpinned : world.context.isPinned chain = false) :
    (world.setVariable settings name offered readOnly).2.store =
      world.store.destroyAll (some chain) := by
  simp [setVariable, accepted, retirePrevious, cached, different, retire, unpinned, withContext,
    destroyAll]

/-- An assignment to a variable whose chain is not pinned releases the whole chain,
whoever is walking along it. -/
theorem cacheCopy_releases {name : Option String} {start : Option ElementId} {after : World}
    (rooted : world.Rooted) (acyclic : world.store.Acyclic)
    (cached : world.context.chainOf name = some chain)
    (unpinned : world.context.isPinned chain = false)
    (named : settings.errorChecks = true → name.any isName = true)
    (copied : world.cacheCopy settings name start = some after) {id : ElementId}
    (reached : world.store.Reached [chain] id) : after.store.Bare id := by
  have root := rooted.roots chain (Or.inl (mem_chains_of_chainOf cached))
  obtain ⟨forest, ids, planted⟩ := rooted.linked.exists_planted acyclic chain root.inside
  rw [root.parent, root.prev] at planted
  unfold cacheCopy at copied
  split at copied
  · cases copied
  · rename_i store head ran
    cases copied
    obtain ⟨copy, _, plants⟩ := copyAll_cases ran
    have grows := plant_grown world.store copy
    rw [plants] at grows
    have stands : store.Stands chain ids :=
      Stands.kept ⟨forest, planted⟩ fun id member => grows.kept id (planted.inside id member)
    -- The copy is new, so it is not the chain that the variable has.
    have different : head ≠ some chain := by
      rintro rfl
      exact Nat.not_lt_of_le (grows.fresh chain grows.planted.start_links.1) root.inside
    have released : (setVariable settings { world with store } name head
        (world.context.readOnly name)).2.store = store.destroyAll (some chain) :=
      setVariable_destroys _ (cacheRefusal_none grows.planted name settings named) cached different
        unpinned
    rw [released]
    have clears := stands.elim fun _ planted => destroyAll_standing planted
    exact clears.bare (planted.reached_iff.mp reached)

end Walks

/-- What "1\x7b\x7bv$ 2\x7d\x7d3" is parsed into, and a bare reference to "v". -/
def reassigning : World where
  store := ⟨#[{ kind := .text, text := some "1", next := some 1 },
    { kind := .variable, text := some "v", prev := some 0, next := some 3, child := some 2 },
    { kind := .text, text := some "2", parent := some 1 },
    { kind := .text, text := some "3", prev := some 1 },
    { kind := .variable, text := some "v" }]⟩
  context := { cache := ⟨[(some "v", ⟨some 0, false⟩)]⟩ }

theorem reassigning_rooted : reassigning.Rooted := by
  let value : Forest := .cons ⟨.text, some "1", {}⟩ .nil (.cons ⟨.variable, some "v", {}⟩
    (.cons ⟨.text, some "2", {}⟩ .nil .nil) (.cons ⟨.text, some "3", {}⟩ .nil .nil))
  let reference : Forest := .cons ⟨.variable, some "v", {}⟩ .nil .nil
  have linked := grown_linked (plant_grown {} value) empty_sound.linked
  have same : reassigning.store = (plant (plant {} none none value).1 none none reference).1 := by
    decide +kernel
  refine ⟨same ▸ grown_linked (plant_grown _ reference) linked, fun chain known => ?_⟩
  have isFirst : chain = 0 := by
    rcases known with cached | retired
    · simpa [Context.chains, reassigning] using cached
    · cases retired
  exact isFirst ▸ ⟨by decide, by rfl, by rfl⟩

/-- A reference renders the whole chain though the variable is assigned on the way,
and so does a walk along the chain under another pin. -/
theorem pinned_walk_whole_reassigned :
    let referred := (reassigning.deeper.enterPin (some "v") (some 0)).deeper
    let held := reassigning.enterPin (some "w") (some 0)
    (∃ after ids, renderFrom {} 9 referred 0 true = some (.ok "123", after) ∧
      [0, 1, 3].Sublist ids ∧ InTurn {} referred ids "123" after) ∧
    ∃ after ids, renderFrom {} 11 held.deeper 0 true = some (.ok "123", after) ∧
      [0, 1, 3].Sublist ids ∧ InTurn {} held.deeper ids "123" after := by
  intro referred held
  constructor
  · have begins : During {} ⟨14, reassigning, .render (some 4) true⟩
        ⟨11, reassigning.deeper, .value (some "v")⟩ :=
      ((Relation.ReflTransGen.single (.render (by decide))).tail .one).tail
        (.value (by rfl) (by rfl))
    have walk := (pinned_walk_whole {} 14 reassigning_rooted (some 4) true).2 9 _ 0 (some "v")
      begins (by rfl)
    have ran : (renderFrom {} 9 referred 0 true).map Prod.fst = some (.ok "123") := by rfl
    obtain ⟨⟨_, after⟩, renders, rfl⟩ := Option.map_eq_some_iff.mp ran
    obtain ⟨ids, meets, each⟩ := walk.whole (by rintro _ ⟨⟩) renders
    exact ⟨after, ids, renders, meets, each⟩
  · have rooted : held.Rooted := ⟨reassigning_rooted.linked, reassigning_rooted.roots⟩
    have begins : During {} ⟨12, held, .render (some 0) true⟩ ⟨11, held.deeper, .follow 0 true⟩ :=
      Relation.ReflTransGen.single (.render (by decide))
    have walk := (pinned_walk_whole {} 12 rooted (some 0) true).1 11 held.deeper 0 (some "v")
      begins (by rfl) (by rfl)
    have ran : (renderFrom {} 11 held.deeper 0 true).map Prod.fst = some (.ok "123") := by rfl
    obtain ⟨⟨_, after⟩, renders, rfl⟩ := Option.map_eq_some_iff.mp ran
    obtain ⟨ids, meets, each⟩ := walk.whole (by rintro _ ⟨⟩) renders
    exact ⟨after, ids, renders, meets, each⟩

/-- Without a pin, the assignment releases the chain that is being walked, and the
walk ends before the sibling behind it. -/
theorem direct_walk_cut :
    reassigning.context.chainOf (some "v") = some 0 ∧
      (reassigning.store.visit (some 0)).1 = [0, 1, 3] ∧
      (∃ after, render {} 12 reassigning (some 0) true = some (.ok "12", after) ∧
        after.store.next 0 = none ∧ after.store.next 1 = none) ∧
      ¬ WholeWalk {} 11 reassigning.deeper 0 := by
  refine ⟨by rfl, by rfl, ?_, fun walk => ?_⟩
  · have ran : (render {} 12 reassigning (some 0) true).map
        (fun rendered => (rendered.1, rendered.2.store.next 0, rendered.2.store.next 1)) =
          some (.ok "12", none, none) := by rfl
    obtain ⟨⟨_, after⟩, renders, facts⟩ := Option.map_eq_some_iff.mp ran
    obtain ⟨rfl, cut⟩ := Prod.mk.inj facts
    exact ⟨after, renders, Prod.mk.inj cut⟩
  · have body : render {} 8 reassigning.deeper (some 2) true =
        some (.ok "2", reassigning.deeper) := by rfl
    have assigning : Begins {} ⟨9, reassigning.deeper, .one 1⟩
        ⟨8, reassigning.deeper, .assign (some "v") 1⟩ := .assign (by rfl) (by rfl) body
    have during : During {} ⟨11, reassigning.deeper, .follow 0 true⟩
        ⟨8, reassigning.deeper, .assign (some "v") 1⟩ :=
      ((Relation.ReflTransGen.single (.next (by rfl) (by rfl))).tail .one).tail assigning
    have assigns : (reassigning.deeper.cacheCopy {} (some "v")
        (reassigning.deeper.store.child 1)).map (fun after => after.store.next 0) = some none := by
      rfl
    obtain ⟨after, copied, cut⟩ := Option.map_eq_some_iff.mp assigns
    have spared := walk.spared during copied 0 (reached_single.mpr .refl)
    have still : after.store.next 0 = some 1 := (links_of_get? spared).1
    rw [cut] at still
    cases still

end World

end Stencil
