import Stencil.Proofs.ConfinedEdits
import Stencil.Proofs.UncheckedSessions

/-!
Sessions that keep to a region. A host may have a region of the store to itself: no link
leads out of it, what is yet to be made belongs to it, and the context knows no chain that
begins elsewhere. Whatever the host does with elements of the region, it changes nothing
beyond, and the region is the host's own afterwards. It may edit them, put properties,
cache, pin or copy them and have them rendered by scripts of any kind.
-/

namespace Stencil.World

open Store

structure Secluded (region : ElementId → Prop) (world : World) : Prop where
  realm : world.store.Realm region
  knows : ∀ chain, world.context.Knows chain → region chain

structure Stays (region : ElementId → Prop) (world after : World) : Prop where
  confined : Secluded region world → Confined world.store after.store region
  knows : Secluded region world → ∀ chain, after.context.Knows chain → region chain

section Stays

variable {region : ElementId → Prop} {settings : Settings} {world between after : World}
variable {name : Option String} {chain : ElementId}

theorem Stays.secluded (stays : Stays region world after) (secluded : Secluded region world) :
    Secluded region after :=
  ⟨(stays.confined secluded).realm secluded.realm, stays.knows secluded⟩

theorem Stays.trans (first : Stays region world between) (second : Stays region between after) :
    Stays region world after where
  confined := fun secluded =>
    (first.confined secluded).trans (second.confined (first.secluded secluded))
  knows := fun secluded => second.knows (first.secluded secluded)

theorem Stays.of_knows (store : after.store = world.store)
    (knows : ∀ chain, after.context.Knows chain → world.context.Knows chain) :
    Stays region world after where
  confined := fun secluded => .of_eq store secluded.realm.enclosed
  knows := fun secluded chain known => secluded.knows chain (knows chain known)

theorem Stays.refl (world : World) : Stays region world world := .of_knows rfl fun _ => id

theorem Stays.of_store (context : after.context = world.context)
    (confined : world.store.Realm region → Confined world.store after.store region) :
    Stays region world after where
  confined := fun secluded => confined secluded.realm
  knows := fun secluded chain known => secluded.knows chain (context ▸ known)

theorem Sheds.stays {offered : Option ElementId} (sheds : Sheds world after name offered)
    (into : Into region offered) : Stays region world after where
  confined := by
    intro secluded
    rcases sheds.store with same | ⟨lost, known, _, same⟩
    · exact .of_eq same secluded.realm.enclosed
    · rw [same]
      exact destroyAll_confined secluded.realm.enclosed (into_some (secluded.knows lost known))
  knows := fun secluded chain known =>
    (sheds.knows chain known).elim (secluded.knows chain) (into chain)

theorem retire_stays (inside : region chain) : Stays region world (world.retire chain) := by
  unfold retire
  split
  · refine ⟨fun secluded => .refl secluded.realm.enclosed, fun secluded other known => ?_⟩
    rcases known with cached | retired
    · exact secluded.knows other (Or.inl cached)
    · rcases List.mem_append.mp retired with old | new
      · exact secluded.knows other (Or.inr old)
      · exact List.mem_singleton.mp new ▸ inside
  · exact .of_store rfl fun realm => destroyAll_confined realm.enclosed (into_some inside)

theorem foldl_retire_stays {lost : List ElementId} (within : ∀ chain ∈ lost, region chain) :
    Stays region world (lost.foldl retire world) := by
  induction lost generalizing world with
  | nil => exact .refl world
  | cons chain rest ih =>
      have first : Stays region world (world.retire chain) :=
        retire_stays (within chain List.mem_cons_self)
      exact first.trans (ih fun other member => within other (List.mem_cons_of_mem chain member))

variable (secluded : Secluded region world)
include secluded

theorem eraseVariable_stays (name : Option String) :
    Stays region world (world.eraseVariable name) := by
  have erased : Stays region world (world.withContext fun context =>
      { context with cache := context.cache.erase name }) := by
    refine .of_knows rfl fun chain known => ?_
    rcases known with cached | retired
    · obtain ⟨entry, member, isChain⟩ := List.mem_filterMap.mp cached
      exact Or.inl (List.mem_filterMap.mpr ⟨entry, List.mem_of_mem_filter member, isChain⟩)
    · exact Or.inr retired
  unfold eraseVariable
  split
  · rename_i chain cached
    exact erased.trans (retire_stays (secluded.knows chain (Or.inl (mem_chains_of_chainOf cached))))
  · exact erased

theorem clearVariables_stays : Stays region world world.clearVariables := by
  have emptied : Stays region world (world.context.chains.foldl retire world) :=
    foldl_retire_stays fun chain cached => secluded.knows chain (Or.inl cached)
  refine emptied.trans (.of_knows rfl fun chain known => ?_)
  rcases known with cached | retired
  · cases cached
  · exact Or.inr retired

theorem cacheCopy_stays {start : Option ElementId}
    (copied : world.cacheCopy settings name start = some after) : Stays region world after := by
  obtain ⟨forest, store, head, ids, _, grows, _, _, sheds⟩ := cacheCopy_cases copied
  have copies : Stays region world { world with store } :=
    .of_store rfl fun realm => realm.grown grows
  refine copies.trans (sheds.stays ?_)
  rintro chain rfl
  exact secluded.realm.later chain (grows.fresh chain grows.planted.start_links.1)

theorem Brings.stays {head : Option ElementId} (brings : Brings world after head) :
    Stays region world after ∧ Into region head := by
  rcases brings.store with ⟨rfl, same⟩ | ⟨rfl, forest, ids, grows, _⟩
  · exact ⟨.of_store brings.context fun realm => .of_eq same realm.enclosed, into_none⟩
  · exact ⟨.of_store brings.context fun realm => realm.grown grows, into_some secluded.realm.next⟩

theorem perform_stays {element : Option ElementId} (into : Into region element)
    (action : Action) : Stays region world (world.perform settings element action).2 := by
  have effect := perform_effect settings world element action
  generalize (world.perform settings element action).2 = changed at effect
  cases effect with
  | idle store context => exact .of_store context fun realm => .of_eq store realm.enclosed
  | stored name source readOnly shown brings =>
      obtain ⟨parsed, headInto⟩ := brings.stays secluded
      exact parsed.trans ((setVariable_sheds settings _ name _ readOnly).stays headInto)
  | erased name => exact eraseVariable_stays secluded name
  | cleared => exact clearVariables_stays secluded
  | registered name actions =>
      unfold World.register
      extract_lets callable
      split <;> exact .of_knows rfl fun _ => id
  | unregistered name => exact .of_knows rfl fun _ => id
  | removed isElement store context =>
      exact .of_store context fun realm =>
        store ▸ detach_confined realm.enclosed (into _ isElement)
  | brought source brings => exact (brings.stays secluded).1
  | appended source brings ran store context =>
      obtain ⟨parsed, headInto⟩ := brings.stays secluded
      refine parsed.trans (.of_store (context.trans brings.context.symm) fun realm => ?_)
      exact store ▸ append_confined realm.enclosed into headInto ran
  | filled source grows _ isElement ran store context =>
      refine .of_store context fun realm => (realm.grown grows).then fun enclosed => ?_
      exact store ▸ install_confined enclosed (into _ isElement) (into_some realm.next) ran
  | put key value isElement =>
      exact .of_store rfl fun realm => setProperties_confined realm.enclosed (into _ isElement) _

end Stays

section Evaluation

variable {region : ElementId → Prop} {settings : Settings} {world after : World}

theorem perform_asks {element start : Option ElementId} {action : Action} {toEnd : Bool}
    (performed : world.perform settings element action = (.ok (.render start toEnd), after)) :
    start = none ∨ (∃ id, element = some id ∧ world.store.child id = start) ∨
      ∃ name, world.context.chainOf name = start := by
  cases action with
  | getVariable name =>
      cases performed
      exact Or.inr (Or.inr ⟨name, rfl⟩)
  | content =>
      simp only [perform] at performed
      split at performed
      · cases performed
      · rename_i ran
        cases performed
        obtain ⟨answer, reads, done⟩ := bind_eq_ok.mp ran
        cases done
        obtain ⟨id, isElement, rest⟩ := bind_eq_ok.mp reads
        split at rest
        · cases rest
          exact Or.inl rfl
        · cases rest
          exact Or.inr (Or.inl ⟨id, present_ok isElement, rfl⟩)
  | body | bodyFirst =>
      cases element with
      | none => cases performed
      | some id =>
          cases performed
          exact Or.inr (Or.inl ⟨id, rfl, rfl⟩)
  | appendAfter source =>
      simp only [perform, appendText] at performed
      repeat' split at performed
      all_goals cases performed
  | _ =>
      simp only [perform, onElement] at performed
      repeat' split at performed
      all_goals cases performed

def Task.Inside (region : ElementId → Prop) : Task → Prop
  | .render start _ => Into region start
  | .follow id _ | .one id | .assign _ id => region id
  | .value _ => True
  | .call _ element | .run element _ _ => Into region element

theorem leavePin_stays {name : Option String} {chain : Option ElementId} :
    Stays region world (world.leavePin name chain) := by
  have left : Stays region world (world.withContext (·.leave name chain)) :=
    .of_knows rfl fun _ => id
  cases chain with
  | none => exact left
  | some chain => exact left.trans ((leavePin_sheds world name chain).stays into_none)

variable (region settings) in
/-- An evaluation that begins in the region stays within it, whatever the scripts do. -/
theorem stays_conduct : Conduct settings
    (fun world task => Secluded region world ∧ task.Inside region) (Stays region) where
  refl := .refl
  trans _ _ _ := .trans
  note world notices := .of_knows rfl fun _ => id
  begins := by
    rintro stage next begins ⟨secluded, inside⟩ stays
    have stage_entered : Secluded region stage.world → Secluded region stage.entered := by
      obtain ⟨fuel, world, task⟩ := stage
      cases task <;> exact fun secluded => ⟨secluded.realm, secluded.knows⟩
    have later := stays.secluded (stage_entered secluded)
    cases begins with
    | render _ => exact ⟨later, inside _ rfl⟩
    | one => exact ⟨later, inside⟩
    | value => exact ⟨later, trivial⟩
    | next _ isNext => exact ⟨later, later.realm.enclosed.next _ inside _ isNext⟩
    | body _ isBody =>
        exact ⟨later, into_some (secluded.realm.enclosed.child _ inside _ isBody)⟩
    | assign => exact ⟨later, inside⟩
    | pinned isChain _ =>
        exact ⟨later, into_some (secluded.knows _ (Or.inl (mem_chains_of_chainOf isChain)))⟩
    | call _ _ => exact ⟨later, into_some inside⟩
    | script | added _ | resumed _ _ => exact ⟨later, inside⟩
    | asked performed =>
        refine ⟨later, ?_⟩
        rcases perform_asks performed with rfl | ⟨id, isElement, rfl⟩ | ⟨name, rfl⟩
        · exact into_none
        · exact secluded.realm.enclosed.child id (inside id isElement)
        · exact fun chain isChain =>
            secluded.knows chain (Or.inl (mem_chains_of_chainOf isChain))
  shallower world after _ _ _ inner :=
    ⟨fun secluded => inner.confined ⟨secluded.realm, secluded.knows⟩,
      fun secluded => inner.knows ⟨secluded.realm, secluded.knows⟩⟩
  leaves world after name chain _ _ _ inner := by
    have entered : Stays region world (world.enterPin name (some chain)) :=
      .of_knows rfl fun _ => id
    exact (entered.trans inner).trans leavePin_stays
  assigns _ _ _ _ isGood copied := cacheCopy_stays isGood.1 copied
  performs _ _ action _ _ isGood := perform_stays isGood.1 isGood.2 action

theorem render_stays (secluded : Secluded region world) {fuel : Nat} {start : Option ElementId}
    (into : Into region start) {toEnd : Bool} {rendered : Rendered}
    (ran : render settings fuel world start toEnd = some rendered) :
    Stays region world rendered.2 :=
  (stays_conduct region settings).keeps_through fuel world (.render start toEnd) rendered.2
    ⟨secluded, into⟩ (by simp [Stage.after, ran])

end Evaluation

section Steps

variable {region : ElementId → Prop} {settings : Settings} {fuel : Nat} {world after : World}

theorem into_of_mentions {element : Option ElementId}
    (within : ∀ id ∈ element.toList, region id) : Into region element :=
  fun id same => within id (Option.mem_toList.mpr same)

theorem into_of_both {position element : Option ElementId}
    (within : ∀ id ∈ position.toList ++ element.toList, region id) :
    Into region position ∧ Into region element :=
  ⟨into_of_mentions fun id member => within id (List.mem_append_left _ member),
    into_of_mentions fun id member => within id (List.mem_append_right _ member)⟩

theorem accept_stays {step : Except Fault Outcome}
    (confined : ∀ outcome, step = .ok outcome → world.store.Realm region →
      Confined world.store outcome.store region) {status : Status}
    (ran : world.accept settings <$> step = .ok (status, after)) : Stays region world after := by
  obtain ⟨outcome, answers, done⟩ := map_eq_ok ran
  cases done
  exact .of_store rfl (confined outcome answers)

theorem setContent_stays {kind : Kind} {owner : Option ElementId} {content : Content}
    (within : ∀ id ∈ owner.toList ++ Edit.heads content, region id) {status : Status}
    (ran : Request.setBody settings world kind owner content = .ok (status, after)) :
    Stays region world after := by
  cases content with
  | chain head =>
      obtain ⟨host, into⟩ := into_of_both within
      exact accept_stays (fun outcome sets realm =>
        setBody_confined realm.enclosed host into sets) ran
  | source text first last =>
      have host := into_of_mentions fun id member => within id (List.mem_append_left _ member)
      exact accept_stays (fun outcome sets realm => setBodyText_confined realm host sets) ran

theorem answer_stays {request : Request} (within : ∀ id ∈ request.mentions, region id)
    {status : Status} (ran : request.answer settings world = .ok (status, after)) :
    Stays region world after := by
  cases request with
  | append position element =>
      obtain ⟨here, into⟩ := into_of_both within
      exact accept_stays (fun outcome appends realm =>
        append_confined realm.enclosed here into appends) ran
  | insert position element =>
      obtain ⟨here, into⟩ := into_of_both within
      exact accept_stays (fun outcome inserts realm =>
        insert_confined realm.enclosed here into inserts) ran
  | remove element =>
      obtain rfl : _ = after := congrArg Prod.snd (Except.ok.inj ran)
      exact .of_store rfl fun realm => remove_confined realm.enclosed (into_of_mentions within)
  | setCommand owner content | setVariable owner content => exact setContent_stays within ran
  | setProperties element properties =>
      exact accept_stays (fun outcome sets realm =>
        replaceProperties_confined realm.enclosed (into_of_mentions within) sets) ran
  | setText element text =>
      exact accept_stays (fun outcome sets realm =>
        replaceText_confined realm.enclosed (into_of_mentions within) sets) ran
  | cache name chain readOnly =>
      obtain rfl : _ = after := congrArg Prod.snd (Except.ok.inj ran)
      exact (setVariable_sheds settings world name chain readOnly).stays (into_of_mentions within)
  | register name handler =>
      obtain rfl : _ = after := congrArg Prod.snd (Except.ok.inj ran)
      unfold World.register
      extract_lets callable
      split <;> exact .of_knows rfl fun _ => id

variable (secluded : Secluded region world)
include secluded

theorem take_stays {step : Step} (within : ∀ id ∈ step.mentions, region id) {answer : Answer}
    (ran : step.take settings fuel world = some (answer, after)) : Stays region world after := by
  cases step with
  | addText text =>
      cases ran
      exact .of_store rfl fun realm => realm.add _
  | addNamed kind name =>
      have added := secluded.realm.addNamed kind name
      simp only [Step.take] at ran
      split at ran <;> rename_i adds <;> cases ran
      · rw [adds] at added
        exact .of_store rfl fun _ => added
      · exact .refl world
  | parse text first last =>
      simp only [Step.take] at ran
      split at ran <;> cases ran
      rename_i parses
      obtain ⟨parsed, reads, done⟩ := bind_eq_ok.mp (show _ >>= _ = _ from parses)
      cases done
      exact .of_store rfl fun realm => (parse_confined realm reads).1
  | request asked =>
      simp only [Step.take] at ran
      split at ran <;> cases ran
      rename_i answers
      exact answer_stays within answers
  | putProperty element key value =>
      cases ran
      exact .of_store rfl fun realm =>
        setProperties_confined realm.enclosed (within element List.mem_cons_self) _
  | destroy element =>
      cases ran
      exact .of_store rfl fun realm => destroy_confined realm.enclosed (into_of_mentions within)
  | destroyAll start =>
      cases ran
      exact .of_store rfl fun realm => destroyAll_confined realm.enclosed (into_of_mentions within)
  | copy element =>
      simp only [Step.take] at ran
      split at ran <;> cases ran
      rename_i copies
      exact .of_store rfl fun realm => copy_confined realm copies
  | copyAll start =>
      simp only [Step.take] at ran
      split at ran <;> cases ran
      rename_i copies
      exact .of_store rfl fun realm => copyAll_confined realm copies
  | erase name =>
      cases ran
      exact eraseVariable_stays secluded name
  | eraseAll =>
      cases ran
      exact clearVariables_stays secluded
  | clear =>
      cases ran
      have emptied := clearVariables_stays secluded
      exact ⟨emptied.confined, emptied.knows⟩
  | unpin name chain =>
      cases ran
      exact leavePin_stays
  | equip set =>
      cases ran
      rw [CommandSet.addTo_eq]
      exact .of_knows rfl fun _ => id
  | pin name chain | unregister name | unregisterAll =>
      cases ran
      exact .of_knows rfl fun _ => id
  | evaluate start toEnd =>
      obtain ⟨rendered, renders, done⟩ := Option.map_eq_some_iff.mp ran
      cases done
      exact render_stays secluded (into_of_mentions within) renders
  | evaluateVariable name =>
      obtain ⟨rendered, renders, done⟩ := Option.map_eq_some_iff.mp ran
      cases done
      -- The element need not be named: no chain that the context knows begins elsewhere.
      refine render_stays secluded (fun chain isChain => ?_) renders
      exact secluded.knows chain (Or.inl (mem_chains_of_chainOf isChain))

omit secluded in
/-- A session that names elements of the region only stays within it. -/
theorem session_stays {steps : List Step}
    (within : ∀ step ∈ steps, ∀ id ∈ step.mentions, region id) (secluded : Secluded region world)
    {answers : List Answer} (ran : session? settings fuel world steps = some (answers, after)) :
    Stays region world after := by
  induction steps generalizing world answers with
  | nil =>
      cases ran
      exact .refl after
  | cons step rest ih =>
      obtain ⟨⟨answer, between⟩, takes, later⟩ := Option.bind_eq_some_iff.mp ran
      obtain ⟨⟨others, last⟩, goes, done⟩ := Option.bind_eq_some_iff.mp later
      cases done
      have first := take_stays secluded (within step List.mem_cons_self) takes
      exact first.trans (ih (fun other member => within other (List.mem_cons_of_mem step member))
        (first.secluded secluded) goes)

/-- A session that names elements of the region only, in a context that knows no chain
beyond it, leaves all other elements of the store as they are. -/
def Confines (store : Store) (region : ElementId → Prop) : Prop :=
  ∀ settings fuel world steps answers after, world.store = store →
    (∀ chain, world.context.Knows chain → region chain) →
    (∀ step ∈ steps, ∀ id ∈ Step.mentions step, region id) →
    session? settings fuel world steps = some (answers, after) →
    ∀ id, ¬ region id → after.store.get? id = store.get? id

omit secluded in
theorem confines_realm {store : Store} (realm : store.Realm region) : Confines store region := by
  rintro settings fuel world steps answers after rfl knows within ran
  have secluded : Secluded region world := ⟨realm, knows⟩
  exact ((session_stays within secluded ran).confined secluded).beyond

end Steps

end Stencil.World
