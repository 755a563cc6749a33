import Stencil.Proofs.AbreastEvaluations
import Stencil.Proofs.AvoidedCommands
import Stencil.Proofs.EndingDocuments

/-!
The choice of a command set. The commands of two sets differ in what they write alone:
each renders its content once and in the same place. So documents rendered with the one
set and with the other assign the same values, end in the same errors, are logged in the
same way, and leave worlds behind that differ in their commands only. A document has the
same output as well where none of these commands is in it or in a value.
-/

namespace Stencil

inductive Action.Echoes (agrees : String → String → Prop) : Action → Action → Prop where
  | text {text told : String} (goes : agrees text told) : Echoes agrees (.text text) (.text told)
  | content : Echoes agrees .content .content
  | propertyWithin (key : String) {before after ahead behind : String}
      (goes : ∀ value, agrees (before ++ value ++ after) (ahead ++ value ++ behind)) :
      Echoes agrees (.propertyWithin key before after) (.propertyWithin key ahead behind)

theorem Handler.Writes.echoes {agrees : String → String → Prop} (same : ∀ text, agrees text text)
    {handler : Handler} (writes : handler.Writes) :
    handler.Matches (Action.Echoes agrees) handler := by
  cases handler with
  | inert => exact .inert
  | script actions =>
      refine .script (List.forall₂_same.mpr fun action member => ?_)
      cases writes action member with
      | text text => exact .text (same text)
      | propertyWithin key before after => exact .propertyWithin key fun value => same _
      | content => exact .content

namespace CommandSet

def names : List (Option String) := [some "title", some "section", some "b", some "i"]

section Tables

variable (set other : CommandSet) {commands : Table (Option String) Handler}
variable {agrees : String → String → Prop}

theorem stocked_foreign {name : Option String} (foreign : name ∉ names) :
    (set.stocked commands).get? name = commands.get? name := by
  simp only [names, List.mem_cons, List.not_mem_nil, or_false, not_or] at foreign
  simp only [stocked, handlers, List.foldl_cons, List.foldl_nil, Table.get?_put, if_neg foreign.1,
    if_neg foreign.2.1, if_neg foreign.2.2.1, if_neg foreign.2.2.2]

theorem around_echoes (before after ahead behind : String) :
    (around before after).Matches (Action.Echoes fun _ _ => True) (around ahead behind) :=
  .script (.cons (.text trivial) (.cons .content (.cons (.text trivial) .nil)))

theorem sectionHandler_echoes :
    set.sectionHandler.Matches (Action.Echoes fun _ _ => True) other.sectionHandler :=
  .script (.cons (.text trivial) (.cons (.propertyWithin "title" fun _ => trivial)
    (.cons .content (.cons (.text trivial) .nil))))

theorem stocked_echoes (tame : World.Tame commands) (name : Option String) :
    Option.Rel (Handler.Matches (Action.Echoes fun _ _ => True)) ((set.stocked commands).get? name)
      ((other.stocked commands).get? name) := by
  by_cases foreign : name ∉ names
  · rw [set.stocked_foreign foreign, other.stocked_foreign foreign]
    cases found : commands.get? name with
    | none => exact .none
    | some handler => exact .some ((tame name handler found).echoes fun _ => trivial)
  · simp only [stocked, handlers, List.foldl_cons, List.foldl_nil, Table.get?_put]
    split
    · exact .some (around_echoes _ _ _ _)
    split
    · exact .some (around_echoes _ _ _ _)
    split
    · exact .some (set.sectionHandler_echoes other)
    split
    · exact .some (around_echoes _ _ _ _)
    · simp_all [names]

end Tables

end CommandSet

namespace World

open Store

def speaking (commands : Table (Option String) Handler) (world : World) : World :=
  world.withContext fun context => { context with commands }

structure Twin (ours theirs : Table (Option String) Handler) (world mate : World) : Prop where
  speaks : world.context.commands = ours
  same : mate = world.speaking theirs

section Speaking

variable {settings : Settings} {commands ours theirs : Table (Option String) Handler}
variable {world mate : World}

@[simp] theorem speaking_store : (world.speaking commands).store = world.store := rfl

@[simp] theorem speaking_isPinned (chain : ElementId) :
    (world.speaking commands).context.isPinned chain = world.context.isPinned chain := rfl

@[simp] theorem speaking_retired :
    (world.speaking commands).context.retired = world.context.retired := rfl

@[simp] theorem speaking_chainOf (name : Option String) :
    (world.speaking commands).context.chainOf name = world.context.chainOf name := rfl

@[simp] theorem speaking_cacheRefusal (name : Option String) (chain : Option ElementId) :
    (world.speaking commands).cacheRefusal name chain = world.cacheRefusal name chain := rfl

theorem retire_speaking (chain : ElementId) :
    (world.speaking commands).retire chain = (world.retire chain).speaking commands := by
  rw [retire, retire, speaking_isPinned]
  split <;> rfl

theorem retirePrevious_speaking (name : Option String) (chain : Option ElementId) :
    (world.speaking commands).retirePrevious name chain =
      (world.retirePrevious name chain).speaking commands := by
  simp only [retirePrevious, speaking_chainOf]
  cases world.context.chainOf name with
  | none => rfl
  | some previous =>
      simp only [retire_speaking]
      split <;> rfl

theorem setVariable_speaking (settings : Settings) (world : World) (name : Option String)
    (chain : Option ElementId) (readOnly : Bool) :
    ((world.speaking commands).setVariable settings name chain readOnly).2 =
      (world.setVariable settings name chain readOnly).2.speaking commands := by
  simp only [setVariable, speaking_cacheRefusal, retirePrevious_speaking]
  cases if settings.errorChecks = true then world.cacheRefusal name chain else none <;> rfl

theorem cacheCopy_speaking (name : Option String) (start : Option ElementId) :
    (world.speaking commands).cacheCopy settings name start =
      (world.cacheCopy settings name start).map (speaking commands) := by
  simp only [cacheCopy, speaking_store]
  cases world.store.copyAll start with
  | error fault => rfl
  | ok copied =>
      exact congrArg some (setVariable_speaking settings { world with store := copied.1 } name
        copied.2 (world.context.readOnly name))

theorem releaseRetired_speaking (chain : ElementId) :
    (world.speaking commands).releaseRetired chain =
      (world.releaseRetired chain).speaking commands := by
  rw [releaseRetired, releaseRetired, speaking_isPinned, speaking_retired]
  split <;> rfl

theorem leavePin_speaking (name : Option String) (chain : Option ElementId) :
    (world.speaking commands).leavePin name chain =
      (world.leavePin name chain).speaking commands := by
  cases chain with
  | none => rfl
  | some chain =>
      have left : (world.speaking commands).withContext (·.leave name (some chain)) =
          (world.withContext (·.leave name (some chain))).speaking commands := rfl
      simp only [leavePin, Option.toList_some, List.foldl_cons, List.foldl_nil, left,
        releaseRetired_speaking]

/-- Two worlds that differ in their commands take an evaluation side by side, if the
commands that it calls match. -/
theorem speaking_abreast {origin : Stage} {agrees : String → String → Prop}
    (same : ∀ text, agrees text text)
    (join : ∀ text told more others, agrees text told → agrees more others →
      agrees (text ++ more) (told ++ others))
    (matching : ∀ fuel world id, During settings origin ⟨fuel, world, .one id⟩ →
      world.store.kind? id = some .command →
      Option.Rel (Handler.Matches (Action.Echoes agrees)) (ours.get? (world.store.text id))
        (theirs.get? (world.store.text id))) :
    Abreast settings settings origin (Twin ours theirs) agrees (Action.Echoes agrees) where
  limit := rfl
  store := by
    rintro _ _ ⟨_, rfl⟩
    rfl
  depth := by
    rintro _ _ ⟨_, rfl⟩
    rfl
  cache := by
    rintro _ _ ⟨_, rfl⟩
    rfl
  expanding := by
    rintro _ _ ⟨_, rfl⟩
    rfl
  same := same
  join := join
  note := by
    rintro _ _ _ ⟨speaks, rfl⟩
    exact ⟨speaks, rfl⟩
  deeper := by
    rintro _ _ ⟨speaks, rfl⟩
    exact ⟨speaks, rfl⟩
  shallower := by
    rintro _ _ ⟨speaks, rfl⟩
    exact ⟨speaks, rfl⟩
  enters := by
    rintro _ _ _ _ ⟨speaks, rfl⟩
    exact ⟨speaks, rfl⟩
  leaves := by
    rintro world _ name chain ⟨speaks, rfl⟩
    -- The last pin may destroy a chain, which leaves the commands alone.
    refine ⟨?_, leavePin_speaking name chain⟩
    cases chain with
    | none => exact speaks
    | some chain => exact (leavePin_sheds world name chain).commands.trans speaks
  assigns := by
    rintro _ world between _ id ⟨speaks, rfl⟩ _ _
    rw [cacheCopy_speaking]
    cases copied : between.cacheCopy settings (world.store.text id) (between.store.child id) with
    | none => exact .none
    | some after =>
        obtain ⟨_, _, _, _, _, _, _, _, sheds⟩ := cacheCopy_cases copied
        exact .some ⟨sheds.commands.trans speaks, rfl⟩
  calls := by
    rintro fuel world _ id ⟨speaks, rfl⟩ here isKind
    rw [speaks]
    exact matching fuel world id here isKind
  performs := by
    rintro _ world _ element _ _ _ _ ⟨speaks, rfl⟩ _ echoes
    cases echoes with
    | text goes => exact .ok (.add goes) ⟨speaks, rfl⟩
    | content =>
        simp only [perform, World.bodyOf, speaking_store]
        cases world.store.bodyOf settings.errorChecks .command element with
        | error fault => exact .error _ ⟨speaks, rfl⟩
        | ok body => exact .ok (.render _ _) ⟨speaks, rfl⟩
    | propertyWithin key goes =>
        cases element with
        | none => exact .error _ ⟨speaks, rfl⟩
        | some id =>
            simp only [perform, onElement, speaking_store]
            cases (world.store.properties id).get? key with
            | none => exact .ok (.add (same "")) ⟨speaks, rfl⟩
            | some value => exact .ok (.add (goes value)) ⟨speaks, rfl⟩

end Speaking

def ending (output : Except Stop String) : Option Stop :=
  match output with
  | .ok _ => none
  | .error stop => some stop

section Documents

variable {settings : Settings} {fuel : Nat} {world mate after : World} {source : String}
variable {commands ours theirs : Table (Option String) Handler}

theorem parse_speaking (commands : Table (Option String) Handler) (source : String) :
    (world.speaking commands).parse settings source =
      (fun answer => (answer.1, answer.2.speaking commands)) <$> world.parse settings source := by
  simp only [World.parse, speaking_store]
  cases world.store.parse settings.errorChecks source none none <;> rfl

theorem document_abreast {agrees : String → String → Prop} (twins : Twin ours theirs world mate)
    (renders : ∀ head parsed, world.parse settings source = .ok (.ok head, parsed) →
      Twin ours theirs parsed (parsed.speaking theirs) →
      Option.Rel (Paired agrees (Twin ours theirs)) (render settings fuel parsed (some head) true)
        (render settings fuel (parsed.speaking theirs) (some head) true)) :
    Option.Rel (Paired agrees (Twin ours theirs)) (document settings fuel world source)
      (document settings fuel mate source) := by
  obtain ⟨speaks, rfl⟩ := twins
  simp only [document, parse_speaking]
  cases parses : world.parse settings source none none with
  | error fault => exact .some (.error _ ⟨speaks, rfl⟩)
  | ok answer =>
      obtain ⟨result, parsed⟩ := answer
      have context := parse_context parses
      have twins : Twin ours theirs parsed (parsed.speaking theirs) := ⟨context ▸ speaks, rfl⟩
      cases result with
      | error report => exact .some (.error _ twins)
      | ok head =>
          refine rel_bind (renders head parsed parses twins) ?_
          rintro _ _ _ (⟨goes, ⟨ends, rfl⟩⟩ | ⟨fault, ends⟩)
          · exact .some (.ok goes ⟨ends, rfl⟩)
          · exact .some (.error _ ends)

theorem document_linked (linked : world.store.Linked) (tame : Tame world.context.commands)
    {rendered : Except Stop String × World}
    (ran : document settings fuel world source = some rendered) :
    rendered.2.store.Linked ∧ Tame rendered.2.context.commands := by
  rcases parse_cases settings world source with
    ⟨forest, grown, ids, _, parses, grows, _⟩ | ⟨_, _, _, parses, _⟩
  · simp only [document, parses] at ran
    obtain ⟨⟨output, between⟩, renders, done⟩ := Option.bind_eq_some_iff.mp ran
    have parsed : Aloof (fun _ => False) (note settings [] { world with store := grown }) :=
      aloof_nowhere (grown_linked grows linked) tame
    obtain ⟨ends, _, _, _, commands⟩ := parsed.renders renders
    cases output <;> cases done
    · exact ⟨ends, commands⟩
    · exact ⟨destroyAll_linked ends _, commands⟩
  · simp only [document, parses] at ran
    cases ran
    exact ⟨linked, tame⟩

theorem documents_linked (linked : world.store.Linked) (tame : Tame world.context.commands)
    {sources : List String} {outputs : List (Except Stop String)}
    (ran : documents settings fuel world sources = some (outputs, after)) :
    after.store.Linked := by
  induction sources generalizing world outputs with
  | nil =>
      cases ran
      exact linked
  | cons source rest ih =>
      obtain ⟨first, once, onward⟩ := Option.bind_eq_some_iff.mp ran
      obtain ⟨⟨others, last⟩, later, done⟩ := Option.bind_eq_some_iff.mp onward
      cases done
      obtain ⟨linkedFirst, tameFirst⟩ := document_linked linked tame once
      exact ih linkedFirst tameFirst later

variable (settings fuel) (set other : CommandSet)

theorem documents_twins (tame : Tame commands)
    (twins : Twin (set.stocked commands) (other.stocked commands) world mate)
    (sources : List String) :
    Option.Rel (fun first second => first.1.map ending = second.1.map ending ∧
        Twin (set.stocked commands) (other.stocked commands) first.2 second.2)
      (documents settings fuel world sources) (documents settings fuel mate sources) := by
  induction sources generalizing world mate with
  | nil => exact .some ⟨rfl, twins⟩
  | cons source rest ih =>
      have once : Option.Rel (Paired (fun _ _ => True)
          (Twin (set.stocked commands) (other.stocked commands)))
          (document settings fuel world source) (document settings fuel mate source) := by
        refine document_abreast twins fun head parsed _ between => ?_
        have abreast : Abreast settings settings ⟨fuel, parsed, .render (some head) true⟩
            (Twin (set.stocked commands) (other.stocked commands)) (fun _ _ => True)
            (Action.Echoes fun _ _ => True) :=
          speaking_abreast (fun _ => trivial) (fun _ _ _ _ _ _ => trivial)
            fun _ _ _ _ _ => set.stocked_echoes other tame _
        exact (abreast.through fuel).render _ _ (some head) true between .refl
      refine rel_bind once ?_
      rintro _ _ _ (⟨_, ends⟩ | ⟨stop, ends⟩)
      all_goals
        refine rel_bind (ih ends) ?_
        rintro ⟨outputs, _⟩ ⟨others, _⟩ _ ⟨same, last⟩
        exact .some ⟨congrArg (_ :: ·) same, last⟩

theorem avoids_of_listing {names : Option String → Prop}
    (values : ∀ entry ∈ world.listing, ∃ value, entry.2.1 = some value ∧ value.Avoids names)
    (name : Option String) (chain : ElementId)
    (isChain : world.context.chainOf name = some chain) : world.store.Avoids names chain := by
  obtain ⟨cached, found, isCached⟩ := Option.bind_eq_some_iff.mp isChain
  obtain ⟨value, read, avoids⟩ := values _ (List.mem_map_of_mem (Table.mem_of_lookup found))
  exact avoids_of_forestFor _ read avoids chain isCached

theorem outputs_eq {twin : World → World → Prop}
    {first second : Option (Except Stop String × World)}
    (both : Option.Rel (Paired Eq twin) first second) :
    second.map Prod.fst = first.map Prod.fst := by
  cases both with
  | none => rfl
  | some pair =>
      cases pair with
      | ok goes _ => exact congrArg (some ∘ Except.ok) goes.symm
      | error stop _ => rfl

/-- A document without the commands of the sets, where no value has one either, has the
same output with both. -/
theorem document_same (tame : Tame commands)
    (twins : Twin (set.stocked commands) (other.stocked commands) world mate)
    (clear : Clear (· ∈ CommandSet.names) world)
    (avoids : ∀ forest, Evaluation.outline source = .ok forest →
      forest.Avoids (· ∈ CommandSet.names)) :
    Option.Rel (Paired Eq (Twin (set.stocked commands) (other.stocked commands)))
      (document settings fuel world source) (document settings fuel mate source) := by
  refine document_abreast twins fun head parsed parses between => ?_
  obtain ⟨forest, ids, read, grows, _, context⟩ := parse_ok parses
  have start : ∀ id, some head = some id → parsed.store.Avoids (· ∈ CommandSet.names) id :=
    avoids_of_forestFor _ grows.planted.forest? (avoids forest read)
  have conduct := avoids_conduct (· ∈ CommandSet.names) settings
  have abreast : Abreast settings settings ⟨fuel, parsed, .render (some head) true⟩
      (Twin (set.stocked commands) (other.stocked commands)) Eq (Action.Echoes Eq) := by
    refine speaking_abreast (fun _ => rfl) ?_ fun _ between id here isKind => ?_
    · rintro _ _ _ _ rfl rfl
      rfl
    · obtain ⟨_, free⟩ := conduct.during here ⟨clear.grown context grows, start⟩
      have foreign := free.called isKind
      rw [set.stocked_foreign foreign, other.stocked_foreign foreign]
      cases found : commands.get? (between.store.text id) with
      | none => exact .none
      | some handler => exact .some ((tame _ handler found).echoes fun _ => rfl)
  exact (abreast.through fuel).render _ _ (some head) true between .refl

theorem documents_agree (linked : world.store.Linked) (tame : Tame world.context.commands)
    {sources : List String} {outputs : List (Except Stop String)} {between : World}
    (ran : documents settings fuel (set.addTo settings world) sources = some (outputs, between)) :
    ∃ others, documents settings fuel (other.addTo settings world) sources =
        some (others, between.speaking (other.stocked world.context.commands)) ∧
      outputs.map ending = others.map ending ∧ between.store.Linked ∧
      between.context.commands = set.stocked world.context.commands := by
  rw [CommandSet.addTo_eq] at ran ⊢
  have twins : Twin (set.stocked world.context.commands) (other.stocked world.context.commands)
      (world.speaking (set.stocked world.context.commands))
      (world.speaking (other.stocked world.context.commands)) := ⟨rfl, rfl⟩
  have both := documents_twins settings fuel set other tame twins sources
  have linkedFirst : (world.speaking (set.stocked world.context.commands)).store.Linked := linked
  have linkedBetween := documents_linked linkedFirst (tame.stocked set) ran
  rw [show documents settings fuel (world.speaking _) sources = _ from ran] at both
  change ∃ others, documents settings fuel (world.speaking _) sources = _ ∧ _
  generalize documents settings fuel (world.speaking (other.stocked world.context.commands))
    sources = mirrored at both ⊢
  cases both with
  | @some _ told pair =>
      obtain ⟨others, beside⟩ := told
      obtain ⟨same, speaks, rfl⟩ := pair
      exact ⟨others, rfl, same, linkedBetween, speaks⟩

/-- In whatever context, documents that are rendered with the commands of one set and those
of another leave worlds behind that differ in these commands only: with the same values in
the same order, the same flags and the same log. They end in the same errors. And the next
document has the same output with both, unless a command of the sets is in it or in a
value. Where values are forests, the documents do end. -/
theorem stock_sets_agree (linked : world.store.Linked) (tame : Tame world.context.commands)
    (sources : List String) :
    (∀ fuel outputs between,
      documents settings fuel (set.addTo settings world) sources = some (outputs, between) →
      ∃ others beside,
        documents settings fuel (other.addTo settings world) sources = some (others, beside) ∧
        outputs.map ending = others.map ending ∧
        beside = between.speaking (other.stocked world.context.commands) ∧
        beside.listing = between.listing ∧ beside.log = between.log ∧
        ∀ source fuel,
          (∀ forest, Evaluation.outline source = .ok forest →
            forest.Avoids (· ∈ CommandSet.names)) →
          (∀ entry ∈ between.listing, ∃ value, entry.2.1 = some value ∧
            value.Avoids (· ∈ CommandSet.names)) →
          (document settings fuel beside source).map Prod.fst =
            (document settings fuel between source).map Prod.fst) ∧
    (world.store.Worded →
      (∀ chain ∈ world.context.chains, ∃ value, world.store.forest? (some chain) = some value) →
      ∃ rendered, Yields (fun fuel =>
        documents settings fuel (set.addTo settings world) sources) rendered) := by
  constructor
  · intro fuel outputs between ran
    obtain ⟨others, mirrored, same, linkedBetween, speaks⟩ :=
      documents_agree settings fuel set other linked tame ran
    refine ⟨others, _, mirrored, same, rfl, rfl, rfl, fun source fuel avoids values => ?_⟩
    have clear : Clear (· ∈ CommandSet.names) between :=
      ⟨linkedBetween, avoids_of_listing values, speaks ▸ tame.stocked set⟩
    exact outputs_eq (document_same settings fuel set other tame ⟨speaks, rfl⟩ clear avoids)
  · intro worded values
    have linkedFirst : (world.speaking (set.stocked world.context.commands)).store.Linked := linked
    simp only [CommandSet.addTo_eq]
    exact documents_end settings linkedFirst worded (tame.stocked set) values sources

/-- A document in which a word is bold and a value is assigned, and then one that shows the
value. -/
theorem stock_sets_agree_bold :
    let first := "\x7b\x7bb a\x7d\x7d\x7b\x7bv$ c\x7d\x7d"
    let next := "\x7b\x7bv$\x7d\x7dd"
    ∃ between beside,
      documents {} 20 (CommandSet.html.addTo {} {}) [first] = some ([.ok "<b>a</b>c"], between) ∧
      documents {} 20 (CommandSet.markdown.addTo {} {}) [first] = some ([.ok "**a**c"], beside) ∧
      beside.listing = between.listing ∧ beside.log = between.log ∧
      (document {} 20 beside next).map Prod.fst = (document {} 20 between next).map Prod.fst := by
  intro first next
  have linked : ({} : World).store.Linked := empty_sound.linked
  have rendered : (documents {} 20 (CommandSet.html.addTo {} {}) [first]).map
      (fun rendered => (rendered.1, rendered.2.listing)) =
        some ([.ok "<b>a</b>c"],
          [(some "v", some (.cons ⟨.text, some "c", {}⟩ .nil .nil), false)]) := by
    decide +kernel
  have others : (documents {} 20 (CommandSet.markdown.addTo {} {}) [first]).map Prod.fst =
      some [.ok "**a**c"] := by decide +kernel
  obtain ⟨⟨outputs, between⟩, ran, same⟩ := Option.map_eq_some_iff.mp rendered
  obtain ⟨rfl, listed⟩ := Prod.mk.inj same
  obtain ⟨told, beside, ranBeside, _, _, listing, log, onward⟩ :=
    (stock_sets_agree {} CommandSet.html CommandSet.markdown linked (fun _ _ => nofun)
      [first]).1 20 _ between ran
  rw [ranBeside] at others
  obtain rfl := Option.some.inj others
  refine ⟨between, beside, ran, ranBeside, listing, log, onward next 20 ?_ ?_⟩
  · have read : Evaluation.outline next = .ok (.cons ⟨.variable, some "v", {}⟩ .nil
        (.cons ⟨.text, some "d", {}⟩ .nil .nil)) := by decide +kernel
    rintro forest isForest
    obtain rfl := Except.ok.inj (read.symm.trans isForest)
    decide
  · rw [listed]
    simp [Forest.Avoids]

end Documents

end World

end Stencil
