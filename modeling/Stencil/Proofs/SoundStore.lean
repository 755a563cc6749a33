import Stencil.Proofs.BodyWorklist

/-!
Soundness of a store: it is linked, texts own nothing, and every element has what
its kind asks for. Operations on links keep the labels, and those that add cells
add whole chains of proper nodes. So every operation, refused or not, leads from
a sound store to a sound one.
-/

namespace Stencil.Store

structure Sound (store : Store) : Prop where
  linked : store.Linked
  text_bare : ∀ id, store.kind? id = some .text → store.child id = none
  named : ∀ id kind, store.kind? id = some kind → kind ≠ .text →
    ∃ name, store.text id = some name ∧ isName name = true
  worded : ∀ id, (store.kind? id).isSome → (store.text id).isSome

theorem Sound.consistent {store : Store} (sound : store.Sound) : store.Consistent where
  next_iff_prev := sound.linked.next_prev
  same_owner := sound.linked.siblings
  child_first := sound.linked.first
  ends := sound.linked.ends
  text_bare := sound.text_bare
  named := sound.named
  worded := sound.worded

theorem empty_sound : Sound {} := by
  have vacant : ∀ id, ({} : Store).get? id = none := fun id => by simp [get?]
  have noNext : ∀ id, ({} : Store).next id = none := fun id => by simp [next, vacant]
  have noKind : ∀ id, ({} : Store).kind? id = none := fun id => by simp [kind?, vacant]
  refine ⟨⟨?_, ?_, ?_, ?_⟩, ?_, ?_, ?_⟩
  · simp [next, prev, vacant]
  · simp [noNext]
  · simp [child, parent, vacant]
  · rintro ⟨id, round⟩
    obtain ⟨after, next, _⟩ := Relation.TransGen.head'_iff.mp round
    rw [Follows, noNext] at next
    cases next
  all_goals simp [noKind]

section Relink

variable {store changed : Store}

/-- Only links changed, and no text was given a body. -/
theorem Sound.relinked (sound : store.Sound) (linked : changed.Linked)
    (labels : ∀ id, changed.label id = store.label id)
    (bare : ∀ id, store.kind? id = some .text → changed.child id = none) : changed.Sound := by
  have kinds : ∀ id, changed.kind? id = store.kind? id := fun id => by
    rw [kind?_eq_label, kind?_eq_label, labels]
  have texts : ∀ id, changed.text id = store.text id := fun id => by
    rw [text_eq_label, text_eq_label, labels]
  constructor
  · exact linked
  · intro id isText
    exact bare id (kinds id ▸ isText)
  · intro id kind isKind noText
    rw [texts]
    exact sound.named id kind (kinds id ▸ isKind) noText
  · intro id isSome
    rw [texts]
    exact sound.worded id (kinds id ▸ isSome)

theorem Sound.pruned (sound : store.Sound) (linked : changed.Linked)
    (prunes : Pruned store changed) : changed.Sound :=
  sound.relinked linked prunes.label fun id isText => prunes.child id (sound.text_bare id isText)

theorem Linked.of_links (linked : store.Linked)
    (same : ∀ id, changed.next id = store.next id ∧ changed.prev id = store.prev id ∧
      changed.child id = store.child id ∧ changed.parent id = store.parent id) :
    changed.Linked where
  next_prev := by
    intro before after
    rw [(same before).1, (same after).2.1]
    exact linked.next_prev before after
  siblings := by
    intro before after next
    rw [(same before).1] at next
    rw [(same before).2.2.2, (same after).2.2.2]
    exact linked.siblings before after next
  first := by
    intro owner id
    rw [(same owner).2.2.1, (same id).2.1, (same id).2.2.2]
    exact linked.first owner id
  straight := by
    refine fun circular => linked.straight (circular_of_subset ?_ circular)
    intro before after next
    exact (same before).1.symm.trans next

end Relink

theorem relabelled_links (store : Store) (id : ElementId) (change : Element → Element)
    (kept : ∀ cell, (change cell).next = cell.next ∧ (change cell).prev = cell.prev ∧
      (change cell).child = cell.child ∧ (change cell).parent = cell.parent) (other : ElementId) :
    (store.update id change).next other = store.next other ∧
      (store.update id change).prev other = store.prev other ∧
      (store.update id change).child other = store.child other ∧
      (store.update id change).parent other = store.parent other :=
  ⟨read_update store id other _ change fun cell => (kept cell).1,
    read_update store id other _ change fun cell => (kept cell).2.1,
    read_update store id other _ change fun cell => (kept cell).2.2.1,
    read_update store id other _ change fun cell => (kept cell).2.2.2⟩

section Grow

variable {store grown : Store} {forest : Forest} {start : Option ElementId} {ids : List ElementId}

theorem Planted.proper {owner before : Option ElementId}
    (planted : store.Planted owner before start forest ids) (proper : forest.Proper) :
    ∀ id ∈ ids, ∃ cell, store.get? id = some cell ∧ cell.toNode.Proper ∧
      (cell.kind = .text → cell.child = none) := by
  induction planted with
  | nil => simp
  | cons owner before next child id node body rest bodyIds restIds found bodyPlanted _ ihBody
      ihRest =>
      obtain ⟨nodeProper, bare, bodyProper, restProper⟩ := proper
      intro other member
      rcases List.mem_cons.mp member with same | deeper
      · subst same
        refine ⟨_, found, nodeProper, fun isText => ?_⟩
        have noBody := bare isText
        subst noBody
        cases bodyPlanted
        rfl
      · rcases List.mem_append.mp deeper with inBody | inRest
        · exact ihBody bodyProper other inBody
        · exact ihRest restProper other inRest

theorem Sound.grow (sound : store.Sound) (grows : Grown store grown start forest ids)
    (proper : forest.Proper) : grown.Sound := by
  -- A cell is an old one, or it holds a node of the forest.
  have cases : ∀ id kind, grown.kind? id = some kind →
      grown.get? id = store.get? id ∨ ∃ cell, grown.get? id = some cell ∧ cell.kind = kind ∧
        cell.toNode.Proper ∧ (cell.kind = .text → cell.child = none) := by
    intro id kind isKind
    obtain ⟨cell, found, rfl⟩ := Option.map_eq_some_iff.mp isKind
    by_cases old : id < store.size
    · exact Or.inl (grows.kept id old)
    · have member := grows.all id (Nat.le_of_not_lt old) (inside_of_get? found)
      obtain ⟨other, foundOther, facts⟩ := grows.planted.proper proper id member
      rw [found] at foundOther
      cases foundOther
      exact Or.inr ⟨cell, found, rfl, facts⟩
  refine ⟨grown_linked grows sound.linked, fun id isText => ?_, fun id kind isKind noText => ?_,
    fun id isSome => ?_⟩
  · rcases cases id _ isText with same | ⟨cell, found, isKind, _, bare⟩
    · have old : store.kind? id = some .text := by rw [← isText, kind?, kind?, same]
      exact (links_of_get? same).2.2.1.trans (sound.text_bare id old)
    · exact (links_of_cell found).2.2.1.trans (bare isKind)
  · rcases cases id _ isKind with same | ⟨cell, found, rfl, proper, _⟩
    · have old : store.kind? id = some kind := by rw [← isKind, kind?, kind?, same]
      have texts : grown.text id = store.text id := by rw [text, text, same]
      rw [texts]
      exact sound.named id kind old noText
    · obtain ⟨name, isText, valid⟩ := proper.named noText
      exact ⟨name, by simp [text, found, isText], valid⟩
  · obtain ⟨kind, isKind⟩ := Option.isSome_iff_exists.mp isSome
    rcases cases id _ isKind with same | ⟨cell, found, _, proper, _⟩
    · have old : (store.kind? id).isSome := by rw [← isSome, kind?, kind?, same]
      have texts : grown.text id = store.text id := by rw [text, text, same]
      rw [texts]
      exact sound.worded id old
    · simpa [text, found] using proper.worded

theorem cell_proper (sound : store.Sound) {id : ElementId} {cell : Element}
    (found : store.get? id = some cell) :
    cell.toNode.Proper ∧ (cell.kind = .text → cell.child = none) := by
  have kind : store.kind? id = some cell.kind := by simp [kind?, found]
  have text : store.text id = cell.text := by simp [Store.text, found]
  refine ⟨⟨?_, fun noText => ?_⟩, fun isText => ?_⟩
  · exact text ▸ sound.worded id (by rw [kind]; rfl)
  · exact text ▸ sound.named id _ kind noText
  · exact (links_of_cell found).2.2.1.symm.trans (sound.text_bare id (by rw [kind, isText]))

theorem Sound.forestFor_proper (sound : store.Sound) (count : Nat) (start : Option ElementId)
    (read : store.forestFor count start = some forest) : forest.Proper := by
  induction count generalizing start forest with
  | zero =>
      cases start with
      | none =>
          cases read
          exact trivial
      | some id => cases read
  | succ count ih =>
      cases start with
      | none =>
          cases read
          exact trivial
      | some id =>
          simp only [forestFor] at read
          cases found : store.get? id with
          | none => simp [found] at read
          | some cell =>
              simp only [found, Option.bind_eq_bind, Option.bind_eq_some_iff,
                Option.pure_def, Option.some.injEq] at read
              obtain ⟨body, bodyRead, rest, restRead, rfl⟩ := read
              obtain ⟨proper, bare⟩ := cell_proper sound found
              refine ⟨proper, fun isText => ?_, ih _ bodyRead, ih _ restRead⟩
              rw [bare isText] at bodyRead
              cases count <;> exact (Option.some.inj bodyRead).symm

end Grow

section Operations

variable {store : Store} (sound : store.Sound)
include sound

theorem add_sound {node : Node} (proper : node.Proper) : (store.add node).Sound :=
  sound.grow (add_grown store node) ⟨proper, fun _ => rfl, trivial, trivial⟩

theorem plant_sound {forest : Forest} (proper : forest.Proper) :
    (store.plant none none forest).1.Sound :=
  sound.grow (plant_grown store forest) proper

theorem taken_sound {splice : ElementId → Store → ElementId → ElementId → Store}
    {host id : ElementId} {left right : Option ElementId} {last : ElementId}
    {members : List ElementId} (linked : (store.taken splice host id).Linked)
    (labels : ∀ (store : Store) first last other,
      (splice host store first last).label other = store.label other)
    (reads : Spliced store (store.taken splice host id) left right (store.parent host) id last
      members) (heads : left = none → store.prev host = none) :
    (store.taken splice host id).Sound := by
  have kept : ∀ other, (store.taken splice host id).label other = store.label other := by
    intro other
    simp only [taken, labels, label_setParents]
  refine sound.relinked linked kept fun other isText => ?_
  -- Only the owner of a body gets a new head, and a text has no body.
  have bare := sound.text_bare other isText
  rw [reads.child, if_neg, bare]
  rintro ⟨noLeft, owned⟩
  rw [(sound.linked.first other host).mpr ⟨owned, heads noLeft⟩] at bare
  cases bare

theorem linkWith_sound {splice : ElementId → Store → ElementId → ElementId → Store}
    {position element : Option ElementId} {outcome : Outcome}
    (takes : ∀ host id, position = some host → element = some id → store.prev id = none →
      store.parent id = none → host ∉ (store.visit (some id)).1 →
      (store.taken splice host id).Sound)
    (ran : store.linkWith true position element splice = .ok outcome) : outcome.store.Sound := by
  rcases linkWith_cases sound.linked.straight position element splice with
    ⟨refusal, refused, same, _⟩ | ⟨host, id, isHost, isElement, noPrev, noParent, apart, took⟩
  · rw [refused] at ran
    cases ran
    exact same ▸ sound
  · rw [took] at ran
    obtain rfl := Except.ok.inj ran
    exact takes host id isHost isElement noPrev noParent apart

theorem append_sound {position element : Option ElementId} {outcome : Outcome}
    (hostInside : ∀ id, position = some id → id < store.size)
    (inside : ∀ id, element = some id → id < store.size)
    (ran : store.append true position element = .ok outcome) : outcome.store.Sound := by
  apply linkWith_sound sound ?_ ran
  intro host id isHost isElement noPrev noParent apart
  have there := hostInside host isHost
  have here := inside id isElement
  have linked := taken_after_linked sound.linked there here noPrev noParent apart
  have reads := taken_after_reads sound.linked there here noPrev noParent apart
  exact taken_sound sound linked (label_spliceAfter · host) reads (by simp)

theorem insert_sound {position element : Option ElementId} {outcome : Outcome}
    (hostInside : ∀ id, position = some id → id < store.size)
    (inside : ∀ id, element = some id → id < store.size)
    (ran : store.insert true position element = .ok outcome) : outcome.store.Sound := by
  apply linkWith_sound sound ?_ ran
  intro host id isHost isElement noPrev noParent apart
  have there := hostInside host isHost
  have here := inside id isElement
  have linked := taken_before_linked sound.linked there here noPrev noParent apart
  have reads := taken_before_reads sound.linked there here noPrev noParent apart
  exact taken_sound sound linked (label_spliceBefore · host) reads fun noPrev => noPrev

theorem detach_sound (id : ElementId) : (store.detach id).Sound :=
  sound.pruned (detach_linked sound.linked id) (detach_pruned sound.linked id)

theorem destroyOne_sound (id : ElementId) : (store.destroyOne id).Sound :=
  sound.pruned (destroyOne_linked sound.linked id) (destroyOne_pruned sound.linked id)

theorem destroyAll_sound (start : Option ElementId) : (store.destroyAll start).Sound :=
  sound.pruned (destroyAll_linked sound.linked start) (destroyAll_pruned sound.linked start)

theorem installed_sound {owner : ElementId} {content : Option ElementId} {kind : Kind}
    (hostInside : owner < store.size) (inside : ∀ head, content = some head → head < store.size)
    (isKind : store.kind? owner = some kind) (noText : kind ≠ .text)
    (admitted : store.Admitted owner content) : (store.installed owner content).Sound := by
  have prunes := destroyAll_pruned sound.linked (store.child owner)
  have reads := installed_reads sound.linked hostInside inside admitted
  have linked := installed_linked sound.linked hostInside inside admitted
  refine sound.relinked linked (fun id => (reads.label id).trans (prunes.label id)) ?_
  intro id isText
  have different : id ≠ owner := by
    rintro rfl
    rw [isKind] at isText
    exact noText (Option.some.inj isText)
  rw [reads.child, if_neg different]
  exact prunes.child id (sound.text_bare id isText)

theorem install_sound {owner : ElementId} {content : Option ElementId} {kind : Kind}
    {outcome : Outcome} (hostInside : owner < store.size)
    (inside : ∀ head, content = some head → head < store.size)
    (isKind : store.kind? owner = some kind) (noText : kind ≠ .text)
    (ran : store.install true owner content = .ok outcome) : outcome.store.Sound := by
  rcases install_cases sound.linked owner content with ⟨_, refusal, refused, same, _⟩ |
    ⟨admitted, installs⟩
  · rw [refused] at ran
    cases ran
    exact same ▸ sound
  · rw [installs] at ran
    obtain rfl := Except.ok.inj ran
    exact installed_sound sound hostInside inside isKind noText admitted

theorem setBody_sound {kind : Kind} (noText : kind ≠ .text) {owner content : Option ElementId}
    {outcome : Outcome} (hostInside : ∀ id, owner = some id → id < store.size)
    (inside : ∀ id, content = some id → id < store.size)
    (ran : store.setBody true kind owner content = .ok outcome) : outcome.store.Sound := by
  rcases setBody_cases sound.linked kind owner content with ⟨_, refusal, refused, same, _⟩ |
    ⟨host, rfl, isKind, admitted, installs⟩
  · rw [refused] at ran
    cases ran
    exact same ▸ sound
  · rw [installs] at ran
    obtain rfl := Except.ok.inj ran
    exact installed_sound sound (hostInside host rfl) inside isKind noText admitted

end Operations

section Parse

variable (store : Store) (text : String) (first last : Option Int)

/-- With checks on, a parse adds a chain of proper nodes or leaves the store as it
was; there is no third way. -/
theorem parse_cases :
    (∃ parsed report, store.parse true text first last = .ok parsed ∧ parsed.store = store ∧
      parsed.result = .error report) ∨
    ∃ forest grown ids,
      store.parse true text first last = .ok { store := grown, result := .ok store.size } ∧
      Grown store grown (some store.size) forest ids ∧ forest.Proper := by
  by_cases empty : (Source.ofString text).size = 0
  · have proper : Node.Proper ⟨.text, some "", {}⟩ := ⟨rfl, fun noText => absurd rfl noText⟩
    refine Or.inr ⟨_, _, _, ?_, add_grown store ⟨.text, some "", {}⟩,
      ⟨proper, fun _ => rfl, trivial, trivial⟩⟩
    simp [parse, empty]
  · by_cases valid : rangeValid (Source.ofString text).size (first.getD 0)
        (last.getD ((Source.ofString text).size - 1)) = true
    · simp only [rangeValid, Bool.and_eq_true, decide_eq_true_eq] at valid
      let span : Span := ⟨(first.getD 0).toNat,
        (last.getD ((Source.ofString text).size - 1) + 1).toNat⟩
      have inside : span.stop ≤ (Source.ofString text).size := by
        simp only [span]
        omega
      rcases parse_spec true store text first last span (by simp only [span]; omega)
          (by simp only [span]; omega) (by simp only [span]; omega) inside with
        ⟨forest, grown, ids, read, ran, grows⟩ | ⟨failure, report, _, ran, _⟩
      · have proper := ((Outline.read_settles (Source.ofString text) inside).of_ok read).1
        exact Or.inr ⟨forest, grown, ids, ran, grows, proper⟩
      · exact Or.inl ⟨_, report, ran, rfl, rfl⟩
    · simp only [Bool.not_eq_true] at valid
      refine Or.inl ⟨{
        store
        result := .error { status := .invalidParameter, position := first.getD 0 }
        notices := [.rangeInvalid (first.getD 0) (last.getD ((Source.ofString text).size - 1))
          (Source.ofString text).size] }, _, ?_, rfl, rfl⟩
      simp [parse, empty, valid]

variable {store text first last}

theorem parse_sound (sound : store.Sound) {parsed : Parsed}
    (ran : store.parse true text first last = .ok parsed) : parsed.store.Sound := by
  rcases parse_cases store text first last with ⟨failed, report, fails, same, _⟩ |
    ⟨forest, grown, ids, succeeds, grows, proper⟩
  · rw [fails] at ran
    cases ran
    exact same ▸ sound
  · rw [succeeds] at ran
    cases ran
    exact sound.grow grows proper

end Parse

end Stencil.Store
