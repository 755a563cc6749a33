import Stencil.Proofs.Ownership

/-!
Burials. A chain is buried if it is put beside or below an element that one of
its members is above. The checks look at the chain alone: they refuse an element
that is a member of the chain, but not one below a member. So ownership stays
acyclic up to the first burial, which goes through and closes a circle; up to
then every copy comes to an end.
-/

namespace Stencil.Store

open Relation

/-- The chain from `head` on is unlinked, and one of its members is above `host`. -/
def BuriedAt (store : Store) (host head : ElementId) : Prop :=
  store.prev head = none ∧ store.parent head = none ∧
    ∃ member ∈ (store.visit (some head)).1, Above store member host

def Edit.Buries (store : Store) : Edit → Prop
  | .append (some host) (some head) | .insert (some host) (some head) => BuriedAt store host head
  | .setVariable (some owner) (.chain (some head)) =>
      store.kind? owner = some .variable ∧ BuriedAt store owner head
  | .setCommand (some owner) (.chain (some head)) =>
      store.kind? owner = some .command ∧ BuriedAt store owner head
  | _ => False

inductive Unburied : Store → Prop where
  | empty : Unburied {}
  | step (store changed : Store) (edit : Edit) : Unburied store → edit.Known store →
      ¬ edit.Buries store → edit.apply store = .ok changed → Unburied changed

theorem relabelled_acyclic {store : Store} (acyclic : store.Acyclic) (id : ElementId)
    (change : Element → Element)
    (kept : ∀ cell, (change cell).next = cell.next ∧ (change cell).prev = cell.prev ∧
      (change cell).child = cell.child ∧ (change cell).parent = cell.parent) :
    (store.update id change).Acyclic :=
  acyclic_of_parents acyclic fun other => Or.inl (relabelled_links store id change kept other).2.2.2

section Circles

variable {store : Store} (sound : store.Sound) (acyclic : store.Acyclic)
include sound

theorem BuriedAt.apart {host head : ElementId} (buried : BuriedAt store host head) :
    host ∉ (store.visit (some head)).1 := by
  obtain ⟨_, noParent, member, _, isAbove⟩ := buried
  intro visited
  obtain ⟨owner, owned, _⟩ := above_owner.mp isAbove
  rw [sound.linked.parent_of_onward ((mem_visit_iff sound.linked.straight head host).mp visited),
    noParent] at owned
  cases owned

include acyclic

theorem emptied_visit (owner : ElementId) {head : ElementId} (noParent : store.parent head = none)
    (member : ElementId) :
    member ∈ ((store.destroyAll (store.child owner)).visit (some head)).1 ↔
      member ∈ (store.visit (some head)).1 := by
  have linked := sound.linked
  obtain ⟨_, nexts⟩ := destroyAllFor_keeps linked acyclic (4 * store.size + 4)
    (store.child owner) fun id child => ((linked.first owner id).mp child).1
  change ∀ other, _ → (store.destroyAll (store.child owner)).next other = _ at nexts
  rw [mem_visit_iff (destroyAll_linked linked _).straight, mem_visit_iff linked.straight]
  constructor
  · intro onward
    induction onward with
    | refl => exact .refl
    | tail _ next ih =>
        have unowned := (linked.parent_of_onward ih).trans noParent
        exact ReflTransGen.tail ih ((nexts _ unowned).symm.trans next)
  · intro onward
    induction onward with
    | refl => exact .refl
    | tail before next ih =>
        have unowned := (linked.parent_of_onward before).trans noParent
        exact ReflTransGen.tail ih ((nexts _ unowned).trans next)

/-- What is above an element stays above it when its body is destroyed. -/
theorem emptied_climb (owner member : ElementId) :
    ReflTransGen (store.destroyAll (store.child owner)).Under owner member ↔
      ReflTransGen store.Under owner member := by
  have linked := sound.linked
  obtain ⟨parents, _⟩ := destroyAllFor_keeps linked acyclic (4 * store.size + 4)
    (store.child owner) fun id child => ((linked.first owner id).mp child).1
  change ∀ other, _ → (store.destroyAll (store.child owner)).parent other = _ at parents
  constructor
  · apply ReflTransGen.mono
    intro below above owned
    rcases (destroyAll_pruned linked (store.child owner)).parent below with same | gone
    · exact same.symm.trans owned
    · rw [Under, gone] at owned
      cases owned
  · intro climb
    induction climb with
    | refl => exact .refl
    | tail before owned ih => exact ih.tail ((parents _ before).trans owned)

theorem installed_acyclic_iff {owner : ElementId} {content : Option ElementId}
    (hostInside : owner < store.size) (inside : ∀ head, content = some head → head < store.size)
    (admitted : store.Admitted owner content) :
    (store.installed owner content).Acyclic ↔
      ¬ ∃ head, content = some head ∧ BuriedAt store owner head := by
  have linked := sound.linked
  have prunes := destroyAll_pruned linked (store.child owner)
  have reads := installed_reads linked hostInside inside admitted
  have stays := acyclic_of_parents acyclic prunes.parent
  cases isHead : content with
  | none =>
      rw [isHead] at reads
      have none : (store.installed owner none).Acyclic := acyclic_of_parents stays fun id => by
        rw [reads.parent]
        simp [visit, visitFor]
      simp [none]
  | some head =>
      have loose := installed_loose linked inside admitted isHead
      simp only [isHead] at loose reads
      -- Only the members get a new owner, so a circle goes through one of them.
      rw [reparented_acyclic stays loose.unowned reads.parent]
      obtain ⟨noPrev, noParent, apart⟩ := admitted head isHead
      have same : (∃ member ∈ ((store.destroyAll (store.child owner)).visit (some head)).1,
          ReflTransGen (store.destroyAll (store.child owner)).Under owner member) ↔
          BuriedAt store owner head := by
        simp only [emptied_visit sound acyclic owner noParent, emptied_climb sound acyclic]
        constructor
        · rintro ⟨member, inChain, climb⟩
          rcases reflTransGen_iff_eq_or_transGen.mp climb with isOwner | climb
          · exact absurd (isOwner ▸ inChain) apart
          · exact ⟨noPrev, noParent, member, inChain, above_iff.mpr climb⟩
        · rintro ⟨_, _, member, inChain, isAbove⟩
          exact ⟨member, inChain, (above_iff.mp isAbove).to_reflTransGen⟩
      rw [same]
      simp

theorem setBody_acyclic_iff {kind : Kind} {owner content : Option ElementId} {outcome : Outcome}
    (hostInside : ∀ id, owner = some id → id < store.size)
    (inside : ∀ id, content = some id → id < store.size)
    (ran : store.setBody true kind owner content = .ok outcome) :
    outcome.store.Acyclic ↔ ¬ ∃ host head, owner = some host ∧ content = some head ∧
      store.kind? host = some kind ∧ BuriedAt store host head := by
  rcases setBody_cases sound.linked kind owner content with
    ⟨barred, refusal, refused, same, _⟩ | ⟨host, rfl, isKind, admitted, installs⟩
  · rw [refused] at ran
    obtain rfl := Except.ok.inj ran
    refine iff_of_true (same ▸ acyclic) ?_
    rintro ⟨host, head, isHost, rfl, isKind, buried⟩
    refine barred host isHost isKind ?_
    rintro _ ⟨⟩
    exact ⟨buried.1, buried.2.1, buried.apart sound⟩
  · rw [installs] at ran
    obtain rfl := Except.ok.inj ran
    dsimp only
    rw [installed_acyclic_iff sound acyclic (hostInside host rfl) inside admitted]
    apply not_congr
    constructor
    · rintro ⟨head, isHead, buried⟩
      exact ⟨host, head, rfl, isHead, isKind, buried⟩
    · rintro ⟨_, head, ⟨⟩, isHead, _, buried⟩
      exact ⟨head, isHead, buried⟩

/-- A body that is parsed is never buried: its elements are new. -/
theorem setBodyText_acyclic {kind : Kind} {owner : Option ElementId} {text : String}
    {first last : Option Int} {outcome : Outcome}
    (hostInside : ∀ id, owner = some id → id < store.size)
    (ran : store.setBodyText true kind owner text first last = .ok outcome) :
    outcome.store.Acyclic := by
  rcases setBodyText_cases ran with same |
    ⟨host, forest, grown, ids, answer, isHost, _, grows, proper, installs, same⟩
  · exact same ▸ acyclic
  · have old := hostInside host isHost
    have grownSound := sound.grow grows proper
    have grownAcyclic := grows.acyclic sound.linked acyclic
    rw [same]
    rcases install_cases grownSound.linked host (some store.size) with
      ⟨_, refusal, refused, unchanged, _⟩ | ⟨admitted, installed⟩
    · rw [refused] at installs
      obtain rfl := Except.ok.inj installs
      exact unchanged ▸ grownAcyclic
    · rw [installed] at installs
      obtain rfl := Except.ok.inj installs
      dsimp only
      rw [installed_acyclic_iff grownSound grownAcyclic (Nat.lt_trans old grows.start_inside)
        (by rintro head ⟨⟩; exact grows.start_inside) admitted]
      rintro ⟨head, ⟨⟩, _, _, member, visited, isAbove⟩
      -- The members of the chain are new, but what is above an old element is old.
      have onward := (mem_visit_iff grownSound.linked.straight _ member).mp visited
      have new := grows.fresh member (grows.onward grows.planted.start_links.1 onward)
      have climb := (above_iff.mp isAbove).to_reflTransGen
      exact Nat.not_lt_of_le new (grows.climb sound.linked old climb).2

theorem setContent_acyclic_iff {kind : Kind} {owner : Option ElementId} {content : Content}
    {outcome : Outcome} (known : ∀ id ∈ owner.toList ++ Edit.heads content, id < store.size)
    (ran : Edit.setContent store kind owner content = .ok outcome) :
    outcome.store.Acyclic ↔ ¬ ∃ host head, owner = some host ∧ content = .chain (some head) ∧
      store.kind? host = some kind ∧ BuriedAt store host head := by
  have hostInside : ∀ id, owner = some id → id < store.size := by
    rintro id rfl
    exact known id (by simp)
  cases content with
  | chain content =>
      have inside : ∀ id, content = some id → id < store.size := by
        rintro id rfl
        exact known id (by simp [Edit.heads])
      rw [setBody_acyclic_iff sound acyclic hostInside inside ran]
      simp
  | source text first last =>
      have stays := setBodyText_acyclic sound acyclic hostInside ran
      simp [stays]

theorem linkWith_acyclic_iff {splice : ElementId → Store → ElementId → ElementId → Store}
    {position element : Option ElementId} {outcome : Outcome}
    (inside : ∀ id, element = some id → id < store.size)
    (reads : ∀ host id, position = some host → element = some id → store.prev id = none →
      store.parent id = none → host ∉ (store.visit (some id)).1 → ∃ left right,
        Spliced store (store.taken splice host id) left right (store.parent host) id
          ((store.visit (some id)).1.getLast?.getD id) (store.visit (some id)).1)
    (ran : store.linkWith true position element splice = .ok outcome) :
    outcome.store.Acyclic ↔ ¬ ∃ host head, position = some host ∧ element = some head ∧
      BuriedAt store host head := by
  rcases linkWith_cases sound.linked.straight position element splice with
    ⟨refusal, refused, same, status⟩ | ⟨host, id, rfl, rfl, noPrev, noParent, apart, took⟩
  · rw [refused] at ran
    obtain rfl := Except.ok.inj ran
    refine iff_of_true (same ▸ acyclic) ?_
    -- A chain that could be buried here would have been taken instead of refused.
    rintro ⟨host, head, rfl, rfl, buried⟩
    have took := @linkWith_takes store splice sound.linked.straight true host head buried.1
      buried.2.1 (buried.apart sound)
    rw [took] at refused
    exact status (congrArg Outcome.status (Except.ok.inj refused)).symm
  · rw [took] at ran
    obtain rfl := Except.ok.inj ran
    dsimp only
    obtain ⟨left, right, spliced⟩ := reads host id rfl rfl noPrev noParent apart
    have loose := sound.linked.loose (inside id rfl) noPrev noParent
    rw [spliced.acyclic_iff acyclic loose]
    apply not_congr
    constructor
    · rintro ⟨member, inChain, isAbove⟩
      exact ⟨host, id, rfl, rfl, noPrev, noParent, member, inChain, isAbove⟩
    · rintro ⟨_, _, ⟨⟩, ⟨⟩, _, _, member, inChain, isAbove⟩
      exact ⟨member, inChain, isAbove⟩

theorem append_acyclic_iff {position element : Option ElementId} {outcome : Outcome}
    (known : (Edit.append position element).Known store)
    (ran : store.append true position element = .ok outcome) :
    outcome.store.Acyclic ↔ ¬ (Edit.append position element).Buries store := by
  have inside : ∀ id, element = some id → id < store.size := by
    rintro id rfl
    exact known id (by simp [Edit.mentions])
  rw [linkWith_acyclic_iff sound acyclic inside ?_ ran]
  · cases position <;> cases element <;> simp [Edit.Buries]
  · rintro host id rfl isElement noPrev noParent apart
    exact ⟨_, _, taken_after_reads sound.linked (known host (by simp [Edit.mentions]))
      (inside id isElement) noPrev noParent apart⟩

theorem insert_acyclic_iff {position element : Option ElementId} {outcome : Outcome}
    (known : (Edit.insert position element).Known store)
    (ran : store.insert true position element = .ok outcome) :
    outcome.store.Acyclic ↔ ¬ (Edit.insert position element).Buries store := by
  have inside : ∀ id, element = some id → id < store.size := by
    rintro id rfl
    exact known id (by simp [Edit.mentions])
  rw [linkWith_acyclic_iff sound acyclic inside ?_ ran]
  · cases position <;> cases element <;> simp [Edit.Buries]
  · rintro host id rfl isElement noPrev noParent apart
    exact ⟨_, _, taken_before_reads sound.linked (known host (by simp [Edit.mentions]))
      (inside id isElement) noPrev noParent apart⟩

theorem addNamed_acyclic (kind : Kind) (name : String) :
    ((store.addNamed kind name).getD store).Acyclic := by
  unfold addNamed
  split
  · exact (add_grown store _).acyclic sound.linked acyclic
  · exact acyclic

theorem parse_acyclic {text : String} {first last : Option Int} {parsed : Parsed}
    (ran : store.parse true text first last = .ok parsed) : parsed.store.Acyclic := by
  rcases parse_cases store text first last with ⟨failed, report, fails, same, _⟩ |
    ⟨forest, grown, ids, succeeds, grows, _⟩
  · rw [fails] at ran
    obtain rfl := Except.ok.inj ran
    exact same ▸ acyclic
  · rw [succeeds] at ran
    obtain rfl := Except.ok.inj ran
    exact grows.acyclic sound.linked acyclic

omit sound in
theorem replaceText_acyclic {element : Option ElementId} {text : Option String}
    {outcome : Outcome} (ran : store.replaceText true element text = .ok outcome) :
    outcome.store.Acyclic := by
  rcases replaceText_cases ran with same | ⟨id, text, _, changed⟩
  · exact same ▸ acyclic
  · rw [changed]
    exact relabelled_acyclic acyclic id (fun cell => { cell with text := some text })
      fun _ => ⟨rfl, rfl, rfl, rfl⟩

omit sound in
theorem replaceProperties_acyclic {element : Option ElementId}
    {properties : Option (Table String String)} {outcome : Outcome}
    (ran : store.replaceProperties true element properties = .ok outcome) :
    outcome.store.Acyclic := by
  rcases replaceProperties_cases ran with same | ⟨id, properties, changed⟩
  · exact same ▸ acyclic
  · rw [changed]
    exact relabelled_acyclic acyclic id (fun cell => { cell with properties := properties })
      fun _ => ⟨rfl, rfl, rfl, rfl⟩

/-- An edit closes a circle exactly if it buries a chain. -/
theorem apply_acyclic_iff {changed : Store} {edit : Edit} (known : edit.Known store)
    (ran : edit.apply store = .ok changed) : changed.Acyclic ↔ ¬ edit.Buries store := by
  have linked := sound.linked
  -- Most edits put no chain anywhere; these close no circle.
  have harmless : changed.Acyclic → ¬ edit.Buries store →
      (changed.Acyclic ↔ ¬ edit.Buries store) := fun stays => iff_of_true stays
  cases edit with
  | addText text =>
      cases ran
      exact harmless ((add_grown store _).acyclic linked acyclic) id
  | addNamed kind name =>
      cases ran
      exact harmless (addNamed_acyclic sound acyclic kind name) id
  | parse text first last =>
      obtain ⟨parsed, parses, rfl⟩ := map_eq_ok ran
      exact harmless (parse_acyclic sound acyclic parses) id
  | append position element =>
      obtain ⟨outcome, appends, rfl⟩ := map_eq_ok ran
      exact append_acyclic_iff sound acyclic known appends
  | insert position element =>
      obtain ⟨outcome, inserts, rfl⟩ := map_eq_ok ran
      exact insert_acyclic_iff sound acyclic known inserts
  | remove element =>
      cases ran
      refine harmless ?_ id
      cases element with
      | none => exact acyclic
      | some id => exact acyclic_of_parents acyclic (detach_pruned linked id).parent
  | destroy element =>
      cases ran
      refine harmless ?_ id
      cases element with
      | none => exact acyclic
      | some id => exact acyclic_of_parents acyclic (destroyOne_pruned linked id).parent
  | destroyAll start =>
      cases ran
      exact harmless (acyclic_of_parents acyclic (destroyAll_pruned linked start).parent) id
  | setVariable owner content =>
      obtain ⟨outcome, sets, rfl⟩ := map_eq_ok ran
      rw [setContent_acyclic_iff sound acyclic known sets]
      cases owner <;> rcases content with (_ | head) | _ <;> simp [Edit.Buries]
  | setCommand owner content =>
      obtain ⟨outcome, sets, rfl⟩ := map_eq_ok ran
      rw [setContent_acyclic_iff sound acyclic known sets]
      cases owner <;> rcases content with (_ | head) | _ <;> simp [Edit.Buries]
  | setText element text =>
      obtain ⟨outcome, sets, rfl⟩ := map_eq_ok ran
      exact harmless (replaceText_acyclic acyclic sets) id
  | setProperties element properties =>
      obtain ⟨outcome, sets, rfl⟩ := map_eq_ok ran
      exact harmless (replaceProperties_acyclic acyclic sets) id
  | copy element =>
      obtain ⟨copied, copies, rfl⟩ := map_eq_ok ran
      obtain ⟨tree, _, rfl⟩ := copy_cases copies
      exact harmless ((plant_grown store tree).acyclic linked acyclic) id
  | copyAll start =>
      obtain ⟨copied, copies, rfl⟩ := map_eq_ok ran
      obtain ⟨forest, _, rfl⟩ := copyAll_cases copies
      exact harmless ((plant_grown store forest).acyclic linked acyclic) id

end Circles

section Copies

variable {store : Store} (linked : store.Linked) (acyclic : store.Acyclic)
include linked acyclic

theorem exists_copyAll {id : ElementId} (inside : id < store.size) :
    ∃ copied, store.copyAll (some id) = .ok copied := by
  obtain ⟨forest, ids, planted⟩ := linked.exists_planted acyclic id inside
  exact ⟨_, by rw [copyAll, planted.forest?]⟩

theorem exists_copy {id : ElementId} (inside : id < store.size) :
    ∃ copied, store.copy id = .ok copied := by
  obtain ⟨forest, ids, planted⟩ := linked.exists_planted acyclic id inside
  cases planted with
  | cons _ _ _ child _ node body rest bodyIds restIds found bodyPlanted _ =>
      have read : store.tree? id = some (.cons node body .nil) := by
        simp [tree?, found, bodyPlanted.forest?]
      exact ⟨_, by rw [copy, read]⟩

end Copies

def RefusedInUse (store : Store) (call : Except Fault Outcome) : Prop :=
  ∃ refusal, call = .ok refusal ∧ refusal.store = store ∧ refusal.status = .elementInUse

theorem linkWith_held {store : Store} {host head : ElementId}
    {splice : ElementId → Store → ElementId → ElementId → Store}
    (held : host ∈ (store.visit (some head)).1) :
    RefusedInUse store (store.linkWith true (some host) (some head) splice) := by
  by_cases used : (store.prev head).isSome || (store.parent head).isSome
  · refine ⟨{ store, status := .elementInUse, notices := [.elementLinked] }, ?_, rfl, rfl⟩
    simp [linkWith, linkRefusal, used]
  · refine ⟨{ store, status := .elementInUse, notices := [.positionInChain] }, ?_, rfl, rfl⟩
    simp only [Bool.or_eq_true, not_or, Option.not_isSome_iff_eq_none] at used
    simp [linkWith, linkRefusal, used, present, adopt, held]

theorem install_held {store : Store} (linked : store.Linked) {owner head : ElementId}
    (held : owner ∈ (store.visit (some head)).1) :
    RefusedInUse store (store.install true owner (some head)) := by
  rcases install_cases linked owner (some head) with ⟨_, refused⟩ | ⟨admitted, _⟩
  · exact refused
  · exact absurd held (admitted head rfl).2.2

theorem Unburied.reachable {store : Store} (unburied : Unburied store) : Reachable store := by
  induction unburied with
  | empty => exact .empty
  | step store changed edit _ known _ ran ih => exact .step store changed edit ih known ran

/-- As long as no chain was buried, ownership is acyclic and every copy comes to an
end. Then an edit closes a circle exactly if it buries a chain, which the checks let
through; what they do refuse is to put a chain beside or into a member of its own. -/
theorem unburied_acyclic {store : Store} (unburied : Unburied store) :
    store.Acyclic ∧
    (∀ id, id < store.size → (∃ copied, store.copy id = .ok copied) ∧
      ∃ copied, store.copyAll (some id) = .ok copied) ∧
    (∀ (edit : Edit) (changed : Store), edit.Known store → edit.apply store = .ok changed →
      (changed.Acyclic ↔ ¬ edit.Buries store)) ∧
    ∀ host head, host ∈ (store.visit (some head)).1 →
      RefusedInUse store (store.append true (some host) (some head)) ∧
      RefusedInUse store (store.insert true (some host) (some head)) ∧
      RefusedInUse store (store.install true host (some head)) := by
  have sound := unburied.reachable.sound
  have acyclic : store.Acyclic := by
    -- Each edit on the way buried nothing, so it closed no circle either.
    induction unburied with
    | empty =>
        rw [acyclic_iff]
        rintro ⟨id, round⟩
        obtain ⟨owner, owned, _⟩ := TransGen.head'_iff.mp round
        exact absurd (inside_of_parent owned) (Nat.not_lt_zero id)
    | step store changed edit before known quiet ran ih =>
        have soundBefore := before.reachable.sound
        exact (apply_acyclic_iff soundBefore (ih soundBefore) known ran).mpr quiet
  refine ⟨acyclic, fun id inside => ?_, fun edit changed known ran => ?_, fun host head held => ?_⟩
  · exact ⟨exists_copy sound.linked acyclic inside, exists_copyAll sound.linked acyclic inside⟩
  · exact apply_acyclic_iff sound acyclic known ran
  · exact ⟨linkWith_held held, linkWith_held held, install_held sound.linked held⟩

def nested : Store :=
  ⟨#[⟨⟨.command, some "a", {}⟩, none, none, some 1, none⟩,
    ⟨⟨.command, some "b", {}⟩, none, none, none, some 0⟩]⟩

def entangled : Store :=
  ⟨#[⟨⟨.command, some "a", {}⟩, none, none, some 1, some 1⟩,
    ⟨⟨.command, some "b", {}⟩, none, none, some 0, some 0⟩]⟩

theorem nested_unburied : Unburied nested := by
  have first : Unburied ⟨#[{ toNode := ⟨.command, some "a", {}⟩ }]⟩ :=
    .step _ _ (.addNamed .command "a") .empty (by simp [Edit.Known, Edit.mentions]) id (by rfl)
  have second : Unburied ⟨#[{ toNode := ⟨.command, some "a", {}⟩ },
      { toNode := ⟨.command, some "b", {}⟩ }]⟩ :=
    .step _ _ (.addNamed .command "b") first (by simp [Edit.Known, Edit.mentions]) id (by rfl)
  refine .step _ _ (.setCommand (some 0) (.chain (some 1))) second
    (by simp [Edit.Known, Edit.mentions, Edit.heads, size]) ?_ (by rfl)
  rintro ⟨_, _, _, member, _, isAbove⟩
  obtain ⟨owner, owned, _⟩ := above_owner.mp isAbove
  cases owned

/-- A command is put into the body of one in its own body: the call succeeds, and
each of the two owns the other. -/
theorem entangled_reachable :
    nested.setBody true .command (some 1) (some 0) = .ok { store := entangled } ∧
      Reachable entangled ∧ ¬ entangled.Acyclic ∧
      entangled.copyAll (some 0) = .error .endless := by
  have circle : Above entangled 0 0 := .through 0 1 0 (by rfl) (.owner 1 0 (by rfl))
  refine ⟨by rfl, ?_, fun acyclic => acyclic 0 circle, by rfl⟩
  exact .step _ _ (.setCommand (some 1) (.chain (some 0))) nested_unburied.reachable
    (by simp [Edit.Known, Edit.mentions, Edit.heads, size, nested]) (by rfl)

/-- Before that burial everything is in order. -/
theorem nested_acyclic : nested.Acyclic ∧ (∃ copied, nested.copyAll (some 0) = .ok copied) ∧
    (Edit.setCommand (some 1) (.chain (some 0))).Buries nested := by
  obtain ⟨acyclic, copies, precisely, _⟩ := unburied_acyclic nested_unburied
  have known : (Edit.setCommand (some 1) (.chain (some 0))).Known nested := by
    simp [Edit.Known, Edit.mentions, Edit.heads, size, nested]
  refine ⟨acyclic, (copies 0 (by decide)).2, ?_⟩
  by_contra quiet
  have straight := (precisely _ entangled known (by rfl)).mpr quiet
  exact straight 0 (.through 0 1 0 (by rfl) (.owner 1 0 (by rfl)))

end Stencil.Store
