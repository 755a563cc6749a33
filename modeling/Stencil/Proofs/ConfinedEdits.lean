import Stencil.Proofs.Bookkeeping
import Stencil.Proofs.Confinement
import Stencil.Proofs.Editing

/-!
What edits are confined to. An edit writes to the elements that it names, to what is
linked with them, and to elements that it makes. So an edit of elements in a region that
no link leads out of is confined to the region, if all that is yet to be made belongs to
it, and no link leads out of the region afterwards. Checks matter nothing to this, and
nothing is asked of the links in the region or beyond it.
-/

namespace Stencil.Store

structure Realm (store : Store) (region : ElementId → Prop) : Prop where
  enclosed : store.Enclosed region
  later : ∀ id, store.size ≤ id → region id

section Realms

variable {store between changed : Store} {region other : ElementId → Prop}

theorem Confined.realm (confined : Confined store changed region) (realm : Realm store region) :
    Realm changed region where
  enclosed := confined.enclosed
  later := by
    intro id new
    by_contra outside
    have old : id < store.size := Nat.lt_of_not_le fun le => outside (realm.later id le)
    obtain ⟨cell, found⟩ := exists_cell store id old
    exact Nat.not_lt_of_le new (inside_of_get? ((confined.beyond id outside).trans found))

theorem Realm.then (realm : Realm store region) (first : Confined store between region)
    (second : Realm between region → Confined between changed region) :
    Confined store changed region :=
  first.trans (second (first.realm realm))

theorem Realm.next (realm : Realm store region) : region store.size :=
  realm.later _ (Nat.le_refl _)

theorem Inward.mono {cell : Element} (inward : Inward region cell)
    (wider : ∀ id, region id → other id) : Inward other cell :=
  ⟨fun id link => wider id (inward.next id link), fun id link => wider id (inward.prev id link),
    fun id link => wider id (inward.child id link), fun id link => wider id (inward.parent id link)⟩

variable (realm : Realm store region)
include realm

theorem Realm.grown {start : Option ElementId} {forest : Forest} {ids : List ElementId}
    (grows : Grown store changed start forest ids) : Confined store changed region := by
  refine ⟨fun id outside => grows.kept id ?_, enclosed_of_inward fun id cell inside found => ?_⟩
  · exact Nat.lt_of_not_le fun new => outside (realm.later id new)
  · by_cases old : id < store.size
    · exact realm.enclosed.inward inside ((grows.kept id old).symm.trans found)
    · have member := grows.all id (Nat.le_of_not_lt old) (inside_of_get? found)
      exact (grows.planted.enclosed.inward member found).mono fun other member =>
        realm.later other (grows.fresh other member)

theorem Realm.add (node : Node) : Confined store (store.add node) region :=
  realm.grown (add_grown store node)

theorem Realm.addNamed (kind : Kind) (name : String) :
    Confined store ((store.addNamed kind name).getD store) region := by
  unfold Store.addNamed
  split
  · exact realm.add ⟨kind, some name, {}⟩
  · exact .refl realm.enclosed

end Realms

theorem present_ok {element : Option ElementId} {id : ElementId} (ran : present element = .ok id) :
    element = some id := by
  cases element with
  | none => cases ran
  | some id =>
      cases ran
      rfl

section Linking

variable {store : Store} {region : ElementId → Prop} (enclosed : store.Enclosed region)
variable {checks : Bool} {outcome : Outcome}
include enclosed

theorem visitFor_within (count : Nat) {start : Option ElementId} (into : Into region start) :
    ∀ id ∈ (store.visitFor count start).1, region id := by
  induction count generalizing start with
  | zero => cases start <;> exact nofun
  | succ count ih =>
      cases start with
      | none => exact nofun
      | some head =>
          intro id member
          rcases List.mem_cons.mp member with same | later
          · exact same ▸ into head rfl
          · exact ih (enclosed.next head (into head rfl)) id later

theorem chain_within {start : Option ElementId} (into : Into region start)
    {members : List ElementId} (ran : store.chain start = .ok members) :
    ∀ id ∈ members, region id := by
  have visited := visitFor_within enclosed (store.size + 1) into
  unfold chain visit at ran
  split at ran
  · rename_i walk
    cases ran
    rwa [walk] at visited
  · cases ran

theorem setParents_confined {owner : Option ElementId} (into : Into region owner)
    {members : List ElementId} (within : ∀ id ∈ members, region id) :
    Confined store (store.setParents owner members) region := by
  induction members generalizing store with
  | nil => exact .refl enclosed
  | cons id rest ih =>
      refine (enclosed.setParent (within id List.mem_cons_self) into).then fun first => ?_
      exact ih first fun other member => within other (List.mem_cons_of_mem id member)

variable {position first last : ElementId} (here : region position)
variable (firstInside : region first) (lastInside : region last)

section Splices

include here firstInside lastInside

theorem spliceAfter_confined : Confined store (spliceAfter position store first last) region := by
  refine (enclosed.setPrev firstInside (into_some here)).then fun back => ?_
  refine (back.setNext lastInside (back.next position here)).then fun on => ?_
  refine (on.setNext here (into_some firstInside)).then fun linked => ?_
  simp only [spliceAfter]
  split
  · rename_i after isNext
    exact linked.setPrev (linked.next last lastInside after isNext) (into_some lastInside)
  · exact .refl linked

theorem spliceBefore_confined : Confined store (spliceBefore position store first last) region := by
  refine (enclosed.setPrev firstInside (enclosed.prev position here)).then fun back => ?_
  refine (back.setNext lastInside (into_some here)).then fun on => ?_
  refine (on.setPrev here (into_some lastInside)).then fun linked => ?_
  simp only [spliceBefore]
  split
  · rename_i before isPrev
    exact linked.setNext (linked.prev first firstInside before isPrev) (into_some firstInside)
  · rename_i owner _ owned
    split
    · exact linked.setChild (linked.parent position here owner owned) (into_some firstInside)
    · exact .refl linked
  · exact .refl linked

end Splices

theorem behind_confined {refusal : Option Outcome}
    (same : ∀ answer, refusal = some answer → answer.store = store)
    {next : Except Fault Outcome}
    (ran : (match if checks then refusal else none with
      | some refusal => Except.ok refusal
      | none => next) = .ok outcome)
    (confined : next = .ok outcome → Confined store outcome.store region) :
    Confined store outcome.store region := by
  split at ran
  · rename_i answer refused
    cases ran
    split at refused
    · exact .of_eq (same outcome refused) enclosed
    · cases refused
  · exact confined ran

theorem linkWith_confined {splice : ElementId → Store → ElementId → ElementId → Store}
    (splices : ∀ {store : Store}, store.Enclosed region → ∀ {position first last},
      region position → region first → region last →
        Confined store (splice position store first last) region)
    {position element : Option ElementId} (here : Into region position)
    (offered : Into region element)
    (ran : store.linkWith checks position element splice = .ok outcome) :
    Confined store outcome.store region := by
  refine behind_confined enclosed (fun answer refused => ?_) ran fun linked => ?_
  · unfold linkRefusal at refused
    split at refused
    · split at refused <;> cases refused
      rfl
    · cases refused
      rfl
  · obtain ⟨host, isHost, rest⟩ := bind_eq_ok.mp linked
    obtain ⟨head, isHead, adopts⟩ := bind_eq_ok.mp rest
    have headInside := offered head (present_ok isHead)
    have hostInside := here host (present_ok isHost)
    have members := visitFor_within enclosed (store.size + 1) (into_some headInside)
    simp only [adopt] at adopts
    split at adopts
    · cases adopts
      exact .refl enclosed
    · split at adopts
      · cases adopts
      · cases adopts
        refine (setParents_confined enclosed (enclosed.parent host hostInside)
          members).then fun owned => splices owned hostInside headInside ?_
        cases isLast : (store.visit (some head)).1.getLast? with
        | none => exact headInside
        | some last => exact members last (List.mem_of_getLast? isLast)

theorem append_confined {position element : Option ElementId} (here : Into region position)
    (offered : Into region element) (ran : store.append checks position element = .ok outcome) :
    Confined store outcome.store region :=
  linkWith_confined enclosed spliceAfter_confined here offered ran

theorem insert_confined {position element : Option ElementId} (here : Into region position)
    (offered : Into region element) (ran : store.insert checks position element = .ok outcome) :
    Confined store outcome.store region :=
  linkWith_confined enclosed spliceBefore_confined here offered ran

theorem remove_confined {element : Option ElementId} (into : Into region element) :
    Confined store (store.remove element).store region := by
  cases element with
  | none => exact .refl enclosed
  | some id => exact detach_confined enclosed (into id rfl)

theorem destroy_confined {element : Option ElementId} (into : Into region element) :
    Confined store (store.destroy element).1 region := by
  cases element with
  | none => exact .refl enclosed
  | some id => exact destroyOne_confined enclosed (into id rfl)

end Linking

section Bodies

variable {store : Store} {region : ElementId → Prop} (enclosed : store.Enclosed region)
variable {checks : Bool} {outcome : Outcome} {kind : Kind} {owner content : Option ElementId}
include enclosed

theorem replaceBody_confined {host : ElementId} (inside : region host)
    (into : Into region content) (ran : store.replaceBody host content = .ok outcome) :
    Confined store outcome.store region := by
  obtain ⟨members, visited, done⟩ := bind_eq_ok.mp ran
  cases done
  refine (destroyAll_confined enclosed (enclosed.child host inside)).then fun emptied => ?_
  refine (setParents_confined emptied (into_some inside)
    (chain_within emptied into visited)).then fun owned => ?_
  exact owned.setChild inside into

theorem install_confined {host : ElementId} (inside : region host) (into : Into region content)
    (ran : store.install checks host content = .ok outcome) :
    Confined store outcome.store region := by
  cases checks with
  | false => exact replaceBody_confined enclosed inside into ran
  | true =>
      obtain ⟨refusal, refused, rest⟩ := bind_eq_ok.mp (show _ >>= _ = _ from ran)
      cases refusal with
      | none => exact replaceBody_confined enclosed inside into rest
      | some answer =>
          cases rest
          exact .of_eq (bodyRefusal_store refused) enclosed

theorem setBody_confined (host : Into region owner) (into : Into region content)
    (ran : store.setBody checks kind owner content = .ok outcome) :
    Confined store outcome.store region := by
  refine behind_confined enclosed (fun _ => kindRefusal_store) ran fun sets => ?_
  obtain ⟨id, isOwner, installs⟩ := bind_eq_ok.mp sets
  exact install_confined enclosed (host id (present_ok isOwner)) into installs

theorem setText_confined {id : ElementId} (inside : region id) (text : Option String) :
    Confined store (store.setText id text) region :=
  enclosed.update inside fun _ inward => ⟨inward.next, inward.prev, inward.child, inward.parent⟩

theorem setProperties_confined {id : ElementId} (inside : region id)
    (properties : Table String String) :
    Confined store (store.setProperties id properties) region :=
  enclosed.update inside fun _ inward => ⟨inward.next, inward.prev, inward.child, inward.parent⟩

variable {element : Option ElementId} (into : Into region element)
include into

theorem replaceText_confined {text : Option String}
    (ran : store.replaceText checks element text = .ok outcome) :
    Confined store outcome.store region := by
  refine behind_confined enclosed (fun answer refused => ?_) ran fun sets => ?_
  · split at refused
    · exact kindRefusal_store refused
    · cases refused
      rfl
  · obtain ⟨id, isElement, done⟩ := bind_eq_ok.mp sets
    cases done
    exact setText_confined enclosed (into id (present_ok isElement)) text

theorem replaceProperties_confined {properties : Option (Table String String)}
    (ran : store.replaceProperties checks element properties = .ok outcome) :
    Confined store outcome.store region := by
  refine behind_confined enclosed (fun answer refused => ?_) ran fun sets => ?_
  · split at refused
    · exact kindRefusal_store refused
    · cases refused
      rfl
  · cases properties with
    | none => cases sets
    | some properties =>
        obtain ⟨id, isElement, done⟩ := bind_eq_ok.mp sets
        cases done
        exact setProperties_confined enclosed (into id (present_ok isElement)) properties

end Bodies

section Parsing

variable {store : Store} {region : ElementId → Prop} (realm : Realm store region)
variable {checks : Bool} {source : Source}
include realm

theorem addBehind_confined {node : Node} {last : Option ElementId} (into : Into region last)
    {linked : Store} (ran : store.addBehind checks node last = .ok linked) :
    Confined store linked region := by
  cases last with
  | none =>
      cases ran
      exact realm.add node
  | some last =>
      obtain ⟨outcome, appends, rfl⟩ := map_eq_ok ran
      exact realm.then (realm.add node) fun added =>
        append_confined added.enclosed into (into_some realm.next) appends

theorem layOut_confined (pieces : List Piece) {last : Option ElementId}
    (into : Into region last) {laid : Store × List Waiting}
    (ran : store.layOut checks last pieces = .ok laid) :
    Confined store laid.1 region ∧ ∀ body ∈ laid.2, region body.owner := by
  induction pieces generalizing store last laid with
  | nil =>
      cases ran
      exact ⟨.refl realm.enclosed, nofun⟩
  | cons piece rest ih =>
      rw [layOut_cons] at ran
      obtain ⟨linked, adds, later⟩ := bind_eq_ok.mp ran
      obtain ⟨tail, lays, done⟩ := bind_eq_ok.mp later
      cases done
      have first := addBehind_confined realm into adds
      obtain ⟨confined, owners⟩ := ih (first.realm realm) (into_some realm.next) lays
      refine ⟨first.trans confined, fun body member => ?_⟩
      rcases List.mem_append.mp member with own | other
      · obtain ⟨span, _, rfl⟩ := Option.map_eq_some_iff.mp (Option.mem_toList.mp own)
        exact realm.next
      · exact owners body other

theorem readLevel_confined {span : Span} {level : Store × List Waiting}
    (ran : readLevel checks source store span = .ok level) :
    Confined store level.1 region ∧ ∀ body ∈ level.2, region body.owner := by
  obtain ⟨pieces, _, lays⟩ := bind_eq_ok.mp ran
  exact layOut_confined realm pieces into_none (ofScan_eq_ok.mp lays)

theorem fillBodies_confined (count : Nat) {waiting : List Waiting}
    (owners : ∀ body ∈ waiting, region body.owner) {filled : Store}
    (ran : fillBodies checks source count waiting store = .ok filled) :
    Confined store filled region := by
  induction count generalizing store waiting with
  | zero =>
      cases waiting with
      | nil =>
          cases ran
          exact .refl realm.enclosed
      | cons body rest => cases ran
  | succ count ih =>
      cases waiting with
      | nil =>
          cases ran
          exact .refl realm.enclosed
      | cons body rest =>
          obtain ⟨level, reads, later⟩ := bind_eq_ok.mp ran
          obtain ⟨outcome, sets, fills⟩ := bind_eq_ok.mp later
          have owner := owners body List.mem_cons_self
          obtain ⟨read, below⟩ := readLevel_confined realm reads
          refine realm.then read fun grown => ?_
          have installed := setBody_confined grown.enclosed (into_some owner)
            (into_some realm.next) (ofScan_eq_ok.mp sets)
          refine grown.then installed fun hung => ih hung (fun other member => ?_) fills
          rcases List.mem_append.mp member with inner | outer
          · exact below other inner
          · exact owners other (List.mem_cons_of_mem body outer)

variable {text : String} {first last : Option Int}

theorem parse_confined {parsed : Parsed} (ran : store.parse checks text first last = .ok parsed) :
    Confined store parsed.store region ∧ ∀ head, parsed.result = .ok head → region head := by
  simp only [parse] at ran
  split at ran
  · cases ran
    refine ⟨realm.add _, ?_⟩
    rintro head ⟨⟩
    exact realm.next
  · split at ran
    · cases ran
      refine ⟨.refl realm.enclosed, ?_⟩
      rintro head ⟨⟩
    · split at ran
      · rename_i spanned parses
        cases ran
        obtain ⟨level, reads, later⟩ := bind_eq_ok.mp parses
        obtain ⟨filled, fills, done⟩ := bind_eq_ok.mp later
        cases done
        obtain ⟨read, owners⟩ := readLevel_confined realm reads
        refine ⟨realm.then read fun grown => fillBodies_confined grown _ owners fills, ?_⟩
        rintro head ⟨⟩
        exact realm.next
      · cases ran
      · cases ran
        refine ⟨.refl realm.enclosed, ?_⟩
        rintro head ⟨⟩

theorem setBodyText_confined {kind : Kind} {owner : Option ElementId} (into : Into region owner)
    {outcome : Outcome} (ran : store.setBodyText checks kind owner text first last = .ok outcome) :
    Confined store outcome.store region := by
  refine behind_confined realm.enclosed (fun _ => kindRefusal_store) ran fun sets => ?_
  obtain ⟨parsed, parses, later⟩ := bind_eq_ok.mp sets
  obtain ⟨grown, headInside⟩ := parse_confined realm parses
  split at later
  · cases later
    exact .refl realm.enclosed
  · rename_i head isHead
    obtain ⟨host, isOwner, rest⟩ := bind_eq_ok.mp later
    obtain ⟨answer, installs, done⟩ := bind_eq_ok.mp rest
    cases done
    have installed : Confined parsed.store answer.store region :=
      install_confined grown.enclosed (into host (present_ok isOwner))
        (into_some (headInside head isHead)) installs
    exact grown.trans installed

theorem copy_confined {id : ElementId} {copied : Store × Option ElementId}
    (ran : store.copy id = .ok copied) : Confined store copied.1 region := by
  obtain ⟨tree, _, rfl⟩ := copy_cases ran
  exact realm.grown (plant_grown store tree)

theorem copyAll_confined {start : Option ElementId} {copied : Store × Option ElementId}
    (ran : store.copyAll start = .ok copied) : Confined store copied.1 region := by
  obtain ⟨forest, _, rfl⟩ := copyAll_cases ran
  exact realm.grown (plant_grown store forest)

end Parsing

end Stencil.Store
