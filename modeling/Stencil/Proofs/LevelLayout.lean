import Stencil.Proofs.Planting
import Stencil.Proofs.BodyReplacement
import Stencil.Store.Parse

/-!
Laying a level out. The pieces of a level come to stand in new cells with one id
after the other, each cell linked to its neighbours and without a body. Whether
checks are on or not, every step of this succeeds, and so does making the chain
of a level the body of an element that has none.
-/

namespace Stencil.Store

theorem get?_setParents (store : Store) (owner : Option ElementId) (members : List ElementId)
    (id : ElementId) :
    (store.setParents owner members).get? id =
      if id ∈ members then (store.get? id).map fun cell => { cell with parent := owner }
      else store.get? id := by
  induction members generalizing store with
  | nil => rfl
  | cons member rest ih =>
      change ((store.setParent member owner).setParents owner rest).get? id = _
      rw [ih, setParent, get?_update]
      by_cases same : member = id
      · by_cases later : id ∈ rest <;> simp [same, later, Option.map_map, Function.comp_def]
      · simp [same, Ne.symm same]

def rowStart (id : Nat) : List Piece → Option ElementId
  | [] => none
  | _ :: _ => some id

theorem rowStart_filled (id : Nat) {pieces : List Piece} (filled : pieces ≠ []) :
    rowStart id pieces = some id := by
  obtain ⟨piece, rest, rfl⟩ := List.exists_cons_of_ne_nil filled
  rfl

def Row (store : Store) (owner : Option ElementId) :
    Option ElementId → Nat → List Piece → Prop
  | _, _, [] => True
  | before, id, piece :: rest =>
      store.get? id = some ⟨piece.node, rowStart (id + 1) rest, before, none, owner⟩ ∧
        Row store owner (some id) (id + 1) rest

def rowBodies : Nat → List Piece → List Waiting
  | _, [] => []
  | id, piece :: rest => waitingFor id piece ++ rowBodies (id + 1) rest

theorem Row.kept {store changed : Store} {owner before : Option ElementId} {id : Nat}
    {pieces : List Piece} (row : store.Row owner before id pieces)
    (same : ∀ other : Nat, id ≤ other → other < id + pieces.length →
      changed.get? other = store.get? other) : changed.Row owner before id pieces := by
  induction pieces generalizing before id with
  | nil => exact trivial
  | cons piece rest ih =>
      simp only [List.length_cons] at same
      refine ⟨(same id (Nat.le_refl id) (by omega)).trans row.1, ih row.2 fun other ge lt => ?_⟩
      exact same other (by omega) (by omega)

theorem mem_rowBodies {id : Nat} {pieces : List Piece} {body : Waiting}
    (member : body ∈ rowBodies id pieces) :
    (id ≤ body.owner ∧ body.owner < id + pieces.length) ∧
      ∃ piece ∈ pieces, piece.body = some body.span := by
  induction pieces generalizing id with
  | nil => simp [rowBodies] at member
  | cons piece rest ih =>
      rw [List.length_cons]
      rcases List.mem_append.mp member with here | later
      · simp only [waitingFor, Option.mem_toList, Option.map_eq_some_iff] at here
        obtain ⟨span, isBody, rfl⟩ := here
        exact ⟨⟨Nat.le_refl id, Nat.lt_add_of_pos_right (Nat.succ_pos _)⟩, piece,
          List.mem_cons_self, isBody⟩
      · obtain ⟨⟨after, inside⟩, other, isPiece, isBody⟩ := ih later
        have room : id + 1 + rest.length = id + (rest.length + 1) := by omega
        exact ⟨⟨Nat.le_of_succ_le after, room ▸ inside⟩, other, List.mem_cons_of_mem piece isPiece,
          isBody⟩

theorem rowBodies_nodup (id : Nat) (pieces : List Piece) :
    ((rowBodies id pieces).map Waiting.owner).Nodup := by
  induction pieces generalizing id with
  | nil => simp [rowBodies]
  | cons piece rest ih =>
      rw [rowBodies, List.map_append, List.nodup_append']
      refine ⟨?_, ih (id + 1), ?_⟩
      · cases isBody : piece.body <;> simp [waitingFor, isBody]
      · intro owner here later
        obtain ⟨body, member, rfl⟩ := List.mem_map.mp later
        obtain ⟨first, isFirst, same⟩ := List.mem_map.mp here
        simp only [waitingFor, Option.mem_toList, Option.map_eq_some_iff] at isFirst
        obtain ⟨span, _, rfl⟩ := isFirst
        have after := (mem_rowBodies member).1.1
        rw [← same] at after
        exact absurd after (Nat.not_succ_le_self id)

theorem Row.bare {store : Store} {owner before : Option ElementId} {id other : Nat}
    {pieces : List Piece} (row : store.Row owner before id pieces) (ge : id ≤ other)
    (lt : other < id + pieces.length) :
    ∃ cell, store.get? other = some cell ∧ cell.child = none ∧ cell.parent = owner := by
  induction pieces generalizing before id with
  | nil =>
      simp only [List.length_nil] at lt
      omega
  | cons piece rest ih =>
      simp only [List.length_cons] at lt
      by_cases same : other = id
      · exact ⟨_, same ▸ row.1, rfl, rfl⟩
      · exact ih row.2 (by omega) (by omega)

theorem Row.visitFor {store : Store} {owner before : Option ElementId} {id : Nat}
    {pieces : List Piece} (row : store.Row owner before id pieces) (count : Nat)
    (enough : pieces.length ≤ count) :
    store.visitFor count (rowStart id pieces) = (List.range' id pieces.length, none) := by
  induction pieces generalizing before id count with
  | nil => cases count <;> rfl
  | cons piece rest ih =>
      simp only [List.length_cons] at enough
      obtain ⟨count, rfl⟩ : ∃ fewer, count = fewer + 1 := ⟨count - 1, by omega⟩
      have next := (links_of_cell row.1).1
      simp only at next
      have tail := ih row.2 count (by omega)
      change (id :: (store.visitFor count (store.next id)).1,
        (store.visitFor count (store.next id)).2) = _
      rw [next, tail, List.length_cons, List.range'_succ]

section Add

variable (checks : Bool) (store : Store) (node : Node)

theorem spliceAfter_end {store : Store} {position first last : ElementId}
    (noNext : (store.setPrev first (some position)).next position = none)
    (ends : (((store.setPrev first (some position)).setNext last none).setNext position
      (some first)).next last = none) :
    spliceAfter position store first last =
      ((store.setPrev first (some position)).setNext last none).setNext position (some first) := by
  simp only [spliceAfter, noNext, ends]

theorem append_added {last : ElementId} {cell : Element} (found : store.get? last = some cell)
    (noNext : cell.next = none) (noParent : cell.parent = none) :
    ∃ linked, (store.add node).append checks (some last) (some store.size) =
        .ok { store := linked } ∧ linked.size = store.size + 1 ∧
      linked.get? store.size = some ⟨node, none, some last, none, none⟩ ∧
      linked.get? last = some { cell with next := some store.size } ∧
      ∀ id, id < store.size → id ≠ last → linked.get? id = store.get? id := by
  have different : last ≠ store.size := Nat.ne_of_lt (inside_of_get? found)
  have newCell := get?_add store node store.size
  have lastCell := get?_add store node last
  rw [if_pos rfl] at newCell
  rw [if_neg different, found] at lastCell
  have newLinks := links_of_cell newCell
  have lastLinks := links_of_cell lastCell
  simp only [noNext, noParent] at newLinks lastLinks
  -- The chain that is put behind has one member, its first and its last.
  have walk : (store.add node).visit (some store.size) = ([store.size], none) := by
    simp [visit, visitFor, newLinks]
  have accepted : (if checks then (store.add node).linkRefusal (some last) (some store.size)
      else none) = none := by
    cases checks <;> simp [linkRefusal, newLinks]
  have outside : (checks && [store.size].contains last) = false := by
    cases checks <;> simp [different]
  let owned := (store.add node).setParent store.size none
  let joined := ((owned.setPrev store.size (some last)).setNext store.size none).setNext last
    (some store.size)
  have cells : ∀ id, joined.get? id =
      if id = store.size then some (⟨node, none, some last, none, none⟩ : Element)
      else if id = last then some ({ cell with next := some store.size } : Element)
      else store.get? id := by
    intro id
    simp only [joined, owned, setNext, setPrev, setParent, get?_update, get?_add]
    by_cases isNew : id = store.size
    · simp [isNew, different]
    · by_cases isLast : id = last
      · simp [isLast, different, Ne.symm different, found]
      · simp [isNew, isLast, Ne.symm isNew, Ne.symm isLast]
  have rejoined : joined.next store.size = none := by
    have newest := cells store.size
    rw [if_pos rfl] at newest
    exact (links_of_cell newest).1
  refine ⟨joined, ?_, by simp [joined, owned, size_add], ?_, ?_, fun id old notLast => ?_⟩
  · have kept : (owned.setPrev store.size (some last)).next last = none := by
      simp [owned, lastLinks]
    simp only [append, linkWith, accepted, present, ok_bind, adopt, walk, outside, lastLinks,
      setParents, List.foldl, Option.isSome_none, List.getLast?_singleton, Option.getD_some,
      Bool.false_eq_true, if_false]
    have spliced : spliceAfter last owned store.size store.size = joined :=
      spliceAfter_end kept rejoined
    exact congrArg (fun store => (Except.ok { store } : Except Fault Outcome)) spliced
  · rw [cells, if_pos rfl]
  · rw [cells, if_neg different, if_pos rfl]
  · rw [cells, if_neg (Nat.ne_of_lt old), if_neg notLast]

def addBehind (checks : Bool) (store : Store) (node : Node) :
    Option ElementId → Except Fault Store
  | none => .ok (store.add node)
  | some last => Outcome.store <$> (store.add node).append checks (some last) (some store.size)

theorem layOut_cons (last : Option ElementId) (piece : Piece) (rest : List Piece) :
    store.layOut checks last (piece :: rest) = (do
      let linked ← store.addBehind checks piece.node last
      let tail ← linked.layOut checks (some store.size) rest
      pure (tail.1, waitingFor store.size piece ++ tail.2)) := by
  cases last <;> rfl

theorem addBehind_spec (last : Option ElementId)
    (ready : ∀ id, last = some id →
      ∃ cell, store.get? id = some cell ∧ cell.next = none ∧ cell.parent = none) :
    ∃ linked, store.addBehind checks node last = .ok linked ∧ linked.size = store.size + 1 ∧
      linked.get? store.size = some ⟨node, none, last, none, none⟩ ∧
      (∀ id, id < store.size → last ≠ some id → linked.get? id = store.get? id) ∧
      ∀ id, last = some id → linked.get? id =
        (store.get? id).map fun cell => { cell with next := some store.size } := by
  cases last with
  | none =>
      refine ⟨store.add node, rfl, size_add store _, ?_, fun id old _ => ?_, by simp⟩
      · rw [get?_add, if_pos rfl]
      · rw [get?_add, if_neg (Nat.ne_of_lt old)]
  | some last =>
      obtain ⟨cell, found, noNext, noParent⟩ := ready last rfl
      obtain ⟨linked, ran, size, newest, behind, others⟩ :=
        append_added checks store node found noNext noParent
      refine ⟨linked, by simp [addBehind, ran], size, newest, fun id old notLast => ?_, ?_⟩
      · exact others id old fun same => notLast (congrArg some same.symm)
      · rintro id ⟨⟩
        rw [behind, found, Option.map_some]

/-- Laying pieces out puts them into a row of new cells behind `last`. -/
theorem layOut_spec (pieces : List Piece) (last : Option ElementId)
    (ready : ∀ id, last = some id →
      ∃ cell, store.get? id = some cell ∧ cell.next = none ∧ cell.parent = none) :
    ∃ laid, store.layOut checks last pieces = .ok (laid, rowBodies store.size pieces) ∧
      laid.size = store.size + pieces.length ∧ laid.Row none last store.size pieces ∧
      (∀ id, id < store.size → last ≠ some id → laid.get? id = store.get? id) ∧
      ∀ id, last = some id → laid.get? id =
        (store.get? id).map fun cell => { cell with next := rowStart store.size pieces } := by
  induction pieces generalizing store last with
  | nil =>
      refine ⟨store, rfl, rfl, trivial, fun _ _ _ => rfl, fun id isLast => ?_⟩
      obtain ⟨cell, found, noNext, _⟩ := ready id isLast
      rw [found, Option.map_some, rowStart, ← noNext]
  | cons piece rest ih =>
      obtain ⟨linked, ran, size, newest, others, behind⟩ :=
        addBehind_spec checks store piece.node last ready
      -- The first piece gets its next link only when the others are put behind it.
      obtain ⟨laid, laidRan, laidSize, row, kept, passed⟩ := ih linked (some store.size) (by
        rintro id ⟨⟩
        exact ⟨_, newest, rfl, rfl⟩)
      rw [size] at laidRan laidSize row kept passed
      have notNew : ∀ id, id < store.size → some store.size ≠ some id := fun id old same =>
        Nat.ne_of_gt old (Option.some.inj same)
      refine ⟨laid, ?_, ?_, ⟨?_, row⟩, fun id old notLast => ?_, fun id isLast => ?_⟩
      · rw [layOut_cons, ran, ok_bind, laidRan]
        rfl
      · rw [laidSize, List.length_cons]
        omega
      · rw [passed store.size rfl, newest, Option.map_some]
      · rw [kept id (Nat.lt_succ_of_lt old) (notNew id old), others id old notLast]
      · obtain ⟨cell, found, _⟩ := ready id isLast
        have old := inside_of_get? found
        rw [kept id (Nat.lt_succ_of_lt old) (notNew id old), behind id isLast]
        rfl

end Add

theorem Row.adopted {store changed : Store} {owner before : Option ElementId} {id : Nat}
    {pieces : List Piece} (row : store.Row none before id pieces)
    (adopts : ∀ other : Nat, id ≤ other → other < id + pieces.length →
      changed.get? other = (store.get? other).map fun cell => { cell with parent := owner }) :
    changed.Row owner before id pieces := by
  induction pieces generalizing before id with
  | nil => exact trivial
  | cons piece rest ih =>
      simp only [List.length_cons] at adopts
      constructor
      · rw [adopts id (Nat.le_refl id) (by omega), row.1]
        rfl
      · exact ih row.2 fun other ge lt => adopts other (by omega) (by omega)

section Body

variable (checks : Bool) {store : Store} {owner head : Nat} {cell : Element} {pieces : List Piece}
variable (found : store.get? owner = some cell) (bare : cell.child = none)
variable (filled : pieces ≠ []) (row : store.Row none none head pieces) (before : owner < head)
variable (inside : head + pieces.length ≤ store.size)
include found bare filled row before inside

-- No check fails, and there is no old body to destroy.
theorem setBody_bare :
    store.setBody checks ((store.kind? owner).getD .command) (some owner) (some head) =
      .ok { store := (store.setParents (some owner)
              (List.range' head pieces.length)).setChild owner (some head) } := by
  have walk : store.visit (some head) = (List.range' head pieces.length, none) := by
    rw [← rowStart_filled head filled]
    exact row.visitFor (store.size + 1) (by omega)
  have noPrev : store.prev head = none := by
    obtain ⟨piece, rest, rfl⟩ := List.exists_cons_of_ne_nil filled
    exact (links_of_cell row.1).2.1
  have noChild : store.child owner = none := (links_of_cell found).2.2.1.trans bare
  have emptied : store.destroyAll (store.child owner) = store := by
    rw [noChild]
    rfl
  have kind : store.kind? owner = some cell.kind := by simp [kind?, found]
  have accepted : (if checks then store.kindRefusal ((store.kind? owner).getD .command) (some owner)
      else none) = none := by
    cases checks <;> simp [kindRefusal, kind]
  have free : (List.range' head pieces.length).any
      (fun id => (store.parent id).isSome || id == owner) = false := by
    rw [List.any_eq_false]
    intro id member
    have bounds := List.mem_range'_1.mp member
    obtain ⟨other, foundOther, _, unowned⟩ := row.bare bounds.1 bounds.2
    have different : id ≠ owner := by omega
    simp [(links_of_cell foundOther).2.2.2, unowned, different]
  have installs : store.install checks owner (some head) =
      store.replaceBody owner (some head) := by
    cases checks with
    | false => rfl
    | true => simp [install, bodyRefusal, noPrev, walk, free]
  simp only [setBody, accepted, present, ok_bind, installs, replaceBody, emptied, chain, walk,
    pure_eq_ok]

theorem setBody_row :
    ∃ bodied, store.setBody checks ((store.kind? owner).getD .command) (some owner) (some head) =
        .ok { store := bodied } ∧ bodied.size = store.size ∧
      bodied.Row (some owner) none head pieces ∧
      bodied.get? owner = some { cell with child := some head } ∧
      ∀ id : Nat, id ≠ owner → (id < head ∨ head + pieces.length ≤ id) →
        bodied.get? id = store.get? id := by
  let owned := store.setParents (some owner) (List.range' head pieces.length)
  have cells : ∀ id : Nat, owned.get? id =
      if id ∈ List.range' head pieces.length then
        (store.get? id).map fun cell => { cell with parent := some owner }
      else store.get? id := get?_setParents store _ _
  refine ⟨owned.setChild owner (some head), ?_, by simp [owned], ?_, ?_, fun id notOwner out => ?_⟩
  · exact setBody_bare checks found bare filled row before inside
  · apply row.adopted
    intro id ge lt
    have different : owner ≠ id := Nat.ne_of_lt (Nat.lt_of_lt_of_le before ge)
    rw [setChild, get?_update_elsewhere _ _ _ _ different, cells,
      if_pos (List.mem_range'_1.mpr ⟨ge, lt⟩)]
  · have notMember : owner ∉ List.range' head pieces.length := by
      intro member
      have bounds := List.mem_range'_1.mp member
      omega
    rw [setChild, get?_update, if_pos rfl, cells, if_neg notMember, found]
    rfl
  · have outside : id ∉ List.range' head pieces.length := by
      intro member
      have bounds := List.mem_range'_1.mp member
      omega
    rw [setChild, get?_update_elsewhere _ _ _ _ (Ne.symm notOwner), cells, if_neg outside]

end Body

end Stencil.Store
