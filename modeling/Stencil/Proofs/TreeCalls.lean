import Stencil.Proofs.BodyWorklist

/-!
The calls that a parse makes on the tree. A parse goes on with the store that a
call leaves and does not look at the status it answers with. The noting parse
differs in one thing: it keeps these statuses. It gives what the parse gives, and
every status is `ok`: an element is put behind one that ends its chain, and a
body is given to an element that has none.
-/

namespace Stencil

section Notes

variable {Error Value Next : Type}

def noteNext (noting : Except Error (List Status × Value))
    (next : Value → Except Error (List Status × Next)) : Except Error (List Status × Next) := do
  let first ← noting
  let second ← next first.2
  pure (first.1 ++ second.1, second.2)

def Granted (noting : Except Error (List Status × Value)) (plain : Except Error Value) : Prop :=
  ∃ calls, noting = (fun value => (List.replicate calls .ok, value)) <$> plain

theorem Granted.ok (value : Value) : Granted (.ok ([], value) : Except Error _) (.ok value) :=
  ⟨0, rfl⟩

theorem Granted.error (error : Error) :
    Granted (.error error : Except Error (List Status × Value)) (.error error) :=
  ⟨0, rfl⟩

theorem Granted.next {noting : Except Error (List Status × Value)} {plain : Except Error Value}
    {nextNoting : Value → Except Error (List Status × Next)} {next : Value → Except Error Next}
    (first : Granted noting plain)
    (second : ∀ value, plain = .ok value → Granted (nextNoting value) (next value)) :
    Granted (noteNext noting nextNoting) (plain >>= next) := by
  obtain ⟨calls, rfl⟩ := first
  cases plain with
  | error error => exact .error error
  | ok value =>
      obtain ⟨more, granted⟩ := second value rfl
      refine ⟨calls + more, ?_⟩
      simp only [noteNext, map_ok, ok_bind, granted, ← List.replicate_append_replicate]
      cases next value <;> rfl

end Notes

namespace Store

def noteCall (call : Except Fault Outcome) : Except Fault (List Status × Store) :=
  (fun outcome => ([outcome.status], outcome.store)) <$> call

def addNoting (checks : Bool) (store : Store) (node : Node) :
    Option ElementId → Except Fault (List Status × Store)
  | none => .ok ([], store.add node)
  | some last => noteCall ((store.add node).append checks (some last) (some store.size))

def layOutNoting (checks : Bool) (store : Store) (last : Option ElementId) :
    List Piece → Except Fault (List Status × Store × List Waiting)
  | [] => .ok ([], store, [])
  | piece :: rest =>
      noteNext (store.addNoting checks piece.node last) fun linked =>
        noteNext (layOutNoting checks linked (some store.size) rest) fun tail =>
          .ok ([], tail.1, waitingFor store.size piece ++ tail.2)

def readLevelNoting (checks : Bool) (source : Source) (store : Store) (span : Span) :
    Except Stop (List Status × Store × List Waiting) := do
  let pieces ← Level.read source span
  Stop.ofScan (store.layOutNoting checks none pieces)

def fillBodiesNoting (checks : Bool) (source : Source) :
    Nat → List Waiting → Store → Except Stop (List Status × Store)
  | _, [], store => pure ([], store)
  | 0, _ :: _, _ => .error (.fault .endless)
  | count + 1, waiting :: rest, store =>
      noteNext (readLevelNoting checks source store waiting.span) fun level =>
        let kind := (store.kind? waiting.owner).getD .command
        noteNext (Stop.ofScan
            (noteCall (level.1.setBody checks kind (some waiting.owner) (some store.size))))
          fun filled => fillBodiesNoting checks source count (level.2 ++ rest) filled

def parseSpanNoting (checks : Bool) (source : Source) (store : Store) (span : Span) :
    Except Stop (List Status × Store × ElementId) :=
  noteNext (readLevelNoting checks source store span) fun level =>
    noteNext (fillBodiesNoting checks source (span.stop - span.start) level.2 level.1) fun filled =>
      .ok ([], filled, store.size)

theorem noteCall_granted {call : Except Fault Outcome} {store : Store}
    (granted : call = .ok { store }) : Granted (noteCall call) (Outcome.store <$> call) := by
  subst granted
  exact ⟨1, rfl⟩

theorem ofScan_granted {Value : Type} {noting : Except Fault (List Status × Value)}
    {plain : Except Fault Value} (granted : Granted noting plain) :
    Granted (Stop.ofScan noting) (Stop.ofScan plain) := by
  obtain ⟨calls, rfl⟩ := granted
  refine ⟨calls, ?_⟩
  cases plain <;> rfl

theorem granted_call {Value : Type} {call : Except Fault Outcome} {after : Store}
    (granted : call = .ok { store := after }) (next : Store → Except Stop Value)
    {nextNoting : Store → Except Stop (List Status × Value)}
    (second : Granted (nextNoting after) (next after)) :
    Granted (noteNext (Stop.ofScan (noteCall call)) nextNoting)
      (Stop.ofScan call >>= fun outcome => next outcome.store) := by
  subst granted
  have first : Granted (Stop.ofScan (noteCall (.ok { store := after }))) (.ok after) :=
    ofScan_granted (noteCall_granted rfl)
  refine first.next fun known same => ?_
  exact Except.ok.inj same ▸ second

variable (checks : Bool)

theorem addNoting_granted (store : Store) (node : Node) (last : Option ElementId)
    (ready : ∀ id, last = some id →
      ∃ cell, store.get? id = some cell ∧ cell.next = none ∧ cell.parent = none) :
    Granted (store.addNoting checks node last) (store.addBehind checks node last) := by
  cases last with
  | none => exact .ok (store.add node)
  | some last =>
      obtain ⟨cell, found, noNext, noParent⟩ := ready last rfl
      obtain ⟨linked, ran, _⟩ := append_added checks store node found noNext noParent
      exact noteCall_granted ran

theorem layOutNoting_granted (store : Store) (pieces : List Piece) (last : Option ElementId)
    (ready : ∀ id, last = some id →
      ∃ cell, store.get? id = some cell ∧ cell.next = none ∧ cell.parent = none) :
    Granted (store.layOutNoting checks last pieces) (store.layOut checks last pieces) := by
  induction pieces generalizing store last with
  | nil => exact .ok (store, [])
  | cons piece rest ih =>
      rw [layOut_cons]
      refine (addNoting_granted checks store piece.node last ready).next fun linked added => ?_
      obtain ⟨known, ran, _, newest, _⟩ := addBehind_spec checks store piece.node last ready
      obtain rfl := Except.ok.inj (ran.symm.trans added)
      refine (ih known (some store.size) ?_).next fun tail _ => .ok _
      rintro id ⟨⟩
      exact ⟨_, newest, rfl, rfl⟩

theorem readLevelNoting_granted (source : Source) (store : Store) (span : Span) :
    Granted (readLevelNoting checks source store span) (readLevel checks source store span) := by
  unfold readLevelNoting readLevel
  cases Level.read source span with
  | error stop => exact .error stop
  | ok pieces => exact ofScan_granted (layOutNoting_granted checks store pieces none (by simp))

/-- The invariant of the list is that of the parse: every owner is without a body
when its turn comes. -/
theorem fillBodiesNoting_granted (source : Source) (count : Nat) (waiting : List Waiting)
    (store : Store) (ready : Ready source store waiting) :
    Granted (fillBodiesNoting checks source count waiting store)
      (fillBodies checks source count waiting store) := by
  induction count generalizing waiting store with
  | zero =>
      cases waiting with
      | nil => exact .ok store
      | cons body rest => exact .error (Stop.fault .endless)
  | succ count ih =>
      cases waiting with
      | nil => exact .ok store
      | cons body rest =>
          refine (readLevelNoting_granted checks source store body.span).next fun level read => ?_
          obtain ⟨pieces, levelRead, _⟩ := bind_eq_ok.mp read
          obtain ⟨fits, _, filled⟩ :=
            (Level.read_settles (ready.inside body List.mem_cons_self)).of_ok levelRead
          obtain ⟨cell, found, bare⟩ := ready.bare body List.mem_cons_self
          obtain ⟨laid, started, laidRan, ran, starts⟩ :=
            startBody_spec checks found bare filled levelRead
          obtain rfl := Except.ok.inj (laidRan.symm.trans read)
          exact granted_call ran
            (fillBodies checks source count (rowBodies store.size pieces ++ rest))
            (ih _ started (ready.next starts fits))

theorem parseSpanNoting_granted {source : Source} (store : Store) {span : Span}
    (inside : span.stop ≤ source.size) :
    Granted (parseSpanNoting checks source store span) (parseSpan checks source store span) := by
  refine (readLevelNoting_granted checks source store span).next fun level read => ?_
  obtain ⟨pieces, levelRead, _⟩ := bind_eq_ok.mp read
  obtain ⟨fits, _⟩ := (Level.read_settles inside).of_ok levelRead
  obtain ⟨laid, laidRan, _, row, _⟩ := readLevel_spec checks store levelRead
  obtain rfl := Except.ok.inj (laidRan.symm.trans read)
  exact (fillBodiesNoting_granted checks source _ _ laid (row.ready fits inside)).next
    fun filled _ => .ok (filled, store.size)

end Store

end Stencil
