import Stencil.Proofs.LevelLayout
import Stencil.Proofs.OutlineReading

/-!
The list of waiting bodies against the recursion over bodies. Taking the first
body from the list puts the bodies of its own level in front of the others, so
the list is worked off in the order of the recursion, and what stands for one
body at the end fills one stretch of new cells. The characters of the waiting
bodies, one more counted for each, bound the steps. A parse therefore gives the
outline of its span, or the failure at which reading the outline stops.
-/

namespace Stencil.Store

structure Hung (store hung : Store) (owner : ElementId) (forest : Forest) : Prop where
  size : store.size ≤ hung.size
  kept : ∀ id, id < store.size → id ≠ owner → hung.get? id = store.get? id
  planted : ∃ head ids,
    hung.get? owner = (store.get? owner).map (fun cell => { cell with child := head }) ∧
    hung.Planted (some owner) none head forest ids ∧
    ∀ id : Nat, id ∈ ids ↔ store.size ≤ id ∧ id < hung.size

inductive Hangs (source : Source) : Store → List Waiting → Store → Prop where
  | nil (store : Store) : Hangs source store [] store
  | cons (store middle filled : Store) (body : Waiting) (rest : List Waiting) (forest : Forest) :
      Outline.read source body.span = .ok forest → Hung store middle body.owner forest →
      Hangs source middle rest filled → Hangs source store (body :: rest) filled

section Hang

variable {source : Source} {store filled : Store} {waiting : List Waiting}

theorem Hangs.size_le (hangs : Hangs source store waiting filled) : store.size ≤ filled.size := by
  induction hangs with
  | nil => exact Nat.le_refl _
  | cons _ _ _ _ _ _ _ hung _ ih => exact Nat.le_trans hung.size ih

theorem Hangs.kept (hangs : Hangs source store waiting filled) {id : Nat}
    (old : id < store.size) (noOwner : ∀ body ∈ waiting, id ≠ body.owner) :
    filled.get? id = store.get? id := by
  induction hangs with
  | nil => rfl
  | cons store middle filled body rest _ _ hung _ ih =>
      rw [ih (Nat.lt_of_lt_of_le old hung.size) fun other member =>
        noOwner other (List.mem_cons_of_mem body member)]
      exact hung.kept id old (noOwner body List.mem_cons_self)

theorem Hangs.append {first second : List Waiting}
    (hangs : Hangs source store (first ++ second) filled) :
    ∃ middle, Hangs source store first middle ∧ Hangs source middle second filled := by
  induction first generalizing store with
  | nil => exact ⟨store, .nil store, hangs⟩
  | cons body rest ih =>
      cases hangs with
      | cons _ next _ _ _ forest read hung others =>
          obtain ⟨middle, before, after⟩ := ih others
          exact ⟨middle, .cons store next middle body rest forest read hung before, after⟩

theorem rowBodies_spans (id : Nat) (pieces : List Piece) :
    (rowBodies id pieces).map Waiting.span = Outline.bodySpans pieces := by
  induction pieces generalizing id with
  | nil => rfl
  | cons piece rest ih =>
      rw [rowBodies, List.map_append, ih]
      cases isBody : piece.body <;> simp [waitingFor, Outline.bodySpans, isBody]

theorem Row.planted {owner before : Option ElementId} {id : Nat} {pieces : List Piece}
    (row : store.Row owner before id pieces) (inside : id + pieces.length ≤ store.size)
    (hangs : Hangs source store (rowBodies id pieces) filled) :
    ∃ bodies ids, (Outline.bodySpans pieces).mapM (Outline.read source) = .ok bodies ∧
      filled.Planted owner before (rowStart id pieces)
        (Outline.assemble (Outline.hang pieces bodies)) ids ∧
      ∀ other : Nat, other ∈ ids ↔ (id ≤ other ∧ other < id + pieces.length) ∨
        (store.size ≤ other ∧ other < filled.size) := by
  induction pieces generalizing store before id with
  | nil =>
      cases hangs with
      | nil =>
          refine ⟨[], [], rfl, .nil owner before, fun other => ?_⟩
          simp only [List.not_mem_nil, List.length_nil, false_iff, not_or, not_and]
          omega
  | cons piece rest ih =>
      simp only [List.length_cons] at inside
      have ownersAfter : ∀ body ∈ rowBodies (id + 1) rest,
          id + 1 ≤ body.owner ∧ body.owner < id + 1 + rest.length := fun body member =>
        (mem_rowBodies member).1
      cases isBody : piece.body with
      | none =>
          have only : rowBodies id (piece :: rest) = rowBodies (id + 1) rest := by
            simp [rowBodies, waitingFor, isBody]
          rw [only] at hangs
          obtain ⟨bodies, ids, read, planted, range⟩ := ih row.2 (by omega) hangs
          have cell : filled.get? id = _ := (hangs.kept (by omega) fun body member =>
            Nat.ne_of_lt (ownersAfter body member).1).trans row.1
          refine ⟨bodies, id :: ([] ++ ids), ?_, ?_, fun other => ?_⟩
          · rw [Outline.bodySpans_none rest isBody, read]
          · rw [Outline.assemble_none rest bodies isBody]
            exact .cons owner before _ none id piece.node .nil _ [] ids cell (.nil _ _) planted
          · simp only [List.nil_append, List.mem_cons, range, List.length_cons]
            omega
      | some span =>
          have first : rowBodies id (piece :: rest) = ⟨id, span⟩ :: rowBodies (id + 1) rest := by
            simp [rowBodies, waitingFor, isBody]
          rw [first] at hangs
          cases hangs with
          | cons _ middle _ _ _ forest readFirst hung others =>
              obtain ⟨head, bodyIds, ownerCell, bodyPlanted, bodyRange⟩ := hung.planted
              -- The first body is hung already when the others are, and they leave it alone.
              have grows := hung.size
              have rowLater : middle.Row owner (some id) (id + 1) rest :=
                row.2.kept fun other ge lt => hung.kept other (by omega) (by simp only; omega)
              obtain ⟨bodies, ids, read, planted, range⟩ := ih rowLater (by omega) others
              have cell : filled.get? id = _ := others.kept (by omega) fun body member =>
                Nat.ne_of_lt (ownersAfter body member).1
              rw [ownerCell, row.1] at cell
              refine ⟨forest :: bodies, id :: (bodyIds ++ ids), ?_, ?_, fun other => ?_⟩
              · rw [Outline.bodySpans_some rest isBody, List.mapM_cons, readFirst, ok_bind, read,
                  ok_bind, pure_eq_ok]
              · rw [Outline.assemble_some rest bodies forest isBody]
                refine .cons owner before _ head id piece.node forest _ bodyIds ids cell ?_ planted
                refine bodyPlanted.kept fun other member => others.kept ?_ fun body waits => ?_
                · exact ((bodyRange other).mp member).2
                · have bounds := ownersAfter body waits
                  have new := ((bodyRange other).mp member).1
                  exact Nat.ne_of_gt (Nat.lt_of_lt_of_le bounds.2 (Nat.le_trans (by omega) new))
              · have later := others.size_le
                simp only [List.mem_cons, List.mem_append, bodyRange, range, List.length_cons]
                omega

end Hang

theorem rowBodies_load (id : Nat) (pieces : List Piece) :
    ((rowBodies id pieces).map fun body => body.span.length + 1).sum =
      (pieces.map Level.load).sum := by
  induction pieces generalizing id with
  | nil => rfl
  | cons piece rest ih =>
      rw [rowBodies, List.map_append, List.sum_append, ih, List.map_cons, List.sum_cons]
      cases isBody : piece.body <;> simp [waitingFor, Level.load, isBody]

/-- Reading a level adds its row. -/
theorem readLevel_spec (checks : Bool) {source : Source} (store : Store) {span : Span}
    {pieces : List Piece} (read : Level.read source span = .ok pieces) :
    ∃ laid, readLevel checks source store span = .ok (laid, rowBodies store.size pieces) ∧
      laid.size = store.size + pieces.length ∧ laid.Row none none store.size pieces ∧
      ∀ id, id < store.size → laid.get? id = store.get? id := by
  obtain ⟨laid, ran, size, row, kept, _⟩ := layOut_spec checks store pieces none (by simp)
  exact ⟨laid, by simp [readLevel, read, ran], size, row, fun id old => kept id old (by simp)⟩

structure Started (store started : Store) (owner : ElementId) (pieces : List Piece) : Prop where
  size : started.size = store.size + pieces.length
  row : started.Row (some owner) none store.size pieces
  headed : started.get? owner =
    (store.get? owner).map fun cell => { cell with child := some store.size }
  kept : ∀ id, id < store.size → id ≠ owner → started.get? id = store.get? id

section Start

variable (checks : Bool) {source : Source} {store : Store} {body : Waiting} {pieces : List Piece}
variable {cell : Element} (found : store.get? body.owner = some cell) (bare : cell.child = none)
variable (filled : pieces ≠ []) (read : Level.read source body.span = .ok pieces)
include found bare filled read

theorem startBody_spec :
    ∃ laid started,
      readLevel checks source store body.span = .ok (laid, rowBodies store.size pieces) ∧
      laid.setBody checks ((store.kind? body.owner).getD .command) (some body.owner)
        (some store.size) = .ok { store := started } ∧
      Started store started body.owner pieces := by
  obtain ⟨laid, laidRan, laidSize, row, laidKept⟩ := readLevel_spec checks store read
  have old := inside_of_get? found
  have foundLaid : laid.get? body.owner = some cell := (laidKept body.owner old).trans found
  obtain ⟨started, ran, size, startedRow, ownerCell, kept⟩ :=
    setBody_row checks foundLaid bare filled row old (Nat.le_of_eq laidSize.symm)
  have kind : store.kind? body.owner = laid.kind? body.owner := by simp [kind?, found, foundLaid]
  refine ⟨laid, started, laidRan, kind ▸ ran, size.trans laidSize, startedRow, ?_, ?_⟩
  · rw [ownerCell, found]
    rfl
  · intro id older notOwner
    rw [kept id notOwner (Or.inl older), laidKept id older]

theorem fillBodies_start :
    ∃ started, Started store started body.owner pieces ∧ ∀ count rest,
      fillBodies checks source (count + 1) (body :: rest) store =
        fillBodies checks source count (rowBodies store.size pieces ++ rest) started := by
  obtain ⟨laid, started, laidRan, ran, starts⟩ := startBody_spec checks found bare filled read
  refine ⟨started, starts, fun count rest => ?_⟩
  rw [fillBodies, laidRan, ok_bind]
  simp only [ran, ofScan_ok, ok_bind]

end Start

section Level

variable {source : Source} {store started : Store} {owner : ElementId} {pieces : List Piece}
variable (starts : Started store started owner pieces)
include starts

theorem Started.hung {middle : Store} (old : owner < store.size) (filled : pieces ≠ [])
    (hangs : Hangs source started (rowBodies store.size pieces) middle) :
    ∃ bodies, (Outline.bodySpans pieces).mapM (Outline.read source) = .ok bodies ∧
      Hung store middle owner (Outline.assemble (Outline.hang pieces bodies)) := by
  obtain ⟨bodies, ids, read, planted, range⟩ :=
    starts.row.planted (Nat.le_of_eq starts.size.symm) hangs
  have start := rowStart_filled store.size filled
  have size := starts.size
  have grows := hangs.size_le
  have notNew : ∀ id, id < store.size →
      ∀ body ∈ rowBodies store.size pieces, id ≠ body.owner := by
    intro id older body member same
    exact absurd (same ▸ older) (Nat.not_lt_of_le (mem_rowBodies member).1.1)
  have within : ∀ id, id < store.size → id < started.size := fun id older => by omega
  refine ⟨bodies, read, by omega, fun id older notOwner => ?_, some store.size, ids, ?_,
    start ▸ planted, fun id => ?_⟩
  · rw [hangs.kept (within id older) (notNew id older), starts.kept id older notOwner]
  · rw [hangs.kept (within owner old) (notNew owner old), starts.headed]
  · rw [range]
    omega

end Level

/-- The waiting bodies lie in the source, and their owners are elements without
bodies, no two of them the same. -/
structure Ready (source : Source) (store : Store) (waiting : List Waiting) : Prop where
  inside : ∀ body ∈ waiting, body.span.stop ≤ source.size
  bare : ∀ body ∈ waiting, ∃ cell, store.get? body.owner = some cell ∧ cell.child = none
  distinct : (waiting.map Waiting.owner).Nodup

theorem Row.ready {source : Source} {store : Store} {owner before : Option ElementId}
    {id stop : Nat} {pieces : List Piece} (row : store.Row owner before id pieces)
    (fits : ∀ piece ∈ pieces, Level.Fits piece stop) (within : stop ≤ source.size) :
    Ready source store (rowBodies id pieces) := by
  constructor
  · intro body member
    obtain ⟨_, piece, isPiece, isBody⟩ := mem_rowBodies member
    exact Nat.le_trans ((fits piece isPiece).body _ isBody) within
  · intro body member
    obtain ⟨bounds, _⟩ := mem_rowBodies member
    obtain ⟨cell, found, noBody, _⟩ := row.bare bounds.1 bounds.2
    exact ⟨cell, found, noBody⟩
  · exact rowBodies_nodup id pieces

/-- The invariant of the list: the bodies of a started level may go to its front. -/
theorem Ready.next {source : Source} {store started : Store} {body : Waiting}
    {rest : List Waiting} {pieces : List Piece} (ready : Ready source store (body :: rest))
    (starts : Started store started body.owner pieces)
    (fits : ∀ piece ∈ pieces, Level.Fits piece body.span.stop) :
    Ready source started (rowBodies store.size pieces ++ rest) := by
  have level : Ready source started (rowBodies store.size pieces) :=
    starts.row.ready fits (ready.inside body List.mem_cons_self)
  -- The bodies behind wait below older elements, and none below this owner.
  have restOld : ∀ other ∈ rest, other.owner < store.size ∧ other.owner ≠ body.owner := by
    intro other member
    obtain ⟨_, found, _⟩ := ready.bare other (List.mem_cons_of_mem body member)
    refine ⟨inside_of_get? found, fun same => ?_⟩
    exact (List.nodup_cons.mp ready.distinct).1 (same ▸ List.mem_map_of_mem member)
  constructor
  · intro waits member
    rcases List.mem_append.mp member with inLevel | later
    · exact level.inside waits inLevel
    · exact ready.inside waits (List.mem_cons_of_mem body later)
  · intro waits member
    rcases List.mem_append.mp member with inLevel | later
    · exact level.bare waits inLevel
    · obtain ⟨other, found, noBody⟩ := ready.bare waits (List.mem_cons_of_mem body later)
      obtain ⟨older, different⟩ := restOld waits later
      exact ⟨other, (starts.kept _ older different).trans found, noBody⟩
  · rw [List.map_append, List.nodup_append']
    refine ⟨level.distinct, (List.nodup_cons.mp ready.distinct).2, ?_⟩
    intro owner inLevel later
    obtain ⟨waits, member, rfl⟩ := List.mem_map.mp inLevel
    obtain ⟨other, isRest, same⟩ := List.mem_map.mp later
    have after := (mem_rowBodies member).1.1
    exact absurd (same ▸ (restOld other isRest).1) (Nat.not_lt_of_le after)

/-- A failure among the bodies of the first level and those behind it is the
failure of the first body, or the first body has an outline. -/
theorem mapM_failure {source : Source} {span : Span} {rest : List Span} {pieces : List Piece}
    {stop : Stop} (inside : span.stop ≤ source.size) (read : Level.read source span = .ok pieces)
    (fails : (Outline.bodySpans pieces ++ rest).mapM (Outline.read source) = .error stop) :
    (span :: rest).mapM (Outline.read source) = .error stop := by
  rw [List.mapM_append] at fails
  rw [List.mapM_cons, Outline.read_eq source inside, read, ok_bind]
  cases bodies : (Outline.bodySpans pieces).mapM (Outline.read source) with
  | error first =>
      rw [bodies, error_bind] at fails
      rw [error_bind, error_bind, fails]
  | ok forests =>
      rw [bodies, ok_bind] at fails
      rw [ok_bind, pure_eq_ok, ok_bind]
      cases others : rest.mapM (Outline.read source) with
      | error first =>
          rw [others, error_bind] at fails
          rw [error_bind, fails]
      | ok forests =>
          rw [others, ok_bind] at fails
          cases fails

/-- Working the list off hangs the outline of every waiting body below its owner,
or it stops at the first body, in the order of the list, that has no outline. -/
theorem fillBodies_spec (checks : Bool) (source : Source) (count : Nat) (waiting : List Waiting)
    (store : Store) (enough : (waiting.map fun body => body.span.length + 1).sum ≤ count)
    (ready : Ready source store waiting) :
    (∃ filled, fillBodies checks source count waiting store = .ok filled ∧
      Hangs source store waiting filled) ∨
    ∃ failure, (waiting.map Waiting.span).mapM (Outline.read source) = .error (.failure failure) ∧
      fillBodies checks source count waiting store = .error (.failure failure) := by
  -- One step reads one level; its bodies have less room together than the body they come from.
  induction count generalizing waiting store with
  | zero =>
      cases waiting with
      | nil => exact Or.inl ⟨store, rfl, .nil store⟩
      | cons body rest =>
          simp only [List.map_cons, List.sum_cons] at enough
          omega
  | succ count ih =>
      cases waiting with
      | nil => exact Or.inl ⟨store, rfl, .nil store⟩
      | cons body rest =>
          have inside := ready.inside body List.mem_cons_self
          rcases Level.read_settles inside with ⟨pieces, read, fits, loads, filledLevel⟩ |
            ⟨failure, read, _⟩
          · obtain ⟨cell, found, bare⟩ := ready.bare body List.mem_cons_self
            obtain ⟨started, starts, step⟩ := fillBodies_start checks found bare filledLevel read
            have room : ((rowBodies store.size pieces ++ rest).map fun body =>
                body.span.length + 1).sum ≤ count := by
              simp only [List.map_cons, List.sum_cons] at enough
              rw [List.map_append, List.sum_append, rowBodies_load]
              omega
            rw [step count rest]
            rcases ih _ started room (ready.next starts fits) with ⟨filled, ran, hangs⟩ |
              ⟨failure, fails, ran⟩
            · obtain ⟨middle, first, second⟩ := hangs.append
              obtain ⟨bodies, bodiesRead, hung⟩ :=
                starts.hung (inside_of_get? found) filledLevel first
              refine Or.inl ⟨filled, ran, .cons store middle filled body rest
                (Outline.assemble (Outline.hang pieces bodies)) ?_ hung second⟩
              rw [Outline.read_eq source inside, read, ok_bind, bodiesRead, ok_bind, pure_eq_ok]
            · rw [List.map_append, rowBodies_spans] at fails
              exact Or.inr ⟨failure, mapM_failure inside read fails, ran⟩
          · refine Or.inr ⟨failure, ?_, ?_⟩
            · rw [List.map_cons, List.mapM_cons, Outline.read_eq source inside, read]
              rfl
            · simp [fillBodies, readLevel, read]

/-- A parse of a span adds its outline in new cells, or fails as the outline does. -/
theorem parseSpan_spec (checks : Bool) {source : Source} (store : Store) {span : Span}
    (inside : span.stop ≤ source.size) :
    (∃ forest grown ids, Outline.read source span = .ok forest ∧
      parseSpan checks source store span = .ok (grown, store.size) ∧
      Grown store grown (some store.size) forest ids) ∨
    ∃ failure, Outline.read source span = .error (.failure failure) ∧
      parseSpan checks source store span = .error (.failure failure) := by
  have equation := Outline.read_eq source inside
  rcases Level.read_settles inside with ⟨pieces, read, fits, loads, filledLevel⟩ |
    ⟨failure, read, _⟩
  · obtain ⟨laid, laidRan, size, row, kept⟩ := readLevel_spec checks store read
    -- What waits at first are the bodies of the first level.
    have ready := row.ready fits inside
    rcases fillBodies_spec checks source span.length _ laid
        ((rowBodies_load _ _).trans_le loads) ready with ⟨grown, ran, hangs⟩ | ⟨failure, fails, ran⟩
    · obtain ⟨bodies, ids, bodiesRead, planted, range⟩ :=
        row.planted (Nat.le_of_eq size.symm) hangs
      have start := rowStart_filled store.size filledLevel
      refine Or.inl ⟨_, grown, ids, ?_, ?_, ⟨fun id old => ?_, start ▸ planted,
        fun id member => ?_, fun id new within => ?_⟩⟩
      · rw [equation, read, ok_bind, bodiesRead, ok_bind, pure_eq_ok]
      · rw [parseSpan, laidRan, ok_bind]
        change fillBodies checks source span.length _ laid >>= _ = _
        rw [ran, ok_bind, pure_eq_ok]
      · rw [hangs.kept (by omega) fun body member same => ?_, kept id old]
        exact absurd (same ▸ old) (Nat.not_lt_of_le (mem_rowBodies member).1.1)
      · have bounds := (range id).mp member
        omega
      · rw [range]
        omega
    · refine Or.inr ⟨failure, ?_, ?_⟩
      · rw [rowBodies_spans] at fails
        rw [equation, read, ok_bind, fails, error_bind]
      · rw [parseSpan, laidRan, ok_bind]
        change fillBodies checks source span.length _ laid >>= _ = _
        rw [ran, error_bind]
  · refine Or.inr ⟨failure, ?_, ?_⟩
    · rw [equation, read, error_bind]
    · simp [parseSpan, readLevel, read]

theorem parseSpan_empty (checks : Bool) (source : Source) (store : Store) {span : Span}
    (empty : span.stop ≤ span.start) :
    parseSpan checks source store span = .ok (store.add ⟨.text, some "", {}⟩, store.size) := by
  simp [parseSpan, readLevel, Level.read_empty source empty, layOut, fillBodies, waitingFor,
    Piece.node, Piece.body]

section Parse

variable (checks : Bool) (store : Store) (text : String) (first last : Option Int) (span : Span)
variable (begins : first.getD 0 = span.start)
variable (ends : last.getD ((Source.ofString text).size - 1) + 1 = span.stop)
variable (ordered : span.start ≤ span.stop) (inside : span.stop ≤ (Source.ofString text).size)
include begins ends ordered inside

theorem parse_eq :
    store.parse checks text first last =
      match parseSpan checks (Source.ofString text) store span with
      | .ok parsed => .ok { store := parsed.1, result := .ok parsed.2 }
      | .error (.fault fault) => .error fault
      | .error (.failure failure) =>
          let report := Report.locate (Source.ofString text) failure.status failure.position
          .ok { store, result := .error report, notices := failureNotices failure report } := by
  by_cases empty : (Source.ofString text).size = 0
  · rw [parseSpan_empty checks _ store (by omega)]
    simp [parse, empty]
  · have valid : rangeValid (Source.ofString text).size (first.getD 0)
        (last.getD ((Source.ofString text).size - 1)) = true := by
      simp only [rangeValid, Bool.and_eq_true, decide_eq_true_eq]
      omega
    have start : (first.getD 0).toNat = span.start := by omega
    have stop : (last.getD ((Source.ofString text).size - 1) + 1).toNat = span.stop := by omega
    have range : (⟨(first.getD 0).toNat,
        (last.getD ((Source.ofString text).size - 1) + 1).toNat⟩ : Span) = span := by
      rw [start, stop]
    cases ran : parseSpan checks (Source.ofString text) store span with
    | ok parsed => simp [parse, empty, valid, range, ran]
    | error stop => cases stop <;> simp [parse, empty, valid, range, ran]

theorem parse_spec :
    (∃ forest grown ids, Outline.read (Source.ofString text) span = .ok forest ∧
      store.parse checks text first last = .ok { store := grown, result := .ok store.size } ∧
      Grown store grown (some store.size) forest ids) ∨
    ∃ failure report,
      Outline.read (Source.ofString text) span = .error (.failure failure) ∧
      store.parse checks text first last =
        .ok { store, result := .error report, notices := failureNotices failure report } ∧
      report.status = failure.status ∧ report.position = failure.position := by
  rw [parse_eq checks store text first last span begins ends ordered inside]
  rcases parseSpan_spec checks store inside with ⟨forest, grown, ids, read, ran, grows⟩ |
    ⟨failure, read, ran⟩
  · exact Or.inl ⟨forest, grown, ids, read, by rw [ran], grows⟩
  · have known : failure.position ≤ (Source.ofString text).size := by
      rcases Outline.read_settles (Source.ofString text) inside with ⟨forest, other, _⟩ |
        ⟨same, other, within⟩
      · rw [read] at other
        cases other
      · rw [read] at other
        cases other
        exact within
    refine Or.inr ⟨failure,
      Report.locate (Source.ofString text) failure.status failure.position, read, ?_, rfl, ?_⟩
    · rw [ran]
    · simp [Report.locate, Nat.min_eq_left known]

end Parse

/-- The range is one of the text; of an empty text every range is. -/
def InRange (text : String) (first last : Option Int) : Prop :=
  (Source.ofString text).size = 0 ∨ rangeValid (Source.ofString text).size (first.getD 0)
    (last.getD ((Source.ofString text).size - 1)) = true

theorem inRange_whole (text : String) : InRange text none none := by
  right
  simp only [rangeValid, Option.getD_none, Bool.and_eq_true, decide_eq_true_eq]
  omega

theorem parse_outside (store : Store) {text : String} {first last : Option Int}
    (outside : ¬ InRange text first last) :
    store.parse true text first last = .ok {
      store
      result := .error { status := .invalidParameter, position := first.getD 0 }
      notices := [.rangeInvalid (first.getD 0) (last.getD ((Source.ofString text).size - 1))
        (Source.ofString text).size] } := by
  obtain ⟨filled, invalid⟩ := not_or.mp outside
  rw [Bool.not_eq_true] at invalid
  simp only [parse, if_neg filled, invalid, Bool.not_false, Bool.and_true, if_true]

/-- A parse of a range of a text, or of the whole text where no range is given,
gives what the outline of the range is: its forest stands in new cells and is read
back from the first of them, or the report names the status and the position of
the failure and the store is as it was. -/
theorem parse_outline (checks : Bool) (store : Store) (text : String) (first last : Option Int)
    (span : Span) (begins : first.getD 0 = span.start)
    (ends : last.getD ((Source.ofString text).size - 1) + 1 = span.stop)
    (ordered : span.start ≤ span.stop) (inside : span.stop ≤ (Source.ofString text).size) :
    match Outline.read (Source.ofString text) span with
    | .ok forest => ∃ grown ids,
        store.parse checks text first last = .ok { store := grown, result := .ok store.size } ∧
        Grown store grown (some store.size) forest ids ∧
        grown.forest? (some store.size) = some forest
    | .error (.failure failure) => ∃ report,
        store.parse checks text first last =
          .ok { store, result := .error report, notices := failureNotices failure report } ∧
        report.status = failure.status ∧ report.position = failure.position
    | .error (.fault _) => False := by
  rcases parse_spec checks store text first last span begins ends ordered inside with
    ⟨forest, grown, ids, read, ran, grows⟩ | ⟨failure, report, read, ran, same⟩
  · rw [read]
    exact ⟨grown, ids, ran, grows, grows.planted.forest?⟩
  · rw [read]
    exact ⟨report, ran, same⟩

/-- The whole of a text with a body inside. -/
theorem parse_outline_nested :
    let forest := Forest.cons ⟨.text, some "a", {}⟩ .nil
      (.cons ⟨.variable, some "b", {}⟩ (.cons ⟨.text, some "c", {}⟩ .nil .nil) .nil)
    ∃ grown ids, Store.parse true {} "a\x7b\x7bb$ c\x7d\x7d" none none =
        .ok { store := grown, result := .ok 0 } ∧
      Grown {} grown (some 0) forest ids ∧ grown.forest? (some 0) = some forest := by
  have read : Outline.read (Source.ofString "a\x7b\x7bb$ c\x7d\x7d") ⟨0, 9⟩ = .ok (.cons
      ⟨.text, some "a", {}⟩ .nil
      (.cons ⟨.variable, some "b", {}⟩ (.cons ⟨.text, some "c", {}⟩ .nil .nil) .nil)) := by rfl
  have spec := parse_outline true {} "a\x7b\x7bb$ c\x7d\x7d" none none ⟨0, 9⟩ (by decide)
    (by decide) (by decide) (by decide)
  rw [read] at spec
  exact spec

end Stencil.Store
