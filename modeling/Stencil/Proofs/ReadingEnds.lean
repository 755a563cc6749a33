import Stencil.Proofs.BodyWorklist
import Stencil.Proofs.ScanLoops

/-!
Reading is safe and comes to an end. Above the scans there are three loops: over
the pairs of a property map, over the pieces of a level, and over the bodies that
wait. None of them can stand still. A pair ends behind the delimiter that it
begins with, a piece takes at least one character, and the bodies of a level have
less room together than the body they come from. So every loop ends with what the
counted functions give, and a reading of a valid range never faults, which it
would do where it read a character outside of the source.
-/

namespace Stencil

namespace PropertyMap

variable {source : Source} {last : Nat}

def pairsTurn (source : Source) (last : Nat) : Nat × Table String String →
    Except Stop (Turn (Nat × Table String String) (Table String String))
  | (before, pairs) =>
      if before < last then do
        let separator ← Stop.ofScan (source.findSeparator ',' '(' ')' (before + 1) last)
        let after := separator.getD last
        let pair ← readPair source before after
        pure (.again (after, pairs.put pair.1 pair.2))
      else pure (.done pairs)

theorem readPairs_ends (inside : last < source.size) (first : Nat)
    (pairs : Table String String) :
    Ends (pairsTurn source last) (first, pairs)
      (readPairs source last (last - first) first pairs) := by
  refine ends_counted (fun count state => readPairs source last count state.1 state.2)
    (fun count state => last - state.1 ≤ count) ?_ _ (first, pairs) (Nat.le_refl _)
  rintro count ⟨before, pairs⟩ left
  simp only at left
  cases count with
  | zero =>
      have behind : ¬ before < last := by omega
      simp only [pairsTurn, behind, if_false]
      exact .done pairs
  | succ count =>
      simp only [pairsTurn, readPairs]
      split
      · rename_i ahead
        refine .bind fun separator found => .bind fun pair _ => ?_
        obtain ⟨place, ran, within⟩ :=
          @Source.findSeparator_answers source (before + 1) last ',' '(' ')' (Nat.le_of_lt inside)
        rw [ran] at found
        obtain rfl := Except.ok.inj found
        have after : before < place.getD last := by
          cases place with
          | none => exact ahead
          | some place => exact (within place rfl).1
        exact .again (place.getD last, pairs.put pair.1 pair.2)
          ⟨Nat.succ_pos count, by simp only; omega⟩
      · exact .done pairs

end PropertyMap

namespace Level

variable {source : Source} {start stop : Nat}

def runTurn (source : Source) (stop index : Nat) : Except Stop (Turn Nat Nat) :=
  if index < stop then do
    let opens ← Stop.ofScan (source.markerAt .opening index stop)
    if opens then pure (.done index)
    else
      let closes ← Stop.ofScan (source.markerAt .closing index stop)
      if closes then Stop.fail .tokenBeginMissing index else pure (.again (index + 1))
  else pure (.done index)

theorem runStop_ends (source : Source) (start stop : Nat) :
    Ends (runTurn source stop) start (runStop source start stop) := by
  refine ends_counted (runStopFor source stop) (fun count index => stop - index = count) ?_ _
    start rfl
  intro count index left
  cases count with
  | zero =>
      rw [runTurn, if_neg (by omega)]
      exact .done index
  | succ count =>
      rw [runTurn, if_pos (by omega)]
      refine .bind fun opens _ => ?_
      split
      · exact .done index
      · refine .bind fun closes _ => ?_
        split
        · exact .failed _
        · exact .again (index + 1) ⟨Nat.succ_pos count, by omega⟩

/-- A turn reads one token or one text run. A run without text would add nothing
and go on from where it stopped. -/
def turn (source : Source) (stop : Nat) :
    Nat × List Piece → Except Stop (Turn (Nat × List Piece) (List Piece))
  | (index, pieces) =>
      if index < stop then do
        let opens ← Stop.ofScan (source.markerAt .opening index stop)
        if opens then
          let token ← Token.read source index stop
          pure (.again (token.stop, pieces ++ [.token token]))
        else
          let runStop ← runStop source index stop
          pure (.again (runStop, pieces ++ textPiece source index runStop))
      else pure (.done pieces)

/-- Every turn passes characters, stays in the span and adds a piece. -/
theorem turn_advances (inside : stop ≤ source.size) {index next : Nat} {pieces more : List Piece}
    (goes : turn source stop (index, pieces) = .ok (.again (next, more))) :
    index < next ∧ next ≤ stop ∧ ∃ piece, more = pieces ++ [piece] := by
  simp only [turn] at goes
  split at goes
  · rename_i room
    obtain ⟨opens, marked, goes⟩ := bind_eq_ok.mp goes
    rw [ofScan_eq_ok] at marked
    cases opens with
    | true =>
        obtain ⟨token, read, goes⟩ := bind_eq_ok.mp goes
        cases goes
        have bounds := token_advances inside marked read
        exact ⟨bounds.1, bounds.2, _, rfl⟩
    | false =>
        obtain ⟨runStop, read, goes⟩ := bind_eq_ok.mp goes
        have bounds := (runStop_settles inside room marked).of_ok read
        rw [textPiece_filled bounds.1 (Nat.le_trans bounds.2 inside)] at goes
        cases goes
        exact ⟨bounds.1, bounds.2, _, rfl⟩
  · cases goes

theorem pieces_ends (inside : stop ≤ source.size) (start : Nat) :
    Ends (turn source stop) (start, []) (pieces source ⟨start, stop⟩) := by
  -- The pieces found so far are put before those that are still to come.
  have added : ∀ (before first : List Piece) (rest : Except Stop (List Piece)),
      (do let later ← rest; (before ++ ·) <$> pure (first ++ later)) =
        ((before ++ first) ++ ·) <$> rest := by
    intro before first rest
    cases rest <;> simp
  have ends : Ends (turn source stop) (start, [])
      (([] ++ ·) <$> piecesFor source stop (stop - start) start) := by
    refine ends_counted
      (fun count state => (state.2 ++ ·) <$> piecesFor source stop count state.1)
      (fun count state => stop - state.1 ≤ count) ?_ _ (start, []) (Nat.le_refl _)
    rintro count ⟨index, before⟩ left
    simp only at left
    cases count with
    | zero =>
        have behind : ¬ index < stop := by omega
        simp only [turn, piecesFor, behind, if_false, pure_eq_ok, map_ok, List.append_nil]
        exact .done before
    | succ count =>
        simp only [turn, piecesFor]
        split
        · rename_i room
          rw [map_bind]
          refine .bind fun opens marked => ?_
          rw [ofScan_eq_ok] at marked
          cases opens with
          | true =>
              simp only [if_true, map_bind]
              refine .bind fun token read => ?_
              have bounds := token_advances inside marked read
              have joined := added before [.token token] (piecesFor source stop count token.stop)
              simp only [List.singleton_append] at joined
              rw [joined]
              refine .again (token.stop, before ++ [.token token]) ?_
              exact ⟨Nat.succ_pos count, by simp only; omega⟩
          | false =>
              simp only [Bool.false_eq_true, if_false, map_bind]
              refine .bind fun runStop read => ?_
              have bounds := (runStop_settles inside room marked).of_ok read
              rw [added before]
              refine .again (runStop, before ++ textPiece source index runStop) ?_
              exact ⟨Nat.succ_pos count, by simp only; omega⟩
        · simp only [pure_eq_ok, map_ok, List.append_nil]
          exact .done before
  simpa [pieces] using ends

end Level

namespace Store

variable {checks : Bool} {source : Source} {store : Store}

def bodiesTurn (checks : Bool) (source : Source) :
    List Waiting × Store → Except Stop (Turn (List Waiting × Store) Store)
  | ([], store) => pure (.done store)
  | (waiting :: rest, store) => do
      let level ← readLevel checks source store waiting.span
      let kind := (store.kind? waiting.owner).getD .command
      let filled ← Stop.ofScan
        (level.1.setBody checks kind (some waiting.owner) (some store.size))
      pure (.again (level.2 ++ rest, filled.store))

def load (waiting : List Waiting) : Nat := (waiting.map fun body => body.span.length + 1).sum

/-- The bodies of a level lie in the source and take less room than the level. -/
theorem readLevel_load {span : Span} {level : Store × List Waiting}
    (inside : span.stop ≤ source.size) (read : readLevel checks source store span = .ok level) :
    load level.2 ≤ span.length ∧ ∀ body ∈ level.2, body.span.stop ≤ source.size := by
  obtain ⟨pieces, levelRead, laidOut⟩ := bind_eq_ok.mp read
  obtain ⟨fits, loads, _⟩ := (Level.read_settles inside).of_ok levelRead
  obtain ⟨laid, ran, _⟩ := readLevel_spec checks store levelRead
  obtain rfl := Except.ok.inj (read.symm.trans ran)
  refine ⟨(rowBodies_load _ _).trans_le loads, fun body member => ?_⟩
  obtain ⟨_, piece, isPiece, isBody⟩ := mem_rowBodies member
  exact Nat.le_trans ((fits piece isPiece).body _ isBody) inside

theorem fillBodies_ends (count : Nat) (waiting : List Waiting) (store : Store)
    (inside : ∀ body ∈ waiting, body.span.stop ≤ source.size) (room : load waiting ≤ count) :
    Ends (bodiesTurn checks source) (waiting, store)
      (fillBodies checks source count waiting store) := by
  refine ends_counted (fun count state => fillBodies checks source count state.1 state.2)
    (fun count state => (∀ body ∈ state.1, body.span.stop ≤ source.size) ∧
      load state.1 ≤ count) ?_ count (waiting, store) ⟨inside, room⟩
  rintro count ⟨waiting, store⟩ ⟨inside, room⟩
  cases waiting with
  | nil =>
      cases count <;> exact .done store
  | cons body rest =>
      simp only [load, List.map_cons, List.sum_cons] at room
      obtain ⟨count, rfl⟩ : ∃ fewer, count = fewer + 1 := ⟨count - 1, by omega⟩
      refine .bind fun level read => .bind fun filled _ => ?_
      obtain ⟨less, within⟩ := readLevel_load (inside body List.mem_cons_self) read
      refine .again (level.2 ++ rest, filled.store) ⟨Nat.succ_pos count, ?_, ?_⟩
      · intro other member
        rcases List.mem_append.mp member with here | later
        · exact within other here
        · exact inside other (List.mem_cons_of_mem body later)
      · simp only [load, List.map_append, List.sum_append] at less ⊢
        omega

end Store

/-- Every loop of the reader ends with what its counted form gives, and a turn of
a level never stands still: it passes characters and adds a piece. -/
structure Source.LoopsEnd (source : Source) : Prop where
  blanks : ∀ index, Ends source.blanksTurn index (.ok (source.skipBlanks index))
  name : ∀ index, Ends source.nameTurn index (source.nameStop index)
  find : ∀ sought start stop,
    Ends (source.findTurn sought stop) start (source.find sought start stop)
  matching : ∀ opening closing start stop, Ends (source.matchingTurn opening closing stop)
    (0, start) (source.findMatching opening closing start stop)
  separator : ∀ sought opening closing start stop,
    Ends (source.separatorTurn sought opening closing stop) (0, start)
      (source.findSeparator sought opening closing start stop)
  closing : ∀ start stop,
    Ends (source.closingTurn stop) (0, start) (source.closing start stop)
  run : ∀ start stop, Ends (Level.runTurn source stop) start (Level.runStop source start stop)
  pairs : ∀ first last pairs, last < source.size →
    Ends (PropertyMap.pairsTurn source last) (first, pairs)
      (PropertyMap.readPairs source last (last - first) first pairs)
  level : ∀ start stop, stop ≤ source.size →
    Ends (Level.turn source stop) (start, []) (Level.pieces source ⟨start, stop⟩)
  advances : ∀ stop index next pieces more, stop ≤ source.size →
    Level.turn source stop (index, pieces) = .ok (.again (next, more)) →
    index < next ∧ next ≤ stop ∧ ∃ piece, more = pieces ++ [piece]

theorem Source.loopsEnd (source : Source) : source.LoopsEnd where
  blanks := source.skipBlanks_ends
  name := source.nameStop_ends
  find := source.find_ends
  matching := source.findMatching_ends
  separator := source.findSeparator_ends
  closing := source.closing_ends
  run := Level.runStop_ends source
  pairs := fun first _ pairs inside => PropertyMap.readPairs_ends inside first pairs
  level := fun start _ inside => Level.pieces_ends inside start
  advances := fun _ _ _ _ _ inside goes => Level.turn_advances inside goes

theorem PropertyMap.parse_answers (text : String) (first last : Int)
    (inside : last < (Source.ofString text).size) :
    ∃ answer, PropertyMap.parse text (some first) (some last) = .ok answer := by
  have within : (last + 1).toNat ≤ (Source.ofString text).size := by omega
  rcases @PropertyMap.read_settles _ first.toNat _ within with ⟨pairs, read, _⟩ |
    ⟨failure, read, _⟩
  · exact ⟨.ok pairs, by simp [PropertyMap.parse, read]⟩
  · exact ⟨.error failure, by simp [PropertyMap.parse, read]⟩

namespace Store

/-- Parsing any valid range of any text answers, with an element or a report, and
so does reading a property map from any of its ranges: no read falls outside of
the source, and no loop goes on forever. -/
theorem parse_ends (checks : Bool) (store : Store) (text : String) (first last : Option Int)
    (span : Span) (begins : first.getD 0 = span.start)
    (ends : last.getD ((Source.ofString text).size - 1) + 1 = span.stop)
    (ordered : span.start ≤ span.stop) (inside : span.stop ≤ (Source.ofString text).size) :
    (∃ parsed, store.parse checks text first last = .ok parsed) ∧
      (Source.ofString text).LoopsEnd ∧
      (∀ level, readLevel checks (Source.ofString text) store span = .ok level →
        Ends (bodiesTurn checks (Source.ofString text)) (level.2, level.1)
          (fillBodies checks (Source.ofString text) (span.stop - span.start) level.2 level.1)) ∧
      ∀ mapFirst mapLast : Int, 0 ≤ mapFirst → -1 ≤ mapLast →
        mapLast < (Source.ofString text).size →
        ∃ answer, PropertyMap.parse text (some mapFirst) (some mapLast) = .ok answer := by
  refine ⟨?_, Source.loopsEnd _, fun level read => ?_, fun mapFirst mapLast _ _ inside =>
    PropertyMap.parse_answers text mapFirst mapLast inside⟩
  · rcases parse_spec checks store text first last span begins ends ordered inside with
      ⟨_, grown, _, _, ran, _⟩ | ⟨_, report, _, ran, _⟩
    · exact ⟨_, ran⟩
    · exact ⟨_, ran⟩
  · obtain ⟨room, within⟩ := readLevel_load inside read
    exact fillBodies_ends _ level.2 level.1 within room

/-- The range of a token with properties, and the range of its properties. -/
theorem parse_ends_token :
    let text := "x\x7b\x7bb(k=v) c\x7d\x7d"
    (∃ parsed, Store.parse true {} text (some 1) none = .ok parsed) ∧
      (Source.ofString text).LoopsEnd ∧
      ∃ answer, PropertyMap.parse text (some 4) (some 8) = .ok answer := by
  obtain ⟨parses, loops, _, maps⟩ := parse_ends true {} "x\x7b\x7bb(k=v) c\x7d\x7d" (some 1) none
    ⟨1, 13⟩ (by decide) (by decide) (by decide) (by decide)
  exact ⟨parses, loops, maps 4 8 (by decide) (by decide) (by decide)⟩

end Store

end Stencil
