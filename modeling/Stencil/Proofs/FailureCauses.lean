import Stencil.Proofs.StretchedReading

/-!
Why a level cannot be read, said on the source alone. A level is walked from piece to
piece, and it fails where the walk stands: at a closing marker that nothing opened, or in
the token that begins there. Such a token has no closing marker in the level, or it has
one and is misspelt before it: in its name, in the parenthesis that it opens, or in one
of its pairs. The position of the failure is that of the character, or of the marker,
that is at fault, or the one directly behind it.
-/

namespace Stencil

section Steps

variable {Error Value Next : Type}

theorem bind_eq_error {step : Except Error Value} {next : Value → Except Error Next}
    {error : Error} : (step >>= next) = .error error ↔
      step = .error error ∨ ∃ value, step = .ok value ∧ next value = .error error := by
  cases step <;> simp

theorem scan_failure {scan : Except Fault Value} {next : Value → Except Stop Next}
    {failure : Failure} (failed : (Stop.ofScan scan >>= next) = .error (.failure failure)) :
    ∃ value, scan = .ok value ∧ next value = .error (.failure failure) := by
  cases scan with
  | error fault => cases failed
  | ok value => exact ⟨value, rfl, failed⟩

end Steps

namespace Source

variable {source : Source} {start stop index place : Nat}

theorem nameStopFor_has (count : Nat) (found : source.nameStopFor count index = .ok stop) :
    ∃ c, source.HasAt stop c ∧ isNameChar c = false := by
  induction count generalizing index with
  | zero => cases found
  | succ count ih =>
      obtain ⟨here, isHere, found⟩ := bind_eq_ok.mp found
      split at found
      · exact ih found
      · rename_i outside
        cases found
        exact ⟨here, hasAt_of_read isHere, Bool.eq_false_iff.mpr outside⟩

section Matching

def Exposed (source : Source) (index : Nat) (c : Char) : Prop :=
  source.HasAt index c ∧ ¬ source.Hidden index

/-- From the position on, the closing character at `place` is the first without an opening
one, `depth` of which are open already. -/
inductive Matches (source : Source) (opening closing : Char) : Nat → Nat → Nat → Prop where
  | here (place : Nat) : source.Exposed place closing → Matches source opening closing 0 place place
  | opens (depth index place : Nat) : source.Exposed index opening →
      Matches source opening closing (depth + 1) (index + 1) place →
      Matches source opening closing depth index place
  | closes (depth index place : Nat) : source.Exposed index closing →
      Matches source opening closing depth (index + 1) place →
      Matches source opening closing (depth + 1) index place
  | plain (depth index place : Nat) : ¬ source.Exposed index opening →
      ¬ source.Exposed index closing →
      Matches source opening closing depth (index + 1) place →
      Matches source opening closing depth index place

theorem Exposed.unique {c d : Char} (exposed : source.Exposed index c)
    (again : source.Exposed index d) : c = d :=
  exposed.1.unique again.1

theorem Exposed.not_other {c d : Char} (exposed : source.Exposed index c) (different : c ≠ d) :
    ¬ source.Exposed index d :=
  fun other => different (exposed.unique other)

theorem exposed_iff {c d : Char} {hidden : Bool} (has : source.HasAt index c)
    (isHidden : hidden = true ↔ source.Hidden index) :
    source.Exposed index d ↔ c = d ∧ hidden = false := by
  rw [Exposed, ← isHidden, Bool.not_eq_true]
  exact and_congr_left fun _ => ⟨has.unique, fun same => same ▸ has⟩

variable {opening closing : Char} {depth : Nat}

theorem Matches.bounds (balanced : source.Matches opening closing depth index place) :
    index ≤ place ∧ source.Exposed place closing := by
  induction balanced with
  | here place bare => exact ⟨Nat.le_refl place, bare⟩
  | opens _ _ _ _ _ ih => exact ⟨by omega, ih.2⟩
  | closes _ _ _ _ _ ih => exact ⟨by omega, ih.2⟩
  | plain _ _ _ _ _ _ ih => exact ⟨by omega, ih.2⟩

theorem matches_plain (notOpening : ¬ source.Exposed index opening)
    (notClosing : ¬ source.Exposed index closing) :
    source.Matches opening closing depth index place ↔
      source.Matches opening closing depth (index + 1) place := by
  refine ⟨fun balanced => ?_, .plain depth index place notOpening notClosing⟩
  cases balanced with
  | here _ bare => exact absurd bare notClosing
  | opens _ _ _ bare _ => exact absurd bare notOpening
  | closes _ _ _ bare _ => exact absurd bare notClosing
  | plain _ _ _ _ _ later => exact later

variable (different : opening ≠ closing)
include different

theorem matches_opening (bare : source.Exposed index opening) :
    source.Matches opening closing depth index place ↔
      source.Matches opening closing (depth + 1) (index + 1) place := by
  refine ⟨fun balanced => ?_, .opens depth index place bare⟩
  cases balanced with
  | here _ closes => exact absurd (bare.unique closes) different
  | opens _ _ _ _ later => exact later
  | closes _ _ _ closes _ => exact absurd (bare.unique closes) different
  | plain _ _ _ isPlain _ _ => exact absurd bare isPlain

theorem matches_closing (bare : source.Exposed index closing) :
    source.Matches opening closing (depth + 1) index place ↔
      source.Matches opening closing depth (index + 1) place := by
  refine ⟨fun balanced => ?_, .closes depth index place bare⟩
  cases balanced with
  | opens _ _ _ opens _ => exact absurd (opens.unique bare) different
  | closes _ _ _ _ later => exact later
  | plain _ _ _ _ isPlain _ => exact absurd bare isPlain

theorem matches_here (bare : source.Exposed index closing) :
    source.Matches opening closing 0 index place ↔ index = place := by
  constructor
  · intro balanced
    cases balanced with
    | here => rfl
    | opens _ _ _ opens _ => exact absurd (opens.unique bare) different
    | plain _ _ _ _ isPlain _ => exact absurd bare isPlain
  · rintro rfl
    exact .here index bare

theorem findMatchingFor_eq_some (count depth index : Nat)
    (inside : 0 < count → index + count ≤ source.size) :
    source.findMatchingFor opening closing count depth index = .ok (some place) ↔
      source.Matches opening closing depth index place ∧ place < index + count := by
  induction count generalizing depth index with
  | zero =>
      refine iff_of_false nofun ?_
      rintro ⟨balanced, within⟩
      have ahead := balanced.bounds.1
      omega
  | succ count ih =>
      have here : index < source.size := by omega
      have shift : index + (count + 1) = index + 1 + count := by omega
      obtain ⟨c, ran, hasC⟩ := @read_answers source index here
      obtain ⟨hidden, alsoRan, isHidden⟩ := @escaped_answers source index (Nat.le_of_lt here)
      unfold findMatchingFor
      rw [ran, ok_bind, alsoRan, ok_bind, shift]
      have onward := fun depth => ih depth (index + 1) (by omega)
      have bare : ∀ d, source.Exposed index d ↔ c = d ∧ hidden = false :=
        fun d => exposed_iff hasC isHidden
      -- A hidden character is passed, an opening one leads a level down, a closing one up.
      split
      · rename_i isTrue
        have plain : ∀ d, ¬ source.Exposed index d :=
          fun d exposed => exposed.2 (isHidden.mp isTrue)
        rw [onward depth, ← matches_plain (plain opening) (plain closing)]
      · rename_i notHidden
        rw [Bool.not_eq_true] at notHidden
        split
        · rename_i isOpening
          have opens := (bare opening).mpr ⟨isOpening, notHidden⟩
          rw [onward (depth + 1), matches_opening different opens]
        · rename_i notOpening
          split
          · rename_i isClosing
            have closes := (bare closing).mpr ⟨isClosing, notHidden⟩
            cases depth with
            | zero =>
                simp only [pure_eq_ok, Except.ok.injEq, Option.some.injEq,
                  matches_here different closes]
                exact ⟨fun same => ⟨same, by omega⟩, And.left⟩
            | succ outer =>
                rw [matches_closing different closes]
                exact onward outer
          · rename_i notClosing
            rw [onward depth, ← matches_plain (fun opens => notOpening ((bare _).mp opens).1)
              (fun closes => notClosing ((bare _).mp closes).1)]

/-- The matching character is found exactly where one balances the opening. -/
theorem findMatching_eq_some (inside : stop ≤ source.size) :
    source.findMatching opening closing start stop = .ok (some place) ↔
      source.Matches opening closing 0 start place ∧ place < stop := by
  rw [findMatching, findMatchingFor_eq_some different _ _ _ (by omega)]
  refine and_congr_right fun balanced => ?_
  have ahead := balanced.bounds.1
  omega

end Matching

end Source

namespace PropertyMap

inductive Lacks (source : Source) : Failure → Prop where
  | pair (before : Nat) : source.HasAt before '(' ∨ source.HasAt before ',' →
      Lacks source ⟨.mapPairMissing, before + 1⟩
  | key (position : Nat) : source.HasAt position '=' → Lacks source ⟨.mapKeyMissing, position⟩
  | value (position : Nat) : source.HasAt position '=' → Lacks source ⟨.mapValueMissing, position⟩

variable {source : Source} {before after first last : Nat} {failure : Failure}

theorem readPair_failure (inside : after ≤ source.size) (ordered : before < after)
    (delimited : source.HasAt before '(' ∨ source.HasAt before ',')
    (failed : readPair source before after = .error (.failure failure)) :
    Lacks source failure ∧ before < failure.position ∧ failure.position ≤ after := by
  obtain ⟨sign, found, failed⟩ := scan_failure failed
  cases sign with
  | none =>
      cases failed
      exact ⟨.pair before delimited, Nat.lt_succ_self before, ordered⟩
  | some sign =>
      have has := (Source.findFor_bare _ _ found sign rfl).1
      have bounds := (Source.find_answers '=' inside).of_ok found sign rfl
      obtain ⟨keyLast, _, failed⟩ := scan_failure failed
      split at failed
      · cases failed
        exact ⟨.key sign has, bounds.1, Nat.le_of_lt bounds.2⟩
      · obtain ⟨valueLast, _, failed⟩ := scan_failure failed
        split at failed
        · cases failed
          exact ⟨.value sign has, bounds.1, Nat.le_of_lt bounds.2⟩
        · cases failed

theorem readPairs_failure (inside : last ≤ source.size) (count before : Nat)
    (pairs : Table String String)
    (delimited : before < last → source.HasAt before '(' ∨ source.HasAt before ',')
    (failed : readPairs source last count before pairs = .error (.failure failure)) :
    Lacks source failure ∧ before < failure.position ∧ failure.position ≤ last := by
  induction count generalizing before pairs with
  | zero => cases failed
  | succ count ih =>
      unfold readPairs at failed
      split at failed
      · rename_i ahead
        obtain ⟨separator, found, failed⟩ := scan_failure failed
        -- The next delimiter is a comma within the map, or the map ends there.
        have next : before < separator.getD last ∧ separator.getD last ≤ last ∧
            (separator.getD last < last → source.HasAt (separator.getD last) ',') := by
          cases separator with
          | none => exact ⟨ahead, Nat.le_refl last, fun less => absurd less (Nat.lt_irrefl _)⟩
          | some place =>
              have bounds := (Source.findSeparator_answers ',' '(' ')' inside).of_ok found place rfl
              have comma := (Source.findSeparatorFor_bare _ _ _ found place rfl).1
              exact ⟨bounds.1, Nat.le_of_lt bounds.2, fun _ => comma⟩
        obtain ⟨ordered, within, comma⟩ := next
        rcases bind_eq_error.mp failed with failed | ⟨pair, _, failed⟩
        · have bounds :=
            readPair_failure (Nat.le_trans within inside) ordered (delimited ahead) failed
          exact ⟨bounds.1, bounds.2.1, Nat.le_trans bounds.2.2 within⟩
        · have bounds := ih _ _ (fun less => Or.inr (comma less)) failed
          exact ⟨bounds.1, Nat.lt_trans ordered bounds.2.1, bounds.2.2⟩
      · cases failed

/-- Between parentheses only a pair can be at fault. -/
theorem read_failure (opens : source.HasAt first '(') (closes : source.Exposed last ')')
    (ordered : first < last)
    (failed : read source first (last + 1) = .error (.failure failure)) :
    Lacks source failure ∧ first < failure.position ∧ failure.position ≤ last := by
  rw [read_between ordered opens closes.1 closes.2] at failed
  split at failed
  · cases failed
  · exact readPairs_failure (Nat.le_of_lt closes.1.inside) _ first {} (fun _ => Or.inl opens) failed

end PropertyMap

namespace Token

variable {source : Source} {start stop closing nameStop : Nat} {failure : Failure}

/-- What is wrong between the opening marker of a token, which ends at `start`, and its
closing one. -/
inductive Misspelt (source : Source) (start closing : Nat) : Failure → Prop where
  | nameMissing (position : Nat) (c : Char) : source.Blank start position →
      source.HasAt position c → c = '$' ∨ c = '(' ∨ c = '\x7d' →
      Misspelt source start closing ⟨.nameMissing, position⟩
  | nameInvalid (position : Nat) (c : Char) : source.Blank start position →
      source.HasAt position c → ¬ (c = '$' ∨ c = '(' ∨ c = '\x7d') → isNameChar c = false →
      isBlank c = false → Misspelt source start closing ⟨.nameInvalid, position⟩
  | propertyEndMissing (position : Nat) : source.HasAt position '(' →
      (∀ last, source.Matches '(' ')' 0 (position + 1) last → closing ≤ last) →
      Misspelt source start closing ⟨.propertyEndMissing, position⟩
  | pair (failure : Failure) : PropertyMap.Lacks source failure →
      Misspelt source start closing failure

theorem Misspelt.marked (misspelt : Misspelt source start closing failure) :
    failure.status ≠ .tokenBeginMissing ∧ failure.status ≠ .tokenEndMissing := by
  cases misspelt with
  | nameMissing | nameInvalid | propertyEndMissing => exact ⟨nofun, nofun⟩
  | pair _ lacks => cases lacks <;> exact ⟨nofun, nofun⟩

section Closed

variable (has : source.HasAt closing '\x7d')
include has

theorem nameSpan_failure (ahead : start ≤ closing)
    (failed : nameSpan source start = .error (.failure failure)) :
    Misspelt source start closing failure ∧ start ≤ failure.position ∧
      failure.position ≤ closing := by
  have after := source.le_skipBlanks start
  have within := Source.skipBlanks_le has (by decide) ahead
  have blanks := @Source.skipBlanks_blank source start
  obtain ⟨here, ran, failed⟩ := scan_failure failed
  have isHere := Source.hasAt_of_read ran
  split at failed
  · rename_i isSign
    cases failed
    exact ⟨.nameMissing _ here blanks isHere isSign, after, within⟩
  · rename_i noSign
    obtain ⟨nameStop, named, failed⟩ := scan_failure failed
    split at failed
    · rename_i empty
      cases failed
      obtain ⟨c, hasC, outside⟩ := Source.nameStopFor_has _ named
      rw [empty] at hasC
      obtain rfl := isHere.unique hasC
      exact ⟨.nameInvalid _ here blanks isHere noSign outside (Source.skipBlanks_bare isHere),
        after, within⟩
    · cases failed

/-- What stands behind a name: a sign, a parenthesis that is closed before the end of the
token, or the body. -/
theorem parts_cases {parts : Parts} (found : Token.parts source nameStop closing = .ok parts) :
    (source.HasAt (source.skipBlanks nameStop) '$' ∧
      parts = ⟨.variable, none, source.skipBlanks (source.skipBlanks nameStop + 1)⟩) ∨
    (∃ last, source.HasAt (source.skipBlanks nameStop) '(' ∧
      source.Matches '(' ')' 0 (source.skipBlanks nameStop + 1) last ∧ last < closing ∧
      parts = ⟨.command, some ⟨source.skipBlanks nameStop, last + 1⟩,
        source.skipBlanks (last + 1)⟩) ∨
    parts = ⟨.command, none, source.skipBlanks nameStop⟩ := by
  obtain ⟨here, ran, found⟩ := bind_eq_ok.mp found
  have isHere := Source.hasAt_of_read (ofScan_eq_ok.mp ran)
  split at found
  · rename_i isSign
    subst isSign
    cases found
    exact Or.inl ⟨isHere, rfl⟩
  · split at found
    · rename_i opens
      subst opens
      obtain ⟨last, matched, found⟩ := bind_eq_ok.mp found
      cases last with
      | none => cases found
      | some last =>
          cases found
          obtain ⟨balanced, before⟩ := (Source.findMatching_eq_some (by decide)
            (Nat.le_of_lt has.inside)).mp (ofScan_eq_ok.mp matched)
          exact Or.inr (Or.inl ⟨last, isHere, balanced, before, rfl⟩)
    · cases found
      exact Or.inr (Or.inr rfl)

theorem parts_map {parts : Parts} {span : Span}
    (found : Token.parts source nameStop closing = .ok parts)
    (isMap : parts.properties = some span) :
    ∃ last, span.stop = last + 1 ∧ source.HasAt span.start '(' ∧ source.Exposed last ')' ∧
      span.start < last ∧ last < closing ∧ source.Blank nameStop span.start ∧
      parts.bodyStart = source.skipBlanks span.stop := by
  rcases parts_cases has found with ⟨_, rfl⟩ | ⟨last, opens, balanced, before, rfl⟩ | rfl
  · cases isMap
  · cases isMap
    obtain ⟨ahead, closes⟩ := balanced.bounds
    exact ⟨last, rfl, opens, closes, ahead, before, Source.skipBlanks_blank, rfl⟩
  · cases isMap

theorem parts_failure (ahead : nameStop ≤ closing) (behind : start ≤ nameStop)
    (failed : Token.parts source nameStop closing = .error (.failure failure)) :
    Misspelt source start closing failure ∧ start ≤ failure.position ∧
      failure.position ≤ closing := by
  have after := source.le_skipBlanks nameStop
  have within := Source.skipBlanks_le has (by decide) ahead
  obtain ⟨here, ran, failed⟩ := scan_failure failed
  have isHere := Source.hasAt_of_read ran
  split at failed
  · cases failed
  · split at failed
    · rename_i opens
      subst opens
      obtain ⟨last, matched, failed⟩ := scan_failure failed
      cases last with
      | some last => cases failed
      | none =>
          cases failed
          refine ⟨.propertyEndMissing _ isHere fun last balanced => ?_, Nat.le_trans behind after,
            within⟩
          refine Nat.le_of_not_lt fun before => ?_
          have found := (Source.findMatching_eq_some (by decide)
            (Nat.le_of_lt has.inside)).mpr ⟨balanced, before⟩
          cases found.symm.trans matched
    · cases failed

end Closed

/-- Either a token has no closing marker in its level, or it is misspelt before that. -/
theorem read_failure (inside : stop ≤ source.size)
    (failed : Token.read source start stop = .error (.failure failure)) :
    (failure = ⟨.tokenEndMissing, start + 2⟩ ∧
      ∀ place, source.Closes 0 (start + 2) place → stop < place + 2) ∨
    ∃ closing, source.Closes 0 (start + 2) closing ∧ closing + 2 ≤ stop ∧
      Misspelt source (start + 2) closing failure ∧ start + 2 ≤ failure.position ∧
      failure.position ≤ closing := by
  obtain ⟨place, closes, failed⟩ := scan_failure failed
  cases place with
  | none =>
      cases failed
      refine Or.inl ⟨rfl, fun place balances => Nat.lt_of_not_le fun room => ?_⟩
      cases closes.symm.trans ((Source.closing_eq_some inside).mpr ⟨balances, room⟩)
  | some closing =>
      obtain ⟨balances, room⟩ := (Source.closing_eq_some inside).mp closes
      have has : source.HasAt closing '\x7d' := balances.bounds.2.1
      refine Or.inr ⟨closing, balances, room, ?_⟩
      rcases bind_eq_error.mp failed with failed | ⟨name, named, failed⟩
      · exact nameSpan_failure has balances.bounds.1 failed
      obtain ⟨after, filled, within, _⟩ := (nameSpan_settles has balances.bounds.1).of_ok named
      rcases bind_eq_error.mp failed with failed | ⟨parts, parted, failed⟩
      · exact parts_failure has within (by omega) failed
      rcases bind_eq_error.mp failed with failed | ⟨properties, _, failed⟩
      · cases isMap : parts.properties with
        | none =>
            rw [isMap] at failed
            cases failed
        | some span =>
            rw [isMap] at failed
            obtain ⟨last, ends, opens, closes, ordered, before, blanks, _⟩ :=
              parts_map has parted isMap
            rw [readProperties, ends] at failed
            obtain ⟨lacks, behind, ahead⟩ := PropertyMap.read_failure opens closes ordered failed
            have later := blanks.1
            exact ⟨.pair failure lacks, by omega, by omega⟩
      · obtain ⟨body, _, failed⟩ := scan_failure failed
        cases failed

end Token

namespace Level

variable {source : Source} {start stop index next : Nat} {failure : Failure}

inductive Passes (source : Source) (stop start : Nat) : Nat → Prop where
  | start : Passes source stop start start
  | text (index next : Nat) : Passes source stop start index → source.Runs index next stop →
      Passes source stop start next
  | token (index : Nat) (token : Token) : Passes source stop start index → index + 2 ≤ stop →
      source.Marks .opening index → Token.read source index stop = .ok token →
      Passes source stop start token.stop

structure Accepts (source : Source) (span : Span) (index : Nat) (token : Token) : Prop where
  passes : Passes source span.stop span.start index
  room : index + 2 ≤ span.stop
  opens : source.Marks .opening index
  read : Token.read source index span.stop = .ok token

theorem Passes.ahead (inside : stop ≤ source.size) (passes : Passes source stop start index) :
    start ≤ index := by
  induction passes with
  | start => exact Nat.le_refl start
  | text index next _ runs ih => exact Nat.le_trans ih runs.ahead
  | token index token _ _ opens read ih =>
      obtain ⟨closing, stops, _, spelled⟩ := Token.read_spelled opens inside read
      have after := spelled.closes.bounds.1
      omega

theorem runStopFor_failure (inside : stop ≤ source.size) (count index : Nat)
    (failed : runStopFor source stop count index = .error (.failure failure)) :
    failure.status = .tokenBeginMissing ∧ index ≤ failure.position ∧
      failure.position + 2 ≤ stop ∧ source.Marks .closing failure.position ∧
      ∀ other, index ≤ other → other < failure.position →
        ¬ source.Marks .opening other ∧ ¬ source.Marks .closing other := by
  induction count generalizing index with
  | zero => cases failed
  | succ count ih =>
      obtain ⟨opens, ran, failed⟩ := scan_failure failed
      have isOpening := (Source.markerAt_answers .opening inside).of_ok ran
      cases opens with
      | true => cases failed
      | false =>
          obtain ⟨closes, alsoRan, failed⟩ := scan_failure failed
          have isClosing := (Source.markerAt_answers .closing inside).of_ok alsoRan
          cases closes with
          | true =>
              obtain ⟨room, marks⟩ := isClosing.mp rfl
              cases failed
              exact ⟨rfl, Nat.le_refl index, room, marks, fun _ _ => by simp only; omega⟩
          | false =>
              obtain ⟨status, after, room, marks, unmarked⟩ := ih (index + 1) failed
              refine ⟨status, by omega, room, marks, fun other ahead before => ?_⟩
              by_cases here : other = index
              · subst here
                have within : other + 2 ≤ stop := by omega
                exact ⟨fun opens => Bool.false_ne_true (isOpening.mpr ⟨within, opens⟩),
                  fun closes => Bool.false_ne_true (isClosing.mpr ⟨within, closes⟩)⟩
              · exact unmarked other (by omega) before

section Walk

variable (inside : stop ≤ source.size) (count : Nat)
include inside

theorem piecesFor_failure (passes : Passes source stop start index)
    (failed : piecesFor source stop count index = .error (.failure failure)) :
    ∃ place, Passes source stop start place ∧
      (place + 2 ≤ stop ∧ source.Marks .opening place ∧
          Token.read source place stop = .error (.failure failure) ∨
        runStop source place stop = .error (.failure failure)) := by
  induction count generalizing index with
  | zero => cases failed
  | succ count ih =>
      unfold piecesFor at failed
      split at failed
      · rename_i more
        obtain ⟨opens, ran, failed⟩ := scan_failure failed
        have isOpening := (Source.markerAt_answers .opening inside).of_ok ran
        cases opens with
        | true =>
            obtain ⟨room, marks⟩ := isOpening.mp rfl
            rcases bind_eq_error.mp failed with failed | ⟨token, read, failed⟩
            · exact ⟨index, passes, Or.inl ⟨room, marks, failed⟩⟩
            rcases bind_eq_error.mp failed with failed | ⟨rest, _, failed⟩
            · exact ih (.token index token passes room marks read) failed
            · cases failed
        | false =>
            rcases bind_eq_error.mp failed with failed | ⟨next, ran, failed⟩
            · exact ⟨index, passes, Or.inr failed⟩
            rcases bind_eq_error.mp failed with failed | ⟨rest, _, failed⟩
            · have runs := (runStop_eq_ok inside (Nat.le_of_lt more)).mp ran
              exact ih (.text index next passes runs) failed
            · cases failed
      · cases failed

/-- The pieces with a body are the tokens that are accepted. -/
theorem piecesFor_accepts (passes : Passes source stop start index) {pieces : List Piece}
    (read : piecesFor source stop count index = .ok pieces) {piece : Piece}
    (member : piece ∈ pieces) {body : Span} (isBody : piece.body = some body) :
    ∃ place token, Accepts source ⟨start, stop⟩ place token ∧ token.body = some body := by
  induction count generalizing index pieces with
  | zero =>
      cases read
      cases member
  | succ count ih =>
      unfold piecesFor at read
      split at read
      · rename_i more
        obtain ⟨opens, ran, read⟩ := bind_eq_ok.mp read
        have isOpening := (Source.markerAt_answers .opening inside).of_ok (ofScan_eq_ok.mp ran)
        cases opens with
        | true =>
            obtain ⟨room, marks⟩ := isOpening.mp rfl
            obtain ⟨token, found, read⟩ := bind_eq_ok.mp read
            obtain ⟨rest, later, read⟩ := bind_eq_ok.mp read
            cases read
            rcases List.mem_cons.mp member with rfl | behind
            · exact ⟨index, token, ⟨passes, room, marks, found⟩, isBody⟩
            · exact ih (.token index token passes room marks found) later behind
        | false =>
            obtain ⟨next, ran, read⟩ := bind_eq_ok.mp read
            obtain ⟨rest, later, read⟩ := bind_eq_ok.mp read
            cases read
            rcases List.mem_append.mp member with inText | behind
            · -- A text has no body.
              unfold textPiece at inText
              split at inText
              · cases inText
              · rw [List.mem_singleton.mp inText] at isBody
                cases isBody
            · have runs := (runStop_eq_ok inside (Nat.le_of_lt more)).mp ran
              exact ih (.text index next passes runs) later behind
      · cases read
        cases member

end Walk

section Read

variable {span : Span} (inside : span.stop ≤ source.size)
include inside

theorem read_failure (failed : Level.read source span = .error (.failure failure)) :
    ∃ place, Passes source span.stop span.start place ∧
      (place + 2 ≤ span.stop ∧ source.Marks .opening place ∧
          Token.read source place span.stop = .error (.failure failure) ∨
        runStop source place span.stop = .error (.failure failure)) := by
  apply piecesFor_failure inside (span.stop - span.start) .start
  cases read : piecesFor source span.stop (span.stop - span.start) span.start with
  | error stop =>
      rw [Level.read, pieces, read] at failed
      exact failed
  | ok pieces =>
      rw [Level.read, Level.pieces, read] at failed
      cases failed

theorem read_accepts {pieces : List Piece} (read : Level.read source span = .ok pieces)
    {piece : Piece} (member : piece ∈ pieces) {body : Span} (isBody : piece.body = some body) :
    ∃ place token, Accepts source span place token ∧ token.body = some body := by
  obtain ⟨found, ran, rfl⟩ := map_eq_ok read
  cases found with
  | nil =>
      rw [List.mem_singleton.mp member] at isBody
      cases isBody
  | cons first rest => exact piecesFor_accepts inside _ .start ran member isBody

end Read

end Level

end Stencil
