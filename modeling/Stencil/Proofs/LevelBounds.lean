import Mathlib.Algebra.GroupWithZero.Nat
import Stencil.Proofs.ScanBounds
import Stencil.Level

/-!
Levels within the bounds of their source. Reading a level never faults. Each of
its tokens has a valid name, and the body of a token is shorter than the token by
more than one character; so all the bodies of a level together, each counted with
one character more, are no longer than the level.
-/

namespace Stencil

/-- What every element has: some text, and a valid name if it is no literal text. -/
structure Node.Proper (node : Node) : Prop where
  worded : node.text.isSome
  named : node.kind ≠ .text → ∃ name, node.text = some name ∧ isName name = true

def Span.length (span : Span) : Nat := span.stop - span.start

theorem isName_ofList {chars : List Char} (filled : chars ≠ [])
    (named : ∀ c ∈ chars, isNameChar c = true) : isName (String.ofList chars) = true := by
  have some : String.ofList chars ≠ "" := by
    intro empty
    have noChars := congrArg String.toList empty
    simp only [String.toList_ofList, String.toList_empty] at noChars
    exact filled noChars
  simp [isName, String.toList_ofList, some, List.all_eq_true.mpr named]

theorem Text.collapseChars_eq_nil {chars : List Char} : collapseChars chars = [] ↔ chars = [] := by
  induction chars with
  | nil => simp [collapseChars]
  | cons c rest ih =>
      simp only [collapseChars, reduceCtorEq, iff_false]
      split
      · split
        · rename_i blank
          rw [ih]
          rintro rfl
          simp at blank
        · simp
      · simp

namespace PropertyMap

variable {source : Source} {start stop before after last : Nat}

theorem readPair_settles (ordered : before < after) (inside : after < source.size) :
    Settles source.size (readPair source before after) fun _ => True := by
  refine (Source.find_answers '=' (Nat.le_of_lt inside)).settles fun found within => ?_
  cases found with
  | none => exact .fail _ (by omega)
  | some sign =>
      have signInside := within sign rfl
      refine (Source.retreatBlanks_answers (by omega)).settles fun keyLast _ => ?_
      split
      · exact .fail _ (by omega)
      · refine (Source.retreatBlanks_answers (by omega)).settles fun valueLast _ => ?_
        split
        · exact .fail _ (by omega)
        · exact .ok trivial

theorem readPairs_settles (inside : last < source.size) (count before : Nat)
    (pairs : Table String String) :
    Settles source.size (readPairs source last count before pairs) fun _ => True := by
  induction count generalizing before pairs with
  | zero => exact .ok trivial
  | succ count ih =>
      unfold readPairs
      split
      · rename_i ahead
        have inside := Nat.le_of_lt inside
        refine (Source.findSeparator_answers ',' '(' ')' inside).settles fun separator within => ?_
        have after : before < separator.getD last ∧ separator.getD last ≤ last := by
          cases separator with
          | none => exact ⟨ahead, Nat.le_refl last⟩
          | some place => exact ⟨(within place rfl).1, Nat.le_of_lt (within place rfl).2⟩
        refine (readPair_settles after.1 (by omega)).bind fun pair _ => ?_
        exact ih _ _
      · exact .ok trivial

theorem read_settles (inside : stop ≤ source.size) :
    Settles source.size (read source start stop) fun _ => True := by
  unfold read
  split
  · exact .fail _ (by omega)
  · split
    · exact .fail _ (by omega)
    · have back : stop - 1 < source.size := by omega
      refine (Source.retreatBlanks_answers back).settles fun last lastInside => ?_
      split
      · exact .fail _ (by omega)
      · rename_i ordered
        refine (Source.read_answers (by omega)).settles fun opening _ => ?_
        split
        · exact .fail _ (by omega)
        · split
          · exact .fail _ (by omega)
          · refine (Source.read_answers (by omega)).settles fun closing _ => ?_
            refine (Source.escaped_answers (by omega)).settles fun hidden _ => ?_
            split
            · exact .fail _ (by omega)
            · split
              · exact .ok trivial
              · exact readPairs_settles (by omega) _ _ _

end PropertyMap

namespace Token

variable {source : Source} {start stop closing : Nat}

structure Fits (token : Token) (start stop : Nat) : Prop where
  proper : token.node.Proper
  noText : token.node.kind ≠ .text
  ahead : start < token.stop
  inside : token.stop ≤ stop
  body : ∀ span, token.body = some span →
    span.stop ≤ stop ∧ span.length + 1 ≤ token.stop - start

theorem nameSpan_settles (has : source.HasAt closing '\x7d') (ahead : start ≤ closing) :
    Settles source.size (nameSpan source start) fun name =>
      start ≤ name.start ∧ name.start < name.stop ∧ name.stop ≤ closing ∧
        ∀ c ∈ source.slice name.start name.stop, isNameChar c = true := by
  have first := Source.skipBlanks_le has (by decide) ahead
  have notBefore := source.le_skipBlanks start
  have inside := has.inside
  refine (Source.read_answers (by omega)).settles fun here _ => ?_
  split
  · exact .fail _ (by omega)
  · refine (Source.nameStop_answers has (by decide) first).settles fun stop bounds => ?_
    obtain ⟨after, within, named⟩ := bounds
    split
    · exact .fail _ (by omega)
    · refine .ok ⟨notBefore, by simp only; omega, within, fun c member => ?_⟩
      obtain ⟨place, from_, before, isThere⟩ := Source.mem_slice member
      exact named place from_ before c isThere

theorem parts_settles (has : source.HasAt closing '\x7d') (ahead : start ≤ closing) :
    Settles source.size (parts source start closing) fun parts => parts.kind ≠ .text ∧
      start ≤ parts.bodyStart ∧
      ∀ span, parts.properties = some span → span.stop ≤ source.size := by
  have sign := Source.skipBlanks_le has (by decide) ahead
  have notBefore := source.le_skipBlanks start
  have inside := has.inside
  refine (Source.read_answers (by omega)).settles fun here isHere => ?_
  split
  · have later := source.le_skipBlanks (source.skipBlanks start + 1)
    exact .ok ⟨by simp, by simp only; omega, by simp⟩
  · split
    · have inside := Nat.le_of_lt inside
      refine (Source.findMatching_answers '(' ')' inside).settles fun found within => ?_
      cases found with
      | none => exact .fail _ (by omega)
      | some last =>
          have bounds := within last rfl
          have later := source.le_skipBlanks (last + 1)
          refine .ok ⟨by simp, by simp only; omega, ?_⟩
          rintro span ⟨⟩
          simp only
          omega
    · exact .ok ⟨by simp, notBefore, by simp⟩

theorem bodySpan_answers (inside : closing ≤ source.size) :
    Answers (bodySpan source start closing) fun body => ∀ span, body = some span →
      span.start = start ∧ span.stop ≤ closing := by
  unfold bodySpan
  split
  · rename_i ahead
    refine (Source.retreatBlanks_answers (by omega)).bind fun last le => .ok ?_
    rintro span ⟨⟩
    exact ⟨rfl, by simp only; omega⟩
  · exact .ok (by simp)

theorem readProperties_settles {properties : Option Span}
    (inside : ∀ span, properties = some span → span.stop ≤ source.size) :
    Settles source.size (readProperties source properties) fun _ => True := by
  cases properties with
  | none => exact .ok trivial
  | some span => exact PropertyMap.read_settles (inside span rfl)

theorem read_settles (room : start + 2 ≤ stop) (inside : stop ≤ source.size) :
    Settles source.size (read source start stop) fun token => token.Fits start stop := by
  refine (Source.closing_answers inside).settles fun found within => ?_
  cases found with
  | none => exact .fail _ (by omega)
  | some closing =>
      obtain ⟨after, closes, has⟩ := within closing rfl
      -- The closing marker is a bound for all that is read before it.
      refine (nameSpan_settles has after).bind fun name nameBounds => ?_
      obtain ⟨nameAfter, filled, nameWithin, named⟩ := nameBounds
      refine (parts_settles has nameWithin).bind fun parts partsBounds => ?_
      obtain ⟨noText, bodyAfter, propertiesInside⟩ := partsBounds
      refine (readProperties_settles propertiesInside).bind fun properties _ => ?_
      refine (bodySpan_answers (by omega)).settles fun body bodyBounds => ?_
      have valid := isName_ofList (Source.slice_ne_nil filled (by omega)) named
      refine .ok ⟨⟨rfl, fun _ => ⟨_, rfl, valid⟩⟩, noText, by simp only; omega, closes, ?_⟩
      rintro span isBody
      obtain ⟨begins, ends⟩ := bodyBounds span isBody
      simp only [Span.length]
      omega

end Token

namespace Level

variable {source : Source} {start stop : Nat}

def load (piece : Piece) : Nat := (piece.body.map fun span => span.length + 1).getD 0

structure Fits (piece : Piece) (stop : Nat) : Prop where
  proper : piece.node.Proper
  noText : piece.body.isSome → piece.node.kind ≠ .text
  body : ∀ span, piece.body = some span → span.stop ≤ stop

theorem fits_text (text : String) (stop : Nat) : Fits (.text text) stop :=
  ⟨⟨rfl, fun noText => absurd rfl noText⟩, by simp [Piece.body], by simp [Piece.body]⟩

theorem runStopFor_settles (inside : stop ≤ source.size) (count index : Nat)
    (room : index + count ≤ stop) :
    Settles source.size (runStopFor source stop count index) fun runStop =>
      index ≤ runStop ∧ runStop ≤ stop := by
  induction count generalizing index with
  | zero => exact .ok ⟨Nat.le_refl index, room⟩
  | succ count ih =>
      refine (Source.markerAt_answers .opening inside).settles fun opens _ => ?_
      split
      · exact .ok ⟨Nat.le_refl index, by omega⟩
      · refine (Source.markerAt_answers .closing inside).settles fun closes _ => ?_
        split
        · exact .fail _ (by omega)
        · refine (ih (index + 1) (by omega)).mono fun runStop bounds => ?_
          exact ⟨by omega, bounds.2⟩

theorem runStop_settles (inside : stop ≤ source.size) (room : start < stop)
    (opens : source.markerAt .opening start stop = .ok false) :
    Settles source.size (runStop source start stop) fun runStop =>
      start < runStop ∧ runStop ≤ stop := by
  obtain ⟨count, isCount⟩ : ∃ count, stop - start = count + 1 := ⟨stop - start - 1, by omega⟩
  simp only [runStop, isCount, runStopFor, opens, ofScan_ok, ok_bind]
  refine (Source.markerAt_answers .closing inside).settles fun closes _ => ?_
  split
  · exact .fail _ (by omega)
  · refine (runStopFor_settles inside count (start + 1) (by omega)).mono fun runStop bounds => ?_
    exact ⟨by omega, bounds.2⟩

theorem textPiece_filled (room : start < stop) (inside : stop ≤ source.size) :
    textPiece source start stop =
      [.text (String.ofList (Text.collapseChars (source.slice start stop)))] := by
  have filled : Text.collapseChars (source.slice start stop) ≠ [] := fun empty =>
    Source.slice_ne_nil room inside (Text.collapseChars_eq_nil.mp empty)
  unfold textPiece
  split
  · rename_i empty
    exact absurd empty filled
  · rfl

theorem textPiece_fits (start runStop stop : Nat) :
    (∀ piece ∈ textPiece source start runStop, Fits piece stop) ∧
      ((textPiece source start runStop).map load).sum = 0 := by
  unfold textPiece
  split
  · simp
  · simp [fits_text, load, Piece.body]

theorem token_advances (inside : stop ≤ source.size) {index : Nat} {token : Token}
    (opens : source.markerAt .opening index stop = .ok true)
    (read : Token.read source index stop = .ok token) : index < token.stop ∧ token.stop ≤ stop := by
  have room := (((Source.markerAt_answers .opening inside).of_ok opens).mp rfl).1
  have fits := (Token.read_settles room inside).of_ok read
  exact ⟨fits.ahead, fits.inside⟩

theorem piecesFor_settles (inside : stop ≤ source.size) (count index : Nat) :
    Settles source.size (piecesFor source stop count index) fun pieces =>
      (∀ piece ∈ pieces, Fits piece stop) ∧ (pieces.map load).sum ≤ stop - index := by
  induction count generalizing index with
  | zero => exact .ok ⟨by simp, by simp⟩
  | succ count ih =>
      unfold piecesFor
      split
      · rename_i room
        -- A token takes more room than its body, and a text run has none.
        obtain ⟨opens, ran, marked⟩ := @Source.markerAt_answers source index stop .opening inside
        rw [ran, ofScan_ok, ok_bind]
        cases opens with
        | true =>
            refine (Token.read_settles (marked.mp rfl).1 inside).bind fun token fits => ?_
            refine (ih token.stop).bind fun rest bounds => ?_
            apply Settles.ok
            constructor
            · intro piece member
              rcases List.mem_cons.mp member with same | later
              · subst same
                exact ⟨fits.proper, fun _ => fits.noText, fun span isBody =>
                  (fits.body span isBody).1⟩
              · exact bounds.1 piece later
            · have tokenInside := fits.inside
              have tokenAhead := fits.ahead
              have loads : load (.token token) ≤ token.stop - index := by
                cases isBody : token.body with
                | none => simp [load, Piece.body, isBody]
                | some span => simpa [load, Piece.body, isBody] using (fits.body span isBody).2
              simp only [List.map_cons, List.sum_cons]
              omega
        | false =>
            refine (runStop_settles inside room ran).bind fun runStop runBounds => ?_
            refine (ih runStop).bind fun rest bounds => ?_
            apply Settles.ok
            constructor
            · intro piece member
              rcases List.mem_append.mp member with first | later
              · exact (textPiece_fits index runStop stop).1 piece first
              · exact bounds.1 piece later
            · rw [List.map_append, List.sum_append, (textPiece_fits index runStop stop).2]
              omega
      · exact .ok ⟨by simp, by simp⟩

theorem read_empty (source : Source) {span : Span} (empty : span.stop ≤ span.start) :
    read source span = .ok [.text ""] := by
  simp [read, pieces, Nat.sub_eq_zero_of_le empty, piecesFor, orEmptyText]

theorem read_settles {span : Span} (inside : span.stop ≤ source.size) :
    Settles source.size (read source span) fun pieces =>
      (∀ piece ∈ pieces, Fits piece span.stop) ∧ (pieces.map load).sum ≤ span.length ∧
        pieces ≠ [] := by
  rcases piecesFor_settles inside (span.stop - span.start) span.start with
    ⟨pieces, ran, fits, bound⟩ | ⟨failure, ran, position⟩
  · refine Or.inl ⟨orEmptyText pieces, by simp [read, Level.pieces, ran], ?_⟩
    cases pieces with
    | nil => exact ⟨by simp [orEmptyText, fits_text], by simp [orEmptyText, load, Piece.body],
        by simp [orEmptyText]⟩
    | cons piece rest => exact ⟨fits, bound, by simp [orEmptyText]⟩
  · exact Or.inr ⟨failure, by simp [read, Level.pieces, ran], position⟩

end Level

end Stencil
