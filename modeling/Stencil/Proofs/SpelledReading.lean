import Stencil.Proofs.Spelling

/-!
What a source spells is read from it. A token whose name, sign and body are known
to stand at certain places is read with exactly these, and a level whose first
run or token is known is read as that piece and the level behind it.
-/

namespace Stencil

namespace Source

variable {source : Source}

theorem retreatBlanks_eq {target index : Nat} {c : Char} (ahead : target ≤ index)
    (behind : source.Blank (target + 1) (index + 1)) (has : source.HasAt target c)
    (bare : isBlank c = false) : source.retreatBlanks index = .ok target := by
  induction index with
  | zero => rw [Nat.le_zero.mp ahead, retreatBlanks]
  | succ index ih =>
      rcases Nat.lt_or_eq_of_le ahead with short | rfl
      · obtain ⟨d, hasD, blank⟩ := behind.2 (index + 1) (by omega) (by omega)
        have before : source.Blank (target + 1) (index + 1) :=
          ⟨by omega, fun place after within => behind.2 place after (by omega)⟩
        have reads : source.read (index + 1) = .ok d := by rw [read, hasD]
        rw [retreatBlanks, reads, ok_bind, if_pos blank]
        exact ih (by omega) before
      · have reads : source.read (index + 1) = .ok c := by rw [read, has]
        rw [retreatBlanks, reads, ok_bind, if_neg (Bool.eq_false_iff.mp bare)]
        rfl

theorem read_eq {index : Nat} {c : Char} (has : source.HasAt index c) :
    source.read index = .ok c := by
  rw [read, has]

theorem nameStopFor_eq {target : Nat} {c : Char} (has : source.HasAt target c)
    (outside : isNameChar c = false) (count index : Nat) (ahead : index ≤ target)
    (enough : target < index + count) (named : ∀ place, index ≤ place → place < target →
      ∃ d, source.HasAt place d ∧ isNameChar d = true) :
    source.nameStopFor count index = .ok target := by
  induction count generalizing index with
  | zero => omega
  | succ count ih =>
      rcases Nat.lt_or_eq_of_le ahead with short | rfl
      · obtain ⟨d, hasD, isName⟩ := named index (Nat.le_refl index) short
        rw [nameStopFor, read_eq hasD, ok_bind, if_pos isName]
        exact ih (index + 1) short (by omega) fun place after => named place (by omega)
      · rw [nameStopFor, read_eq has, ok_bind, if_neg (Bool.eq_false_iff.mp outside)]
        rfl

/-- A name is scanned exactly up to a character that belongs to no name. -/
theorem nameStop_eq {index target : Nat} {c : Char} (has : source.HasAt target c)
    (outside : isNameChar c = false) (ahead : index ≤ target)
    (named : ∀ place, index ≤ place → place < target →
      ∃ d, source.HasAt place d ∧ isNameChar d = true) :
    source.nameStop index = .ok target := by
  have inside := has.inside
  exact nameStopFor_eq has outside _ index ahead (by omega) named

end Source

namespace Token

variable {source : Source} {start stop closing : Nat}

theorem bodySpan_eq {last : Nat} {c : Char} (ahead : start ≤ last) (within : last < closing)
    (behind : source.Blank (last + 1) closing) (has : source.HasAt last c)
    (bare : isBlank c = false) : bodySpan source start closing = .ok (some ⟨start, last + 1⟩) := by
  have same : closing - 1 + 1 = closing := by omega
  have retreats : source.retreatBlanks (closing - 1) = .ok last :=
    Source.retreatBlanks_eq (by omega) (same.symm ▸ behind) has bare
  rw [bodySpan, if_pos (by omega), retreats]
  rfl

theorem not_blank_of_name {c : Char} (name : isNameChar c = true) : isBlank c = false := by
  cases blank : isBlank c with
  | false => rfl
  | true =>
      simp only [isBlank, blanks, List.contains_eq_mem, decide_eq_true_eq, List.mem_cons,
        List.not_mem_nil, or_false] at blank
      rcases blank with rfl | rfl | rfl | rfl | rfl | rfl <;> cases name

variable {sign : Nat}

theorem nameSpan_eq {c : Char} (filled : start < sign) (has : source.HasAt sign c)
    (outside : isNameChar c = false) (named : ∀ place, start ≤ place → place < sign →
      ∃ d, source.HasAt place d ∧ isNameChar d = true) :
    nameSpan source start = .ok ⟨start, sign⟩ := by
  obtain ⟨d, hasFirst, isName⟩ := named start (Nat.le_refl start) filled
  have stays := Source.skipBlanks_eq (.empty start) hasFirst (not_blank_of_name isName)
  have begins : ¬ (d = '$' ∨ d = '(' ∨ d = '\x7d') := by
    rintro (rfl | rfl | rfl) <;> cases isName
  have ends := Source.nameStop_eq has outside (Nat.le_of_lt filled) named
  simp only [nameSpan, stays, Source.read_eq hasFirst, ofScan_ok, ok_bind, if_neg begins, ends,
    if_neg (Nat.ne_of_gt filled), pure_eq_ok]

theorem parts_sign (isSign : source.HasAt sign '$') :
    parts source sign closing = .ok ⟨.variable, none, source.skipBlanks (sign + 1)⟩ := by
  have stays := Source.skipBlanks_eq (.empty sign) isSign rfl
  simp only [parts, stays, Source.read_eq isSign, ofScan_ok, ok_bind, if_true, pure_eq_ok]

theorem read_sign (inside : stop ≤ source.size) (closes : source.Closes 0 (start + 2) closing)
    (room : closing + 2 ≤ stop) (filled : start + 2 < sign) (isSign : source.HasAt sign '$')
    (named : ∀ place, start + 2 ≤ place → place < sign →
      ∃ c, source.HasAt place c ∧ isNameChar c = true) {body : Option Span}
    (bodied : bodySpan source (source.skipBlanks (sign + 1)) closing = .ok body) :
    Token.read source start stop = .ok {
      node := ⟨.variable, some (String.ofList (source.slice (start + 2) sign)), {}⟩
      body
      stop := closing + 2 } := by
  have found := (Source.closing_eq_some inside).mpr ⟨closes, room⟩
  simp only [Token.read, found, ofScan_ok, ok_bind, nameSpan_eq filled isSign rfl named,
    parts_sign isSign, readProperties, pure_eq_ok, bodied]

end Token

namespace Level

variable {source : Source} {start next stop : Nat}

theorem piecesFor_done (source : Source) (count : Nat) {index : Nat} (behind : stop ≤ index) :
    piecesFor source stop count index = .ok [] := by
  cases count with
  | zero => rfl
  | succ count => rw [piecesFor, if_neg (Nat.not_lt.mpr behind), pure_eq_ok]

theorem piecesFor_enough (inside : stop ≤ source.size) (count more index : Nat)
    (enough : stop ≤ index + count) (moreEnough : stop ≤ index + more) :
    piecesFor source stop count index = piecesFor source stop more index := by
  induction count generalizing more index with
  | zero => rw [piecesFor_done source _ (by omega), piecesFor_done source _ (by omega)]
  | succ count ih =>
      by_cases room : index < stop
      · obtain ⟨more, rfl⟩ : ∃ fewer, more = fewer + 1 := ⟨more - 1, by omega⟩
        rw [piecesFor, piecesFor, if_pos room, if_pos room]
        obtain ⟨opens, marked, _⟩ := @Source.markerAt_answers source index stop .opening inside
        rw [marked, ofScan_ok, ok_bind, ok_bind]
        cases opens with
        | true =>
            cases read : Token.read source index stop with
            | error => rfl
            | ok token =>
                have ahead := (token_advances inside marked read).1
                simp only [if_true, ok_bind, ih more token.stop (by omega) (by omega)]
        | false =>
            cases read : runStop source index stop with
            | error => rfl
            | ok next =>
                have ahead := ((runStop_settles inside room marked).of_ok read).1
                simp only [Bool.false_eq_true, if_false, ok_bind,
                  ih more next (by omega) (by omega)]
      · rw [piecesFor_done source _ (by omega), piecesFor_done source _ (by omega)]

theorem pieces_done (source : Source) (stop : Nat) : pieces source ⟨stop, stop⟩ = .ok [] :=
  piecesFor_done source _ (Nat.le_refl stop)

theorem pieces_token (inside : stop ≤ source.size) (room : start + 2 ≤ stop)
    (marks : source.Marks .opening start) {token : Token}
    (read : Token.read source start stop = .ok token) :
    pieces source ⟨start, stop⟩ = (.token token :: ·) <$> pieces source ⟨token.stop, stop⟩ := by
  obtain ⟨opens, marked, isOpening⟩ := @Source.markerAt_answers source start stop .opening inside
  obtain rfl := isOpening.mpr ⟨room, marks⟩
  have ahead := (token_advances inside marked read).1
  obtain ⟨count, isCount⟩ : ∃ count, stop - start = count + 1 := ⟨stop - start - 1, by omega⟩
  have rest := piecesFor_enough inside count (stop - token.stop) token.stop (by omega) (by omega)
  simp only [pieces, isCount, piecesFor, if_pos (show start < stop by omega), marked, ofScan_ok,
    ok_bind, if_true, read, rest]
  cases piecesFor source stop (stop - token.stop) token.stop <;> rfl

/-- A level that begins with a run of text is the text with the level behind it. -/
theorem pieces_run (inside : stop ≤ source.size) (room : start < next)
    (runs : source.Runs start next stop) :
    pieces source ⟨start, stop⟩ =
      (.text (String.ofList (Text.collapseChars (source.slice start next))) :: ·) <$>
        pieces source ⟨next, stop⟩ := by
  have within := runs.inside
  obtain ⟨opens, marked, isOpening⟩ := @Source.markerAt_answers source start stop .opening inside
  have bare : opens = false := by
    refine Bool.eq_false_iff.mpr fun isTrue => ?_
    obtain ⟨fits, marks⟩ := isOpening.mp isTrue
    exact (runs.bare start (Nat.le_refl start) room fits).1 marks
  subst bare
  obtain ⟨count, isCount⟩ : ∃ count, stop - start = count + 1 := ⟨stop - start - 1, by omega⟩
  have rest := piecesFor_enough inside count (stop - next) next (by omega) (by omega)
  simp only [pieces, isCount, piecesFor, if_pos (show start < stop by omega), marked, ofScan_ok,
    ok_bind, Bool.false_eq_true, if_false, (runStop_eq_ok inside (by omega)).mpr runs,
    textPiece_filled room (Nat.le_trans within inside), rest]
  cases piecesFor source stop (stop - next) next <;> rfl

/-- Only a level without pieces is read as an empty text. -/
theorem read_filled {span : Span} {piece : Piece} {rest : List Piece}
    (found : pieces source span = .ok (piece :: rest)) :
    Level.read source span = .ok (piece :: rest) := by
  rw [Level.read, found]
  rfl

end Level

end Stencil
