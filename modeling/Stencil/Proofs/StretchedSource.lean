import Stencil.Proofs.SpelledReading

/-!
One source inside of another. A part stands in a source stretched if every bare
character of it stands there as it is and every blank stands there as a run of
blanks; nothing is between them, and no backslash stands directly before the whole.
The scans of the source over what stands for a span of the part find the places
that stand for what the scans of the part find.
-/

namespace Stencil.Source

/-- The part stands in the source, its character at `index` from `place index` on. -/
structure Stretches (source part : Source) (place : Nat → Nat) : Prop where
  inside : place part.size ≤ source.size
  unhidden : ¬ source.Hidden (place 0)
  bare : ∀ index c, part.HasAt index c → isBlank c = false →
    source.HasAt (place index) c ∧ place (index + 1) = place index + 1
  blank : ∀ index c, part.HasAt index c → isBlank c = true →
    place index < place (index + 1) ∧ source.Blank (place index) (place (index + 1))

theorem exists_hasAt {source : Source} {index : Nat} (inside : index < source.size) :
    ∃ c, source.HasAt index c := by
  obtain ⟨c, _, has⟩ := read_answers inside
  exact ⟨c, has⟩

section Places

variable {source part : Source} {place : Nat → Nat} (stretches : source.Stretches part place)
include stretches

theorem Stretches.step {index : Nat} (inside : index < part.size) :
    place index < place (index + 1) := by
  obtain ⟨c, has⟩ := exists_hasAt inside
  cases blank : isBlank c with
  | false =>
      have next := (stretches.bare index c has blank).2
      omega
  | true => exact (stretches.blank index c has blank).1

theorem Stretches.mono {first last : Nat} (ordered : first ≤ last) (inside : last ≤ part.size) :
    place first ≤ place last := by
  obtain ⟨distance, rfl⟩ := Nat.exists_eq_add_of_le ordered
  induction distance with
  | zero => exact Nat.le_refl _
  | succ distance ih =>
      have before := ih (by omega) (by omega)
      have step := stretches.step (show first + distance < part.size by omega)
      exact Nat.le_trans before (Nat.le_of_lt step)

theorem Stretches.strict {first last : Nat} (ordered : first < last) (inside : last ≤ part.size) :
    place first < place last :=
  Nat.lt_of_lt_of_le (stretches.step (by omega)) (stretches.mono ordered inside)

theorem Stretches.lt_iff {first last : Nat} (firstInside : first ≤ part.size)
    (lastInside : last ≤ part.size) : place first < place last ↔ first < last := by
  constructor
  · intro less
    refine Nat.lt_of_not_le fun behind => ?_
    have back := stretches.mono behind firstInside
    omega
  · exact fun less => stretches.strict less lastInside

theorem Stretches.place_le {index : Nat} (inside : index ≤ part.size) : place index ≤ source.size :=
  Nat.le_trans (stretches.mono inside (Nat.le_refl _)) stretches.inside

theorem Stretches.hidden_iff {index : Nat} (inside : index ≤ part.size) :
    source.Hidden (place index) ↔ part.Hidden index := by
  cases index with
  | zero => exact iff_of_false stretches.unhidden fun ⟨_, same, _⟩ => Nat.noConfusion same
  | succ index =>
      obtain ⟨c, has⟩ := exists_hasAt (Nat.lt_of_succ_le inside)
      cases blank : isBlank c with
      | false =>
          obtain ⟨hasThere, next⟩ := stretches.bare index c has blank
          constructor
          · rintro ⟨before, same, slash⟩
            obtain rfl : before = place index := by omega
            exact ⟨index, rfl, slash.unique hasThere ▸ has⟩
          · rintro ⟨before, same, slash⟩
            obtain rfl : index = before := Nat.succ.inj same
            exact ⟨place index, next, slash.unique has ▸ hasThere⟩
      | true =>
          -- Before the place there is a blank on both sides, and no backslash.
          obtain ⟨ahead, blanks⟩ := stretches.blank index c has blank
          refine iff_of_false ?_ ?_
          · rintro ⟨before, same, slash⟩
            obtain ⟨d, hasD, isBlank⟩ := blanks.2 before (by omega) (by omega)
            obtain rfl := hasD.unique slash
            cases isBlank
          · rintro ⟨before, same, slash⟩
            obtain rfl : index = before := Nat.succ.inj same
            obtain rfl := has.unique slash
            cases blank

theorem Stretches.escaped {index : Nat} (inside : index ≤ part.size) :
    source.escaped (place index) = part.escaped index := by
  obtain ⟨there, ranThere, isThere⟩ := escaped_answers (stretches.place_le inside)
  obtain ⟨here, ranHere, isHere⟩ := escaped_answers inside
  rw [ranThere, ranHere, Bool.eq_iff_iff.mpr ((isThere.trans (stretches.hidden_iff inside)).trans
    isHere.symm)]

theorem Stretches.hasAt_iff {index : Nat} {c : Char} (bare : isBlank c = false)
    (inside : index < part.size) : source.HasAt (place index) c ↔ part.HasAt index c := by
  refine ⟨fun hasThere => ?_, fun has => (stretches.bare index c has bare).1⟩
  obtain ⟨d, has⟩ := exists_hasAt inside
  cases blank : isBlank d with
  | false => exact hasThere.unique (stretches.bare index d has blank).1 ▸ has
  | true =>
      obtain ⟨ahead, blanks⟩ := stretches.blank index d has blank
      obtain ⟨e, hasE, isBlank⟩ := blanks.2 _ (Nat.le_refl _) ahead
      rw [hasThere.unique hasE, isBlank] at bare
      cases bare

theorem Stretches.marks_iff (marker : Marker) (first : isBlank marker.first = false)
    (second : isBlank marker.second = false) {index : Nat} (room : index + 2 ≤ part.size) :
    source.Marks marker (place index) ↔ part.Marks marker index := by
  rw [Marks, Marks, stretches.hidden_iff (by omega), stretches.hasAt_iff first (by omega)]
  refine and_congr_right fun isFirst => and_congr_left fun _ => ?_
  rw [← (stretches.bare index _ isFirst first).2, stretches.hasAt_iff second (by omega)]

theorem Stretches.markerAt (marker : Marker) (first : isBlank marker.first = false)
    (second : isBlank marker.second = false) {index stop : Nat} (ahead : index < stop)
    (inside : stop ≤ part.size) :
    source.markerAt marker (place index) (place stop) = part.markerAt marker index stop := by
  obtain ⟨there, ranThere, isThere⟩ :=
    @markerAt_answers source (place index) (place stop) marker (stretches.place_le inside)
  obtain ⟨here, ranHere, isHere⟩ := @markerAt_answers part index stop marker inside
  suffices same : there = here by rw [ranThere, ranHere, same]
  rw [Bool.eq_iff_iff, isThere, isHere]
  constructor
  · rintro ⟨room, marks⟩
    have isFirst := (stretches.hasAt_iff first (by omega)).mp marks.1
    have next := (stretches.bare index _ isFirst first).2
    have more : index + 1 < stop :=
      (stretches.lt_iff (by omega) inside).mp (by rw [next]; omega)
    exact ⟨more, (stretches.marks_iff marker first second (by omega)).mp marks⟩
  · rintro ⟨room, marks⟩
    have next := (stretches.bare index _ marks.1 first).2
    have behind := (stretches.bare (index + 1) _ marks.2.1 second).2
    have within : place (index + 1 + 1) ≤ place stop := stretches.mono room inside
    rw [next] at behind
    exact ⟨by omega, (stretches.marks_iff marker first second (by omega)).mpr marks⟩

/-- What stands for a character: the character itself, or a run of blanks for a blank. -/
theorem Stretches.cell {index : Nat} (inside : index < part.size) :
    ∃ c, part.HasAt index c ∧
      ((isBlank c = false ∧ source.HasAt (place index) c ∧ place (index + 1) = place index + 1) ∨
        (isBlank c = true ∧ source.Blank (place index) (place (index + 1)))) := by
  obtain ⟨c, has⟩ := exists_hasAt inside
  refine ⟨c, has, ?_⟩
  cases blank : isBlank c with
  | false => exact Or.inl ⟨rfl, stretches.bare index c has blank⟩
  | true => exact Or.inr ⟨rfl, (stretches.blank index c has blank).2⟩

theorem Stretches.blanks {start stop : Nat} (blank : part.Blank start stop)
    (inside : stop ≤ part.size) : source.Blank (place start) (place stop) := by
  obtain ⟨distance, rfl⟩ := Nat.exists_eq_add_of_le blank.1
  induction distance with
  | zero => exact .empty _
  | succ distance ih =>
      obtain ⟨c, has, isBlank⟩ := blank.2 (start + distance) (by omega) (by omega)
      have before : part.Blank start (start + distance) :=
        ⟨by omega, fun index after less => blank.2 index after (by omega)⟩
      obtain ⟨ordered, first⟩ := ih before (by omega)
      obtain ⟨ahead, last⟩ := stretches.blank _ c has isBlank
      refine ⟨Nat.le_trans ordered (Nat.le_of_lt ahead), fun index after less => ?_⟩
      by_cases early : index < place (start + distance)
      · exact first index after early
      · exact last.2 index (by omega) less

end Places

section Scans

variable {source part : Source} {place : Nat → Nat} (stretches : source.Stretches part place)

theorem passes_blanks {Value : Type} (loop : Nat → Nat → Value) {start stop : Nat}
    (blank : source.Blank start stop)
    (step : ∀ count index c, index < stop → source.HasAt index c → isBlank c = true →
      loop (count + 1) index = loop count (index + 1)) (count : Nat) :
    loop (count + (stop - start)) start = loop count stop := by
  obtain ⟨distance, rfl⟩ := Nat.exists_eq_add_of_le blank.1
  induction distance generalizing start with
  | zero => simp
  | succ distance ih =>
      obtain ⟨c, has, isBlank⟩ := blank.2 start (Nat.le_refl start) (by omega)
      have rest : source.Blank (start + 1) (start + 1 + distance) :=
        ⟨by omega, fun index after less => blank.2 index (by omega) (by omega)⟩
      have steps : count + (start + (distance + 1) - start) = count + distance + 1 := by omega
      have same : start + (distance + 1) = start + 1 + distance := by omega
      rw [steps, step (count + distance) start c (by omega) has isBlank, same]
      have later := ih rest fun count index c less => step count index c (by omega)
      rwa [Nat.add_sub_cancel_left] at later

theorem ne_of_blank {c d : Char} (bare : isBlank d = false) (blank : isBlank c = true) :
    c ≠ d := by
  rintro rfl
  rw [bare] at blank
  cases blank

variable {sought opener closer : Char}

theorem findFor_blank (bare : isBlank sought = false) (count index : Nat) {c : Char}
    (has : source.HasAt index c) (blank : isBlank c = true) :
    source.findFor sought (count + 1) index = source.findFor sought count (index + 1) := by
  obtain ⟨hidden, ran, _⟩ := escaped_answers (Nat.le_of_lt has.inside)
  simp [findFor, read_eq has, ran, ne_of_blank bare blank]

theorem findMatchingFor_blank (bareOpener : isBlank opener = false)
    (bareCloser : isBlank closer = false) (count depth index : Nat) {c : Char}
    (has : source.HasAt index c) (blank : isBlank c = true) :
    source.findMatchingFor opener closer (count + 1) depth index =
      source.findMatchingFor opener closer count depth (index + 1) := by
  obtain ⟨hidden, ran, _⟩ := escaped_answers (Nat.le_of_lt has.inside)
  simp [findMatchingFor, read_eq has, ran, ne_of_blank bareOpener blank,
    ne_of_blank bareCloser blank]

theorem findSeparatorFor_blank (bare : isBlank sought = false)
    (bareOpener : isBlank opener = false) (bareCloser : isBlank closer = false)
    (count depth index : Nat) {c : Char} (has : source.HasAt index c)
    (blank : isBlank c = true) :
    source.findSeparatorFor sought opener closer (count + 1) depth index =
      source.findSeparatorFor sought opener closer count depth (index + 1) := by
  obtain ⟨hidden, ran, _⟩ := escaped_answers (Nat.le_of_lt has.inside)
  simp [findSeparatorFor, read_eq has, ran, ne_of_blank bare blank, ne_of_blank bareOpener blank,
    ne_of_blank bareCloser blank]

theorem markerAt_blank (marker : Marker) (first : isBlank marker.first = false)
    {index stop : Nat} (inside : stop ≤ source.size) {c : Char} (has : source.HasAt index c)
    (blank : isBlank c = true) : source.markerAt marker index stop = .ok false := by
  obtain ⟨found, ran, isFound⟩ := @markerAt_answers source index stop marker inside
  cases found with
  | false => exact ran
  | true => exact absurd (has.unique (isFound.mp rfl).2.1) (ne_of_blank first blank)

theorem closingFor_blank {stop : Nat} (inside : stop ≤ source.size) (count depth index : Nat)
    (ahead : index < stop) {c : Char} (has : source.HasAt index c) (blank : isBlank c = true) :
    source.closingFor stop (count + 1) depth index =
      source.closingFor stop count depth (index + 1) := by
  simp [closingFor, ahead, markerAt_blank .opening rfl inside has blank,
    markerAt_blank .closing rfl inside has blank]

include stretches

theorem Stretches.steps {index stop : Nat} (ahead : index < stop) (inside : stop ≤ part.size) :
    place stop - place index =
      place stop - place (index + 1) + (place (index + 1) - place index) := by
  have step : place index < place (index + 1) :=
    stretches.step (Nat.lt_of_lt_of_le ahead inside)
  have rest : place (index + 1) ≤ place stop := stretches.mono ahead inside
  omega

theorem Stretches.one_step {index stop : Nat} (ahead : index < stop) (inside : stop ≤ part.size)
    (next : place (index + 1) = place index + 1) :
    place stop - place index = place stop - place (index + 1) + 1 := by
  rw [stretches.steps ahead inside, next, Nat.add_sub_cancel_left]

theorem Stretches.exists_escaped {index : Nat} (inside : index ≤ part.size) :
    ∃ hidden, part.escaped index = .ok hidden ∧ source.escaped (place index) = .ok hidden := by
  obtain ⟨hidden, ran, _⟩ := escaped_answers inside
  exact ⟨hidden, ran, (stretches.escaped inside).trans ran⟩

section Loops

variable {stop : Nat} (inside : stop ≤ part.size) (count depth index : Nat)
variable (ends : index + count = stop)
include inside ends

theorem Stretches.findFor (bare : isBlank sought = false) :
    source.findFor sought (place stop - place index) (place index) =
      Option.map place <$> part.findFor sought count index := by
  induction count generalizing index with
  | zero =>
      obtain rfl : index = stop := ends
      rw [Nat.sub_self]
      rfl
  | succ count ih =>
      have later := ih (index + 1) (by omega)
      obtain ⟨c, has, ⟨_, hasThere, next⟩ | ⟨blank, run⟩⟩ :=
        stretches.cell (show index < part.size by omega)
      · obtain ⟨hidden, ran, ranThere⟩ := stretches.exists_escaped (show index ≤ part.size by omega)
        rw [stretches.one_step (by omega) inside next]
        simp only [Source.findFor, read_eq hasThere, read_eq has, ran, ranThere, ok_bind, ← next]
        split
        · rfl
        · exact later
      · rw [stretches.steps (by omega) inside,
          passes_blanks (source.findFor sought) run fun count index c _ =>
            findFor_blank bare count index, later,
          findFor_blank bare count index has blank]

theorem Stretches.findMatchingFor (bareOpener : isBlank opener = false)
    (bareCloser : isBlank closer = false) :
    source.findMatchingFor opener closer (place stop - place index) depth (place index) =
      Option.map place <$> part.findMatchingFor opener closer count depth index := by
  induction count generalizing depth index with
  | zero =>
      obtain rfl : index = stop := ends
      rw [Nat.sub_self]
      rfl
  | succ count ih =>
      have later := fun depth => ih depth (index + 1) (by omega)
      obtain ⟨c, has, ⟨_, hasThere, next⟩ | ⟨blank, run⟩⟩ :=
        stretches.cell (show index < part.size by omega)
      · obtain ⟨hidden, ran, ranThere⟩ := stretches.exists_escaped (show index ≤ part.size by omega)
        rw [stretches.one_step (by omega) inside next]
        simp only [Source.findMatchingFor, read_eq hasThere, read_eq has, ran, ranThere, ok_bind,
          ← next]
        split
        · exact later depth
        · split
          · exact later (depth + 1)
          · split
            · cases depth with
              | zero => rfl
              | succ outer => exact later outer
            · exact later depth
      · rw [stretches.steps (by omega) inside,
          passes_blanks (fun count => source.findMatchingFor opener closer count depth) run
            fun count index c _ => findMatchingFor_blank bareOpener bareCloser count depth index,
          later, findMatchingFor_blank bareOpener bareCloser count depth index has blank]

theorem Stretches.findSeparatorFor (bare : isBlank sought = false)
    (bareOpener : isBlank opener = false) (bareCloser : isBlank closer = false) :
    source.findSeparatorFor sought opener closer (place stop - place index) depth (place index) =
      Option.map place <$> part.findSeparatorFor sought opener closer count depth index := by
  induction count generalizing depth index with
  | zero =>
      obtain rfl : index = stop := ends
      rw [Nat.sub_self]
      rfl
  | succ count ih =>
      have later := fun depth => ih depth (index + 1) (by omega)
      obtain ⟨c, has, ⟨_, hasThere, next⟩ | ⟨blank, run⟩⟩ :=
        stretches.cell (show index < part.size by omega)
      · obtain ⟨hidden, ran, ranThere⟩ := stretches.exists_escaped (show index ≤ part.size by omega)
        rw [stretches.one_step (by omega) inside next]
        simp only [Source.findSeparatorFor, read_eq hasThere, read_eq has, ran, ranThere, ok_bind,
          ← next]
        split
        · exact later depth
        · split
          · rfl
          · split
            · exact later (depth + 1)
            · split
              · exact later (depth - 1)
              · exact later depth
      · have passes := @findSeparatorFor_blank source _ _ _ bare bareOpener bareCloser
        rw [stretches.steps (by omega) inside,
          passes_blanks (fun count => source.findSeparatorFor sought opener closer count depth) run
            fun count index c _ => passes count depth index,
          later, findSeparatorFor_blank bare bareOpener bareCloser count depth index has blank]

end Loops

section Spans

variable {start stop : Nat} (ordered : start ≤ stop) (inside : stop ≤ part.size)
include ordered inside

theorem Stretches.find (bare : isBlank sought = false) :
    source.find sought (place start) (place stop) =
      Option.map place <$> part.find sought start stop :=
  stretches.findFor inside _ start (by omega) bare

theorem Stretches.findMatching (bareOpener : isBlank opener = false)
    (bareCloser : isBlank closer = false) :
    source.findMatching opener closer (place start) (place stop) =
      Option.map place <$> part.findMatching opener closer start stop :=
  stretches.findMatchingFor inside _ 0 start (by omega) bareOpener bareCloser

theorem Stretches.findSeparator (bare : isBlank sought = false)
    (bareOpener : isBlank opener = false) (bareCloser : isBlank closer = false) :
    source.findSeparator sought opener closer (place start) (place stop) =
      Option.map place <$> part.findSeparator sought opener closer start stop :=
  stretches.findSeparatorFor inside _ 0 start (by omega) bare bareOpener bareCloser

end Spans

/-- A marker takes two steps, so steps may be left over; more of them than there are
characters make no difference. -/
theorem Stretches.closingFor {stop : Nat} (inside : stop ≤ part.size)
    (count fewer depth index : Nat)
    (ordered : index ≤ stop) (enough : place stop ≤ place index + count)
    (fewerEnough : stop ≤ index + fewer) :
    source.closingFor (place stop) count depth (place index) =
      Option.map place <$> part.closingFor stop fewer depth index := by
  induction fewer generalizing count depth index with
  | zero =>
      obtain rfl : index = stop := by omega
      cases count <;> simp [Source.closingFor]
  | succ fewer ih =>
      by_cases more : index < stop
      · have within : place stop ≤ source.size := stretches.place_le inside
        have step : place (index + 1) ≤ place stop := stretches.mono more inside
        have ahead : place index < place stop := stretches.strict more inside
        obtain ⟨c, has, ⟨_, hasThere, next⟩ | ⟨blank, run⟩⟩ :=
          stretches.cell (show index < part.size by omega)
        · obtain ⟨count, rfl⟩ : ∃ left, count = left + 1 := ⟨count - 1, by omega⟩
          obtain ⟨opens, ran, isOpening⟩ := @markerAt_answers part index stop .opening inside
          obtain ⟨closes, alsoRan, isClosing⟩ := @markerAt_answers part index stop .closing inside
          simp only [Source.closingFor, if_pos more, if_pos ahead,
            stretches.markerAt .opening rfl rfl more inside,
            stretches.markerAt .closing rfl rfl more inside, ran, alsoRan, ok_bind]
          -- Both characters of a marker are bare, so what is behind it begins two places on.
          have behind : ∀ marker, isBlank marker.second = false → index + 2 ≤ stop →
              part.Marks marker index → place (index + 2) = place index + 2 := by
            intro marker second room marks
            have last := (stretches.bare (index + 1) _ marks.2.1 second).2
            rw [last, next]
          split
          · rename_i opened
            obtain ⟨room, marks⟩ := isOpening.mp opened
            have two := behind .opening rfl room marks
            rw [← two]
            exact ih count (depth + 1) (index + 2) room (by omega) (by omega)
          · split
            · rename_i closed
              obtain ⟨room, marks⟩ := isClosing.mp closed
              have two := behind .closing rfl room marks
              cases depth with
              | zero => rfl
              | succ outer =>
                  simp only
                  rw [← two]
                  exact ih count outer (index + 2) room (by omega) (by omega)
            · rw [← next]
              exact ih count depth (index + 1) more (by omega) (by omega)
        · have forward := run.1
          have left : count = count - (place (index + 1) - place index) +
              (place (index + 1) - place index) := by omega
          rw [left, passes_blanks (fun count => source.closingFor (place stop) count depth) run
            fun count index c less => closingFor_blank within count depth index (by omega)]
          rw [closingFor_blank inside fewer depth index more has blank]
          exact ih _ depth (index + 1) more (by omega) (by omega)
      · obtain rfl : index = stop := by omega
        cases count <;> simp [Source.closingFor]

theorem Stretches.closing {start stop : Nat} (ordered : start ≤ stop) (inside : stop ≤ part.size) :
    source.closing (place start) (place stop) = Option.map place <$> part.closing start stop := by
  have within := stretches.mono ordered inside
  exact stretches.closingFor inside _ _ 0 start ordered (by omega) (by omega)

end Scans

section Edges

variable {source part : Source} {place : Nat → Nat} (stretches : source.Stretches part place)
include stretches

theorem Stretches.skipBlanks {index target : Nat} {c : Char} (has : part.HasAt target c)
    (bare : isBlank c = false) (ahead : index ≤ target) :
    source.skipBlanks (place index) = place (part.skipBlanks index) := by
  have within := skipBlanks_le has bare ahead
  have inside := has.inside
  obtain ⟨d, hasFirst⟩ := exists_hasAt (show part.skipBlanks index < part.size by omega)
  have bareFirst := skipBlanks_bare hasFirst
  exact skipBlanks_eq (stretches.blanks skipBlanks_blank (by omega))
    (stretches.bare _ d hasFirst bareFirst).1 bareFirst

theorem Stretches.retreatBlanks {start stop : Nat} {c : Char} (has : part.HasAt start c)
    (bare : isBlank c = false) (ahead : start < stop) (inside : stop ≤ part.size) :
    ∃ last, part.retreatBlanks (stop - 1) = .ok last ∧
      source.retreatBlanks (place stop - 1) = .ok (place last) ∧ start ≤ last ∧ last < stop ∧
      place (last + 1) = place last + 1 := by
  obtain ⟨last, ran, after, before, blanks, isBare⟩ :=
    retreatBlanks_blank has bare (show start ≤ stop - 1 by omega) (by omega)
  obtain ⟨d, hasLast⟩ := exists_hasAt (show last < part.size by omega)
  obtain ⟨hasThere, next⟩ := stretches.bare last d hasLast (isBare d hasLast)
  have same : stop - 1 + 1 = stop := by omega
  rw [same] at blanks
  have run := stretches.blanks blanks inside
  rw [next] at run
  have positive := run.1
  have sameThere : place stop - 1 + 1 = place stop := by omega
  refine ⟨last, ran, ?_, after, by omega, next⟩
  exact retreatBlanks_eq (by omega) (sameThere.symm ▸ run) hasThere (isBare d hasLast)

end Edges

end Stencil.Source
