import Stencil.Proofs.Attempt
import Stencil.Token

/-!
Scans of a source within its bounds. A scan of a span that lies in the source
answers, and what it finds lies in the span. Two scans test no bound of their
own, the ones over blanks and over a name; they end at the latest at a character
of the other kind, so it is enough that one is known ahead.
-/

namespace Stencil.Source

variable (source : Source)

def HasAt (index : Nat) (c : Char) : Prop := source.chars[index]? = some c

variable {source}

theorem HasAt.inside {index : Nat} {c : Char} (has : source.HasAt index c) :
    index < source.size := by
  obtain ⟨inside, _⟩ := Array.getElem?_eq_some_iff.mp has
  exact inside

theorem HasAt.unique {index : Nat} {c d : Char} (has : source.HasAt index c)
    (again : source.HasAt index d) : c = d :=
  Option.some.inj (Eq.trans (Eq.symm has) again)

def Hidden (source : Source) (index : Nat) : Prop :=
  ∃ before, index = before + 1 ∧ source.HasAt before '\\'

def Marks (source : Source) (marker : Marker) (index : Nat) : Prop :=
  source.HasAt index marker.first ∧ source.HasAt (index + 1) marker.second ∧ ¬ source.Hidden index

section Reads

variable {index stop : Nat}

theorem read_answers (inside : index < source.size) :
    Answers (source.read index) (source.HasAt index) := by
  have found : source.chars[index]? = some source.chars[index] :=
    Array.getElem?_eq_getElem inside
  exact ⟨source.chars[index], by simp [read, found], found⟩

theorem escaped_answers (inside : index ≤ source.size) :
    Answers (source.escaped index) fun hidden => hidden = true ↔ source.Hidden index := by
  cases index with
  | zero => exact .ok (by simp [Hidden])
  | succ before =>
      refine (read_answers inside).bind fun here isHere => .ok ?_
      rw [beq_iff_eq]
      constructor
      · rintro rfl
        exact ⟨before, rfl, isHere⟩
      · rintro ⟨_, ⟨⟩, hidden⟩
        exact isHere.unique hidden

/-- A marker is found exactly where a bare one lies in the span. -/
theorem markerAt_answers (marker : Marker) (inside : stop ≤ source.size) :
    Answers (source.markerAt marker index stop) fun found =>
      found = true ↔ index + 2 ≤ stop ∧ source.Marks marker index := by
  unfold markerAt
  split
  · rename_i room
    refine (read_answers (by omega)).bind fun here isHere => ?_
    split
    · rename_i isFirst
      refine (read_answers (by omega)).bind fun after isAfter => ?_
      refine (escaped_answers (by omega)).bind fun hidden isHidden => .ok ?_
      rw [Bool.and_eq_true, beq_iff_eq, Bool.not_eq_true', ← Bool.not_eq_true, isHidden]
      constructor
      · rintro ⟨rfl, bare⟩
        exact ⟨room, isFirst ▸ isHere, isAfter, bare⟩
      · rintro ⟨_, _, hasSecond, bare⟩
        exact ⟨isAfter.unique hasSecond, bare⟩
    · rename_i notFirst
      exact .ok ⟨by simp, fun marked => absurd (isHere.unique marked.2.1) notFirst⟩
  · rename_i noRoom
    exact .ok ⟨by simp, fun marked => absurd marked.1 noRoom⟩

end Reads

section Blanks

variable (source) in
theorem le_skipBlanksFor (count index : Nat) : index ≤ source.skipBlanksFor count index := by
  induction count generalizing index with
  | zero => exact Nat.le_refl index
  | succ count ih =>
      unfold skipBlanksFor
      split
      · exact Nat.le_of_succ_le (ih (index + 1))
      · exact Nat.le_refl index

variable (source) in
theorem le_skipBlanks (index : Nat) : index ≤ source.skipBlanks index :=
  source.le_skipBlanksFor _ index

theorem skipBlanksFor_le {target : Nat} {c : Char} (has : source.HasAt target c)
    (bare : isBlank c = false) (count index : Nat) (ahead : index ≤ target) :
    source.skipBlanksFor count index ≤ target := by
  induction count generalizing index with
  | zero => exact ahead
  | succ count ih =>
      unfold skipBlanksFor
      split
      · rename_i blank
        apply ih
        -- The character at the target would have stopped the scan.
        have different : index ≠ target := by
          intro same
          subst same
          rw [has, Option.any_some, bare] at blank
          cases blank
        omega
      · exact ahead

theorem skipBlanks_le {index target : Nat} {c : Char} (has : source.HasAt target c)
    (bare : isBlank c = false) (ahead : index ≤ target) : source.skipBlanks index ≤ target :=
  skipBlanksFor_le has bare _ index ahead

theorem retreatBlanks_answers {index : Nat} (inside : index < source.size) :
    Answers (source.retreatBlanks index) fun last => last ≤ index := by
  induction index with
  | zero => exact .ok (Nat.le_refl 0)
  | succ index ih =>
      refine (read_answers inside).bind fun here _ => ?_
      split
      · exact (ih (Nat.lt_of_succ_lt inside)).mono fun last le => Nat.le_succ_of_le le
      · exact .ok (Nat.le_refl _)

end Blanks

def Between (start stop : Nat) (found : Option Nat) : Prop :=
  ∀ place, found = some place → start ≤ place ∧ place < stop

section Searches

variable {start stop : Nat}

theorem between_here (index count : Nat) : Between index (index + (count + 1)) (some index) := by
  rintro place ⟨⟩
  omega

theorem between_later {search : Except Fault (Option Nat)} {index count : Nat}
    (answers : Answers search (Between (index + 1) (index + 1 + count))) :
    Answers search (Between index (index + (count + 1))) := by
  refine answers.mono fun found bound place isPlace => ?_
  have bounds := bound place isPlace
  omega

theorem between_span {search : Except Fault (Option Nat)}
    (answers : Answers search (Between start (start + (stop - start)))) :
    Answers search (Between start stop) := by
  refine answers.mono fun found bound place isPlace => ?_
  have bounds := bound place isPlace
  omega

-- The searches count their steps. One with steps left stands before the end; one
-- without may stand anywhere, as the span to search may be empty from the start.
theorem findFor_answers (sought : Char) (count index : Nat)
    (inside : 0 < count → index + count ≤ source.size) :
    Answers (source.findFor sought count index) (Between index (index + count)) := by
  induction count generalizing index with
  | zero => exact .ok (by simp [Between])
  | succ count ih =>
      have here : index < source.size := by omega
      refine (read_answers here).bind fun c _ => ?_
      refine (escaped_answers (Nat.le_of_lt here)).bind fun hidden _ => ?_
      split
      · exact .ok (between_here index count)
      · exact between_later (ih (index + 1) (by omega))

theorem find_answers (sought : Char) (inside : stop ≤ source.size) :
    Answers (source.find sought start stop) (Between start stop) :=
  between_span (findFor_answers sought _ _ (by omega))

theorem findMatchingFor_answers (opening closing : Char) (count depth index : Nat)
    (inside : 0 < count → index + count ≤ source.size) :
    Answers (source.findMatchingFor opening closing count depth index)
      (Between index (index + count)) := by
  induction count generalizing depth index with
  | zero => exact .ok (by simp [Between])
  | succ count ih =>
      have here : index < source.size := by omega
      have onward : ∀ depth, Answers
          (source.findMatchingFor opening closing count depth (index + 1))
          (Between index (index + (count + 1))) :=
        fun depth => between_later (ih depth (index + 1) (by omega))
      refine (read_answers here).bind fun c _ => ?_
      refine (escaped_answers (Nat.le_of_lt here)).bind fun hidden _ => ?_
      split
      · exact onward depth
      · split
        · exact onward (depth + 1)
        · split
          · cases depth with
            | zero => exact .ok (between_here index count)
            | succ outer => exact onward outer
          · exact onward depth

theorem findMatching_answers (opening closing : Char) (inside : stop ≤ source.size) :
    Answers (source.findMatching opening closing start stop) (Between start stop) :=
  between_span (findMatchingFor_answers opening closing _ _ _ (by omega))

theorem findSeparatorFor_answers (sought opening closing : Char) (count depth index : Nat)
    (inside : 0 < count → index + count ≤ source.size) :
    Answers (source.findSeparatorFor sought opening closing count depth index)
      (Between index (index + count)) := by
  induction count generalizing depth index with
  | zero => exact .ok (by simp [Between])
  | succ count ih =>
      have here : index < source.size := by omega
      have onward : ∀ depth, Answers
          (source.findSeparatorFor sought opening closing count depth (index + 1))
          (Between index (index + (count + 1))) :=
        fun depth => between_later (ih depth (index + 1) (by omega))
      refine (escaped_answers (Nat.le_of_lt here)).bind fun hidden _ => ?_
      split
      · exact onward depth
      · refine (read_answers here).bind fun c _ => ?_
        split
        · exact .ok (between_here index count)
        · split
          · exact onward (depth + 1)
          · split
            · exact onward (depth - 1)
            · exact onward depth

theorem findSeparator_answers (sought opening closing : Char) (inside : stop ≤ source.size) :
    Answers (source.findSeparator sought opening closing start stop) (Between start stop) :=
  between_span (findSeparatorFor_answers sought opening closing _ _ _ (by omega))

theorem closingFor_answers (inside : stop ≤ source.size) (count depth index : Nat) :
    Answers (source.closingFor stop count depth index) fun found =>
      ∀ place, found = some place →
        index ≤ place ∧ place + 2 ≤ stop ∧ source.HasAt place '\x7d' := by
  induction count generalizing depth index with
  | zero => exact .ok (by simp)
  | succ count ih =>
      -- A marker is passed as a whole, any other character alone.
      have onward : ∀ depth passed, Answers (source.closingFor stop count depth (index + passed))
          fun found => ∀ place, found = some place →
            index ≤ place ∧ place + 2 ≤ stop ∧ source.HasAt place '\x7d' := by
        intro depth passed
        refine (ih depth (index + passed)).mono fun found bound place isPlace => ?_
        obtain ⟨after, room, has⟩ := bound place isPlace
        exact ⟨by omega, room, has⟩
      unfold closingFor
      split
      · refine (markerAt_answers .opening inside).bind fun opens _ => ?_
        split
        · exact onward (depth + 1) 2
        · refine (markerAt_answers .closing inside).bind fun closes marked => ?_
          split
          · rename_i isClosing
            cases depth with
            | zero =>
                refine .ok ?_
                rintro place ⟨⟩
                have here := marked.mp isClosing
                exact ⟨Nat.le_refl index, here.1, here.2.1⟩
            | succ outer => exact onward outer 2
          · exact onward depth 1
      · exact .ok (by simp)

theorem closing_answers (inside : stop ≤ source.size) :
    Answers (source.closing start stop) fun found =>
      ∀ place, found = some place →
        start ≤ place ∧ place + 2 ≤ stop ∧ source.HasAt place '\x7d' :=
  closingFor_answers inside _ 0 start

theorem nameStopFor_answers {target : Nat} {c : Char} (has : source.HasAt target c)
    (outside : isNameChar c = false) (count index : Nat) (ahead : index ≤ target)
    (enough : target < index + count) :
    Answers (source.nameStopFor count index) fun stop => index ≤ stop ∧ stop ≤ target ∧
      ∀ place, index ≤ place → place < stop →
        ∀ d, source.HasAt place d → isNameChar d = true := by
  induction count generalizing index with
  | zero => omega
  | succ count ih =>
      refine (read_answers (Nat.lt_of_le_of_lt ahead has.inside)).bind fun here isHere => ?_
      split
      · rename_i named
        have different : index ≠ target := by
          intro same
          subst same
          rw [isHere.unique has, outside] at named
          cases named
        refine (ih (index + 1) (by omega) (by omega)).mono fun stop bounds => ?_
        refine ⟨by omega, bounds.2.1, fun place from_ before d isThere => ?_⟩
        by_cases same : place = index
        · subst same
          exact isThere.unique isHere ▸ named
        · exact bounds.2.2 place (by omega) before d isThere
      · exact .ok ⟨Nat.le_refl index, ahead, fun place _ _ => by omega⟩

theorem nameStop_answers {index target : Nat} {c : Char} (has : source.HasAt target c)
    (outside : isNameChar c = false) (ahead : index ≤ target) :
    Answers (source.nameStop index) fun stop => index ≤ stop ∧ stop ≤ target ∧
      ∀ place, index ≤ place → place < stop →
        ∀ d, source.HasAt place d → isNameChar d = true := by
  have inside := has.inside
  exact nameStopFor_answers has outside _ index ahead (by omega)

end Searches

section Slices

variable {start stop : Nat}

theorem mem_slice {c : Char} (member : c ∈ source.slice start stop) :
    ∃ place, start ≤ place ∧ place < stop ∧ source.HasAt place c := by
  rw [slice, Array.mem_toList_iff, Array.mem_iff_getElem?] at member
  obtain ⟨step, found⟩ := member
  rw [Array.getElem?_extract] at found
  split at found
  · exact ⟨start + step, by omega, by omega, found⟩
  · cases found

theorem HasAt.mem_slice {index : Nat} {c : Char} (has : source.HasAt index c)
    (after : start ≤ index) (before : index < stop) : c ∈ source.slice start stop := by
  obtain ⟨step, rfl⟩ := Nat.exists_eq_add_of_le after
  have inside : start + step < source.chars.size := has.inside
  rw [slice, Array.mem_toList_iff, Array.mem_iff_getElem?]
  refine ⟨step, ?_⟩
  rw [Array.getElem?_extract, if_pos (by omega)]
  exact has

theorem slice_ne_nil (room : start < stop) (inside : stop ≤ source.size) :
    source.slice start stop ≠ [] := by
  intro empty
  have length := congrArg List.length empty
  simp only [slice, Array.length_toList, Array.size_extract, List.length_nil] at length
  change min stop source.size - start = 0 at length
  omega

end Slices

end Stencil.Source
