import Stencil.Proofs.BodyWorklist
import Stencil.Proofs.EscapedText
import Stencil.Proofs.StretchedReading

/-!
Texts that are parsed alike. A range of a text is parsed as the text that it is,
whatever stands around it, if no backslash stands directly before it; the places of
failures count from its start. A text is parsed as the text with its runs of blanks
collapsed: every collapsed character stands for a cell of the text, which is a run
of blanks or the character itself.
-/

namespace Stencil

namespace Store

def Parses (checks : Bool) (store : Store) (text : String) (first last : Option Int)
    (forest : Forest) : Prop :=
  ∃ grown, store.parse checks text first last = .ok { store := grown, result := .ok store.size } ∧
    grown.forest? (some store.size) = some forest

def Refuses (checks : Bool) (store : Store) (text : String) (first last : Option Int)
    (report : Report) : Prop :=
  ∃ notices, store.parse checks text first last = .ok { store, result := .error report, notices }

section Alike

variable (checks : Bool) (store other : Store) (text otherText : String)
variable (first last otherFirst otherLast : Option Int) (span otherSpan : Span)
variable (begins : first.getD 0 = span.start)
variable (ends : last.getD ((Source.ofString text).size - 1) + 1 = span.stop)
variable (ordered : span.start ≤ span.stop) (inside : span.stop ≤ (Source.ofString text).size)
variable (otherBegins : otherFirst.getD 0 = otherSpan.start)
variable (otherEnds :
  otherLast.getD ((Source.ofString otherText).size - 1) + 1 = otherSpan.stop)
variable (otherOrdered : otherSpan.start ≤ otherSpan.stop)
variable (otherInside : otherSpan.stop ≤ (Source.ofString otherText).size)
include begins ends ordered inside otherBegins otherEnds otherOrdered otherInside

/-- Ranges with outlines that come to the same are parsed alike. -/
theorem parse_alike {place : Nat → Nat}
    (alike : Alike place Eq (Outline.read (Source.ofString text) span)
      (Outline.read (Source.ofString otherText) otherSpan)) :
    (∃ forest, Parses checks store text first last forest ∧
      Parses checks other otherText otherFirst otherLast forest) ∨
    ∃ report otherReport position, Refuses checks store text first last report ∧
      Refuses checks other otherText otherFirst otherLast otherReport ∧
      report.status = otherReport.status ∧ otherReport.position = (position : Nat) ∧
      report.position = place position := by
  have parsed := parse_outline checks store text first last span begins ends ordered inside
  have otherParsed := parse_outline checks other otherText otherFirst otherLast otherSpan
    otherBegins otherEnds otherOrdered otherInside
  revert parsed otherParsed
  generalize Outline.read (Source.ofString text) span = outline at alike ⊢
  generalize Outline.read (Source.ofString otherText) otherSpan = otherOutline at alike ⊢
  cases alike with
  | ok forest _ same =>
      obtain rfl := same
      rintro ⟨grown, _, ran, _, reads⟩ ⟨otherGrown, _, otherRan, _, otherReads⟩
      exact Or.inl ⟨forest, ⟨grown, ran, reads⟩, otherGrown, otherRan, otherReads⟩
  | failure status position =>
      rintro ⟨report, ran, isStatus, isPosition⟩
        ⟨otherReport, otherRan, otherStatus, otherPosition⟩
      exact Or.inr ⟨report, otherReport, position, ⟨_, ran⟩, ⟨_, otherRan⟩,
        isStatus.trans otherStatus.symm, otherPosition, isPosition⟩
  | fault fault =>
      intro never
      exact never.elim

end Alike

end Store

namespace Source

theorem toList_split {source : Source} {start stop : Nat} (ordered : start ≤ stop) :
    source.toList = source.toList.take start ++ source.slice start stop ++
      source.toList.drop stop := by
  have behind : stop = start + (stop - start) := by omega
  calc source.toList
      = source.toList.take start ++ source.toList.drop start :=
        (List.take_append_drop start source.toList).symm
    _ = source.toList.take start ++ ((source.toList.drop start).take (stop - start) ++
          (source.toList.drop start).drop (stop - start)) := by
        rw [List.take_append_drop (stop - start) (source.toList.drop start)]
    _ = _ := by rw [slice_eq, List.drop_drop, ← behind, List.append_assoc]

theorem size_slice {source : Source} {start stop : Nat} (inside : stop ≤ source.size) :
    (ofString (String.ofList (source.slice start stop))).size = stop - start := by
  rw [size_eq_length, toList_ofString, String.toList_ofList, slice_eq, List.length_take,
    List.length_drop, ← size_eq_length]
  omega

theorem stretches_slice {source : Source} {start stop : Nat} (ordered : start ≤ stop)
    (inside : stop ≤ source.size) (bare : ¬ source.Hidden start) :
    source.Stretches (ofString (String.ofList (source.slice start stop))) (start + ·) := by
  have holds := @toList_split source start stop ordered
  have before : (source.toList.take start).length = start := by
    rw [List.length_take, ← size_eq_length]
    omega
  have within : ∀ {index c},
      (ofString (String.ofList (source.slice start stop))).HasAt index c →
        source.HasAt (start + index) c := by
    intro index c has
    have isThere : (source.slice start stop)[index]? = some c := by simpa [hasAt_iff] using has
    obtain ⟨room, _⟩ := List.getElem?_eq_some_iff.mp isThere
    have found := (hasAt_middle holds room).mpr isThere
    rwa [before] at found
  constructor
  · rw [size_slice inside]
    omega
  · exact bare
  · exact fun index c has _ => ⟨within has, rfl⟩
  · refine fun index c has blank => ⟨Nat.lt_succ_self _, Nat.le_succ _, fun other after less => ?_⟩
    obtain rfl : other = start + index := by omega
    exact ⟨c, within has, blank⟩

end Source

namespace Store

/-- A range that does not begin behind a backslash is parsed as the text that it is:
either both have one forest, or both are refused for one reason, at positions that
differ by where the range begins. Nothing around the range plays a role. -/
theorem parse_excerpt (checks : Bool) (store other : Store) (text : String)
    (first last : Option Int) (span : Span) (begins : first.getD 0 = span.start)
    (ends : last.getD ((Source.ofString text).size - 1) + 1 = span.stop)
    (ordered : span.start ≤ span.stop) (inside : span.stop ≤ (Source.ofString text).size)
    (bare : ¬ (Source.ofString text).Hidden span.start) :
    let excerpt := String.ofList ((Source.ofString text).slice span.start span.stop)
    (∃ forest, Parses checks store text first last forest ∧
      Parses checks other excerpt none none forest) ∨
    ∃ report otherReport, Refuses checks store text first last report ∧
      Refuses checks other excerpt none none otherReport ∧
      report.status = otherReport.status ∧
      report.position = otherReport.position + span.start := by
  intro excerpt
  have size : (Source.ofString excerpt).size = span.stop - span.start := Source.size_slice inside
  have stretches := Source.stretches_slice ordered inside bare
  have alike := Outline.read_alike stretches ⟨0, (Source.ofString excerpt).size⟩ (Nat.zero_le _)
    (Nat.le_refl _)
  have whole : Span.moved (span.start + ·) ⟨0, (Source.ofString excerpt).size⟩ = span := by
    simp [Span.moved, size, Nat.add_sub_cancel' ordered]
  rw [whole] at alike
  refine (parse_alike checks store other text excerpt first last none none span _ begins ends
    ordered inside (by simp) (by simp) (Nat.zero_le _) (Nat.le_refl _) alike).imp_right ?_
  rintro ⟨report, otherReport, position, refuses, otherRefuses, sameStatus, isOther, isPosition⟩
  refine ⟨report, otherReport, refuses, otherRefuses, sameStatus, ?_⟩
  rw [isOther, isPosition]
  omega

/-- A token with a body in a range that has bare markers on both sides. -/
theorem parse_excerpt_token :
    ∃ forest, Parses true {} "\x7d\x7da \x7b\x7bb c\x7d\x7d\x7b\x7b" (some 2) (some 10) forest ∧
      Parses true {} "a \x7b\x7bb c\x7d\x7d" none none forest := by
  have succeeds : ∃ parsed, Store.parse true {} "\x7d\x7da \x7b\x7bb c\x7d\x7d\x7b\x7b"
      (some 2) (some 10) = .ok parsed ∧ parsed.result = .ok 0 := ⟨_, rfl, rfl⟩
  obtain ⟨parsed, ran, isHead⟩ := succeeds
  rcases parse_excerpt true {} {} "\x7d\x7da \x7b\x7bb c\x7d\x7d\x7b\x7b" (some 2) (some 10)
    ⟨2, 11⟩ rfl rfl (by decide) (by decide) (Source.not_hidden rfl) with
    both | ⟨report, _, ⟨notices, refused⟩, _⟩
  · exact both
  · obtain rfl := Except.ok.inj (ran.symm.trans refused)
    cases isHead

end Store

namespace Text

/-- Where the cell of the text begins that stands for a character of the collapsed
text: a run of blanks, or a character that is not blank. -/
def cell : List Char → Nat → Nat
  | [], _ => 0
  | _ :: _, 0 => 0
  | c :: rest, index + 1 =>
      if isBlank c && rest.head?.any isBlank then cell rest (index + 1) + 1
      else cell rest index + 1

@[simp] theorem cell_zero (text : List Char) : cell text 0 = 0 := by
  cases text <;> rfl

section Cell

variable {c : Char} {rest : List Char}

theorem cell_run (blank : isBlank c = true) (more : rest.head?.any isBlank = true) (index : Nat) :
    cell (c :: rest) (index + 1) = cell rest (index + 1) + 1 := by
  simp [cell, blank, more]

theorem cell_next (last : isBlank c = true → rest.head?.any isBlank = false) (index : Nat) :
    cell (c :: rest) (index + 1) = cell rest index + 1 := by
  cases blank : isBlank c with
  | false => simp [cell, blank]
  | true => simp [cell, last blank]

theorem collapseChars_more (blank : isBlank c = true) (more : rest.head?.any isBlank = true) :
    collapseChars (c :: rest) = collapseChars rest := by
  rw [collapseChars_blank blank, if_pos more]

theorem collapseChars_next (last : isBlank c = true → rest.head?.any isBlank = false) :
    ∃ d, collapseChars (c :: rest) = d :: collapseChars rest ∧ isBlank d = isBlank c ∧
      (isBlank c = false → d = c) := by
  cases blank : isBlank c with
  | false => exact ⟨c, collapseChars_bare blank rest, blank, fun _ => rfl⟩
  | true => exact ⟨' ', by rw [collapseChars_blank blank, last blank]; rfl, rfl, nofun⟩

end Cell

/-- A blank with another one behind it adds nothing to the collapsed text, and any
other character adds one. -/
@[elab_as_elim]
theorem cell_induction {motive : List Char → Prop} (nil : motive [])
    (more : ∀ c rest, isBlank c = true → rest.head?.any isBlank = true → motive rest →
      motive (c :: rest))
    (next : ∀ c rest, (isBlank c = true → rest.head?.any isBlank = false) → motive rest →
      motive (c :: rest)) (text : List Char) : motive text := by
  induction text with
  | nil => exact nil
  | cons c rest ih =>
      by_cases run : isBlank c = true ∧ rest.head?.any isBlank = true
      · exact more c rest run.1 run.2 ih
      · exact next c rest (fun blank => Bool.eq_false_iff.mpr fun more => run ⟨blank, more⟩) ih

theorem collapseChars_head (text : List Char) :
    (collapseChars text).head?.any isBlank = text.head?.any isBlank := by
  induction text using cell_induction with
  | nil => rfl
  | more c rest blank more ih => rw [collapseChars_more blank more, ih, more]; simp [blank]
  | next c rest last =>
      obtain ⟨d, same, sameBlank, _⟩ := collapseChars_next last
      simp [same, sameBlank]

theorem cell_length (text : List Char) : cell text (collapseChars text).length = text.length := by
  induction text using cell_induction with
  | nil => rfl
  | more c rest blank more ih =>
      obtain ⟨length, isLength⟩ : ∃ length, (collapseChars rest).length = length + 1 := by
        refine Nat.exists_eq_succ_of_ne_zero fun empty => ?_
        obtain rfl := collapseChars_eq_nil.mp (List.length_eq_zero_iff.mp empty)
        cases more
      rw [collapseChars_more blank more, isLength, cell_run blank more, ← isLength, ih,
        List.length_cons]
  | next c rest last ih =>
      obtain ⟨d, same, _⟩ := collapseChars_next last
      rw [same, List.length_cons, cell_next last, ih, List.length_cons]

theorem cell_bare {text : List Char} {index : Nat} {c : Char}
    (isThere : (collapseChars text)[index]? = some c) (bare : isBlank c = false) :
    text[cell text index]? = some c ∧ cell text (index + 1) = cell text index + 1 := by
  induction text using cell_induction generalizing index with
  | nil => cases isThere
  | more first rest blank more ih =>
      rw [collapseChars_more blank more] at isThere
      cases index with
      | zero =>
          have head := collapseChars_head rest
          rw [List.head?_eq_getElem?, isThere, more, Option.any_some, bare] at head
          cases head
      | succ index =>
          rw [cell_run blank more, cell_run blank more, (ih isThere).2]
          exact ⟨(ih isThere).1, rfl⟩
  | next first rest last ih =>
      obtain ⟨d, same, sameBlank, isSelf⟩ := collapseChars_next last
      rw [same] at isThere
      cases index with
      | zero =>
          obtain rfl := Option.some.inj isThere
          obtain rfl := isSelf (sameBlank ▸ bare)
          rw [cell_next last]
          simp
      | succ index =>
          rw [cell_next last, cell_next last, (ih isThere).2]
          exact ⟨(ih isThere).1, rfl⟩

theorem cell_blank {text : List Char} {index : Nat} {c : Char}
    (isThere : (collapseChars text)[index]? = some c) (blank : isBlank c = true) :
    cell text index < cell text (index + 1) ∧
      ∀ place, cell text index ≤ place → place < cell text (index + 1) →
        ∃ d, text[place]? = some d ∧ isBlank d = true := by
  induction text using cell_induction generalizing index with
  | nil => cases isThere
  | more first rest firstBlank more ih =>
      rw [collapseChars_more firstBlank more] at isThere
      obtain ⟨ahead, blanks⟩ := ih isThere
      -- The run of the rest begins one place earlier here.
      cases index with
      | zero =>
          rw [cell_run firstBlank more, cell_zero]
          refine ⟨Nat.succ_pos _, fun place _ before => ?_⟩
          cases place with
          | zero => exact ⟨first, rfl, firstBlank⟩
          | succ place =>
              exact blanks place (by simp) (by omega)
      | succ index =>
          rw [cell_run firstBlank more, cell_run firstBlank more]
          refine ⟨by omega, fun place after before => ?_⟩
          obtain ⟨place, rfl⟩ : ∃ earlier, place = earlier + 1 := ⟨place - 1, by omega⟩
          exact blanks place (by omega) (by omega)
  | next first rest last ih =>
      obtain ⟨d, same, sameBlank, _⟩ := collapseChars_next last
      rw [same] at isThere
      cases index with
      | zero =>
          obtain rfl := Option.some.inj isThere
          rw [cell_next last, cell_zero, cell_zero]
          refine ⟨Nat.succ_pos _, fun place _ before => ?_⟩
          obtain rfl : place = 0 := by omega
          exact ⟨first, rfl, sameBlank ▸ blank⟩
      | succ index =>
          obtain ⟨ahead, blanks⟩ := ih isThere
          rw [cell_next last, cell_next last]
          refine ⟨by omega, fun place after before => ?_⟩
          obtain ⟨place, rfl⟩ : ∃ earlier, place = earlier + 1 := ⟨place - 1, by omega⟩
          exact blanks place (by omega) (by omega)

end Text

/-- A collapsed text stands in the text, with its spaces stretched to runs of blanks. -/
theorem Source.stretches_collapse (text : String) :
    (ofString text).Stretches (ofString (Text.collapse text)) (Text.cell text.toList) := by
  have collapsed : (ofString (Text.collapse text)).toList = Text.collapseChars text.toList := by
    rw [toList_ofString, Text.collapse, String.toList_ofList]
  constructor
  · rw [size_eq_length, collapsed, Text.cell_length, size_eq_length, toList_ofString]
  · rw [Text.cell_zero]
    rintro ⟨before, same, _⟩
    cases same
  · intro index c has bare
    rw [hasAt_iff, collapsed] at has
    rw [hasAt_iff, toList_ofString]
    exact Text.cell_bare has bare
  · intro index c has blank
    rw [hasAt_iff, collapsed] at has
    obtain ⟨ahead, blanks⟩ := Text.cell_blank has blank
    refine ⟨ahead, Nat.le_of_lt ahead, fun place after before => ?_⟩
    simpa only [hasAt_iff, toList_ofString] using blanks place after before

/-- Parsing depends on blanks only up to their runs: a text and the text with its
runs collapsed have one forest, or both are refused with one status. -/
theorem Store.parse_collapse (checks : Bool) (store other : Store) (text : String) :
    (∃ forest, Parses checks store text none none forest ∧
      Parses checks other (Text.collapse text) none none forest) ∨
    ∃ report otherReport, Refuses checks store text none none report ∧
      Refuses checks other (Text.collapse text) none none otherReport ∧
      report.status = otherReport.status := by
  have stretches := Source.stretches_collapse text
  have alike := Outline.read_alike stretches ⟨0, (Source.ofString (Text.collapse text)).size⟩
    (Nat.zero_le _) (Nat.le_refl _)
  have whole : Span.moved (Text.cell text.toList) ⟨0, (Source.ofString (Text.collapse text)).size⟩ =
      ⟨0, (Source.ofString text).size⟩ := by
    have length := Text.cell_length text.toList
    simp only [Span.moved, Text.cell_zero, Source.size_eq_length, Source.toList_ofString,
      Text.collapse, String.toList_ofList, length]
  rw [whole] at alike
  refine (parse_alike checks store other text (Text.collapse text) none none none none _ _ (by simp)
    (by simp) (Nat.zero_le _) (Nat.le_refl _) (by simp) (by simp) (Nat.zero_le _) (Nat.le_refl _)
    alike).imp_right ?_
  rintro ⟨report, otherReport, _, refuses, otherRefuses, sameStatus, _⟩
  exact ⟨report, otherReport, refuses, otherRefuses, sameStatus⟩

end Stencil
