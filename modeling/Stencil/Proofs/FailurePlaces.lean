import Stencil.Proofs.BalancedBodies
import Stencil.Proofs.EscapedText

/-!
What a report on a parse points at. Whatever level fails, the position lies in the range
that was parsed, also where the level is the body of a token deep inside of it, and what
stands there or directly before it is the fault that the status names. It is never blank,
so the position is not among the blanks that a line is shown without, and the column
leads to the same character in the line that is shown.
-/

namespace Stencil

namespace Source

variable {source : Source} {position : Nat} {c : Char}

section Lines

def lineAround (source : Source) (position : Nat) : List Char :=
  source.lineBefore position ++ (source.toList.drop position).takeWhile (· != '\n')

def shownBefore (source : Source) (position : Nat) : List Char :=
  (source.lineBefore position).dropWhile isIndent

theorem shownBefore_suffix (source : Source) (position : Nat) :
    source.shownBefore position <:+ source.toList.take position := by
  have within : source.lineBefore position <:+ source.toList.take position := by
    rw [lineBefore, ← List.reverse_prefix, List.reverse_reverse]
    exact List.takeWhile_prefix _
  exact (List.dropWhile_suffix isIndent).trans within

theorem shownBefore_same_line (member : c ∈ source.shownBefore position) : (c != '\n') = true := by
  have inLine := (List.dropWhile_suffix isIndent).mem member
  rw [lineBefore, List.mem_reverse] at inLine
  exact List.all_eq_true.mp List.all_takeWhile c inLine

theorem lineStart_add (inside : position ≤ source.size) :
    source.lineStart position + (source.shownBefore position).length = position := by
  have short := (source.shownBefore_suffix position).length_le
  rw [List.length_take, Nat.min_eq_left (source.size_eq_length ▸ inside)] at short
  change position - (source.shownBefore position).length + _ = _
  omega

theorem drop_lineStart (inside : position ≤ source.size) :
    source.toList.drop (source.lineStart position) =
      source.shownBefore position ++ source.toList.drop position := by
  obtain ⟨front, parts⟩ := source.shownBefore_suffix position
  have length := congrArg List.length parts
  rw [List.length_append, List.length_take, Nat.min_eq_left (source.size_eq_length ▸ inside)]
    at length
  have starts : source.lineStart position = front.length := by
    have sum := lineStart_add inside
    omega
  have whole : source.toList =
      front ++ (source.shownBefore position ++ source.toList.drop position) := by
    rw [← List.append_assoc, parts, List.take_append_drop]
  rw [starts]
  conv_lhs => rw [whole]
  exact List.drop_left

theorem place_line (inside : position ≤ source.size) :
    (source.place position).sourceLine.toList =
      source.shownBefore position ++ (source.toList.drop position).takeWhile (· != '\n') := by
  rw [place, String.toList_ofList, drop_lineStart inside, List.takeWhile_append_of_pos]
  exact fun c => shownBefore_same_line

theorem place_column (has : source.HasAt position c) (sameLine : c ≠ '\n') :
    (source.place position).sourceLine.toList[(source.place position).column - 1]? = some c := by
  have inside := Nat.le_of_lt has.inside
  have sum := lineStart_add inside
  have column : (source.place position).column - 1 = (source.shownBefore position).length := by
    simp only [place, Nat.add_sub_cancel]
    omega
  have first : (source.toList.drop position).head? = some c := by
    rw [List.head?_drop]
    exact hasAt_iff.mp has
  rw [place_line inside, column, List.getElem?_append_right (Nat.le_refl _), Nat.sub_self,
    ← List.head?_eq_getElem?, List.head?_takeWhile, first]
  simp [sameLine]

def Shown (source : Source) (position : Nat) : Prop :=
  ∃ c, isBlank c = false ∧
    (source.HasAt position c ∨ ∃ before, position = before + 1 ∧ source.HasAt before c)

theorem not_indent_of_bare (bare : isBlank c = false) : isIndent c = false ∧ c ≠ '\n' := by
  constructor
  · refine Bool.eq_false_iff.mpr fun indents => ?_
    simp only [isIndent, Bool.or_eq_true, beq_iff_eq] at indents
    rcases indents with rfl | rfl <;> cases bare
  · rintro rfl
    cases bare

theorem shownBefore_ne_nil {before : Nat} (has : source.HasAt before c) (bare : isBlank c = false) :
    source.shownBefore (before + 1) ≠ [] := by
  obtain ⟨noIndent, sameLine⟩ := not_indent_of_bare bare
  have last : source.toList.take (before + 1) = source.toList.take before ++ [c] := by
    rw [List.take_add_one, hasAt_iff.mp has]
    rfl
  have member : c ∈ source.lineBefore (before + 1) := by
    rw [lineBefore, last, List.reverse_append, List.mem_reverse]
    simp [sameLine]
  intro none
  rw [shownBefore, List.dropWhile_eq_nil_iff] at none
  rw [none c member] at noIndent
  cases noIndent

/-- The line is shown without its leading spaces and tabs, and with nothing else left out. -/
theorem place_trimmed (inside : position ≤ source.size) (shown : source.Shown position) :
    (source.place position).sourceLine =
      String.ofList ((source.lineAround position).dropWhile isIndent) := by
  rw [← String.ofList_toList (s := (source.place position).sourceLine), place_line inside]
  congr 1
  rw [lineAround, List.dropWhile_append]
  change _ = if (source.shownBefore position).isEmpty = true then _ else
    source.shownBefore position ++ _
  obtain ⟨c, bare, has | ⟨before, rfl, has⟩⟩ := shown
  · split
    · rename_i none
      obtain ⟨noIndent, sameLine⟩ := not_indent_of_bare bare
      have first : (source.toList.drop position).head? = some c := by
        rw [List.head?_drop]
        exact hasAt_iff.mp has
      obtain ⟨rest, parts⟩ := List.head?_eq_some_iff.mp first
      rw [List.isEmpty_iff.mp none, List.nil_append, parts]
      simp [sameLine, noIndent]
    · rfl
  · rw [if_neg (by simpa using shownBefore_ne_nil has bare)]

end Lines

end Source

namespace Level

variable {source : Source} {span outer : Span} {failure : Failure}

/-- What is at fault in a source that cannot be read in the span. -/
inductive Faulty (source : Source) (span : Span) : Failure → Prop where
  | unopened (position : Nat) : span.start ≤ position → position + 2 ≤ span.stop →
      source.Marks .closing position → Faulty source span ⟨.tokenBeginMissing, position⟩
  | unclosed (start : Nat) : span.start ≤ start → start + 2 ≤ span.stop →
      source.Marks .opening start →
      (∀ place, source.Closes 0 (start + 2) place → span.stop < place + 2) →
      Faulty source span ⟨.tokenEndMissing, start + 2⟩
  | misspelt (start closing : Nat) (failure : Failure) : span.start ≤ start →
      source.Marks .opening start → source.Closes 0 (start + 2) closing → closing + 2 ≤ span.stop →
      start + 2 ≤ failure.position → failure.position ≤ closing →
      Token.Misspelt source (start + 2) closing failure → Faulty source span failure

theorem read_faulty (inside : span.stop ≤ source.size)
    (failed : Level.read source span = .error (.failure failure)) : Faulty source span failure := by
  obtain ⟨place, passes, ⟨room, opens, failed⟩ | failed⟩ := read_failure inside failed
  · have ahead := passes.ahead inside
    rcases Token.read_failure inside failed with
      ⟨rfl, unclosed⟩ | ⟨closing, closes, within, misspelt, after, before⟩
    · exact .unclosed place ahead room opens unclosed
    · exact .misspelt place closing failure ahead opens closes within after before misspelt
  · have ahead := passes.ahead inside
    obtain ⟨status, after, room, marks, _⟩ := runStopFor_failure inside _ _ failed
    cases failure
    cases status
    exact .unopened _ (Nat.le_trans ahead after) room marks

/-- Only a missing end depends on how far the level goes. -/
theorem Faulty.wider (faulty : Faulty source span failure) (starts : outer.start ≤ span.start)
    (stops : span.stop ≤ outer.stop) (noEnd : failure.status ≠ .tokenEndMissing) :
    Faulty source outer failure := by
  cases faulty with
  | unopened position after room marks =>
      exact .unopened position (Nat.le_trans starts after) (Nat.le_trans room stops) marks
  | unclosed => exact absurd rfl noEnd
  | misspelt start closing failure after opens closes room ahead behind misspelt =>
      exact .misspelt start closing failure (Nat.le_trans starts after) opens closes
        (Nat.le_trans room stops) ahead behind misspelt

theorem Faulty.bounds (faulty : Faulty source span failure) :
    span.start ≤ failure.position ∧ failure.position ≤ span.stop := by
  cases faulty with
  | unopened position after room => exact ⟨after, by simp only; omega⟩
  | unclosed start after room => exact ⟨by simp only; omega, room⟩
  | misspelt start closing failure after _ _ room ahead behind => omega

def faults : List Status := [.tokenBeginMissing, .tokenEndMissing, .nameMissing, .nameInvalid,
  .propertyEndMissing, .mapPairMissing, .mapKeyMissing, .mapValueMissing]

theorem Faulty.status (faulty : Faulty source span failure) : failure.status ∈ faults := by
  cases faulty with
  | unopened | unclosed => simp [faults]
  | misspelt _ _ _ _ _ _ _ _ _ misspelt =>
      cases misspelt with
      | nameMissing | nameInvalid | propertyEndMissing => simp [faults]
      | pair _ lacks => cases lacks <;> simp [faults]

theorem Faulty.shown (faulty : Faulty source span failure) : source.Shown failure.position := by
  cases faulty with
  | unopened position _ _ marks => exact ⟨'\x7d', rfl, Or.inl marks.1⟩
  | unclosed start _ _ marks => exact ⟨'\x7b', rfl, Or.inr ⟨start + 1, rfl, marks.2.1⟩⟩
  | misspelt _ _ _ _ _ _ _ _ _ misspelt =>
      cases misspelt with
      | nameMissing position c _ has isSign =>
          refine ⟨c, ?_, Or.inl has⟩
          rcases isSign with rfl | rfl | rfl <;> rfl
      | nameInvalid position c _ has _ _ bare => exact ⟨c, bare, Or.inl has⟩
      | propertyEndMissing position opens => exact ⟨'(', rfl, Or.inl opens⟩
      | pair _ lacks =>
          cases lacks with
          | pair before delimited =>
              rcases delimited with has | has
              · exact ⟨'(', rfl, Or.inr ⟨before, rfl, has⟩⟩
              · exact ⟨',', rfl, Or.inr ⟨before, rfl, has⟩⟩
          | key position has | value position has => exact ⟨'=', rfl, Or.inl has⟩

theorem Within.bounds (within : Within source outer span) (inside : outer.stop ≤ source.size) :
    outer.start ≤ span.start ∧ span.stop ≤ outer.stop := by
  induction within with
  | outer => exact ⟨Nat.le_refl _, Nat.le_refl _⟩
  | body span body index token within accepts isBody ih =>
      have spanInside := within.inside inside
      have ahead := accepts.passes.ahead spanInside
      have fits := (Token.read_settles accepts.room spanInside).of_ok accepts.read
      obtain ⟨_, _, _, _, _, _, ⟨first, last, early, middle, late, _⟩, _⟩ :=
        Token.read_body spanInside accepts.read isBody
      have stops := (fits.body body isBody).1
      omega

end Level

namespace Store

variable {checks : Bool} {source : Source} {store : Store} {outer : Span} {failure : Failure}

/-- Whichever level fails, the fault is one of the outermost span. -/
theorem parseSpan_faulty (inside : outer.stop ≤ source.size)
    (failed : parseSpan checks source store outer = .error (.failure failure)) :
    Level.Faulty source outer failure := by
  rcases parseSpan_failure inside failed with failed | ⟨body, more, inner, failed⟩
  · exact Level.read_faulty inside failed
  · have noEnd := (inner_balanced inside inner failed).1
    obtain ⟨span, index, token, within, accepts, isBody⟩ := inner
    have isWithin := Level.Within.body span body index token within accepts isBody
    have bounds := isWithin.bounds inside
    have faulty := Level.read_faulty (isWithin.inside inside) (readLevel_failure failed)
    exact faulty.wider bounds.1 bounds.2 noEnd

/-- The report on a range that cannot be parsed points at the fault that its status names.
Its position lies in the range or directly behind it, with the number of the line, the
line without its indent, and the column at which the line shows the character there. -/
theorem parse_report (checks : Bool) (store : Store) (text : String) (first last : Option Int)
    (span : Span) (begins : first.getD 0 = span.start)
    (ends : last.getD ((Source.ofString text).size - 1) + 1 = span.stop)
    (ordered : span.start ≤ span.stop) (inside : span.stop ≤ (Source.ofString text).size)
    {parsed : Parsed} {report : Report} (ran : store.parse checks text first last = .ok parsed)
    (fails : parsed.result = .error report) :
    ∃ (failure : Failure) (place : Place),
      report = ⟨failure.status, failure.position, some place⟩ ∧
      Level.Faulty (Source.ofString text) span failure ∧
      failure.status ∈ Level.faults ∧
      span.start ≤ failure.position ∧ failure.position ≤ span.stop ∧
      place.line = 1 + (text.toList.take failure.position).count '\n' ∧
      place.sourceLine = String.ofList
        (((Source.ofString text).lineAround failure.position).dropWhile isIndent) ∧
      ∀ c, text.toList[failure.position]? = some c → c ≠ '\n' →
        place.sourceLine.toList[place.column - 1]? = some c := by
  rw [parse_eq checks store text first last span begins ends ordered inside] at ran
  rcases parseSpan_spec checks store inside with ⟨_, _, _, _, spanRan, _⟩ | ⟨failure, _, spanRan⟩
  · rw [spanRan] at ran
    obtain rfl := Except.ok.inj ran
    cases fails
  · rw [spanRan] at ran
    obtain rfl := Except.ok.inj ran
    obtain rfl := Except.error.inj fails
    have faulty := parseSpan_faulty inside spanRan
    have bounds := faulty.bounds
    have within : failure.position ≤ (Source.ofString text).size := Nat.le_trans bounds.2 inside
    refine ⟨failure, (Source.ofString text).place failure.position, ?_, faulty, faulty.status,
      bounds.1, bounds.2, ?_, Source.place_trimmed within faulty.shown, fun c has sameLine => ?_⟩
    · simp only [Report.locate, Nat.min_eq_left within]
    · exact Nat.add_comm _ 1
    · exact Source.place_column (Source.hasAt_iff.mpr has) sameLine

/-- A pair without an equal sign, in a token within another one. -/
theorem parse_report_nested :
    let text := "a\n \t\x7b\x7bb \x7b\x7bc(k)\x7d\x7d\x7d\x7d"
    ∃ parsed, Store.parse true {} text none none = .ok parsed ∧
      parsed.result = .error ⟨.mapPairMissing, 12,
        some ⟨2, 9, "\x7b\x7bb \x7b\x7bc(k)\x7d\x7d\x7d\x7d"⟩⟩ ∧
      Level.Faulty (Source.ofString text) ⟨0, 18⟩ ⟨.mapPairMissing, 12⟩ := by
  intro text
  have fails : ∃ parsed, Store.parse true {} "a\n \t\x7b\x7bb \x7b\x7bc(k)\x7d\x7d\x7d\x7d"
      none none = .ok parsed ∧ parsed.result = .error ⟨.mapPairMissing, 12,
        some ⟨2, 9, "\x7b\x7bb \x7b\x7bc(k)\x7d\x7d\x7d\x7d"⟩⟩ := ⟨_, rfl, rfl⟩
  obtain ⟨parsed, ran, isReport⟩ := fails
  obtain ⟨failure, place, same, faulty, _⟩ := parse_report true {} text none none ⟨0, 18⟩
    (by decide) (by decide) (by decide) (by decide) ran isReport
  refine ⟨parsed, ran, isReport, ?_⟩
  obtain ⟨status, position⟩ := failure
  obtain ⟨rfl, at_, _⟩ := Report.mk.inj same
  obtain rfl := Int.ofNat.inj at_
  exact faulty

end Store

end Stencil
