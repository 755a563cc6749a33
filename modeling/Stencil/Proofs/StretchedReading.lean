import Stencil.Proofs.Escaping
import Stencil.Proofs.OutlineReading
import Stencil.Proofs.StretchedSource

/-!
Reading a span of a part and reading what stands for it in the source. The two
come to the same: both succeed with the same names, properties and texts and with
bodies that stand for each other, or both fail with one status at places that
stand for each other. No scan that tests no bound leaves the span, since a bare
character of the span is always ahead of it.
-/

namespace Stencil

/-- Two attempts come to the same: they succeed with answers that agree, or they
fail for one reason, the first at the place of the position of the second. -/
inductive Alike {First Second : Type} (place : Nat → Nat) (agree : First → Second → Prop) :
    Except Stop First → Except Stop Second → Prop where
  | ok (first : First) (second : Second) : agree first second →
      Alike place agree (.ok first) (.ok second)
  | failure (status : Status) (position : Nat) :
      Alike place agree (.error (.failure ⟨status, place position⟩))
        (.error (.failure ⟨status, position⟩))
  | fault (fault : Fault) : Alike place agree (.error (.fault fault)) (.error (.fault fault))

section Alike

variable {First Second Third Fourth : Type} {place : Nat → Nat}
variable {agree : First → Second → Prop} {later : Third → Fourth → Prop}

theorem Alike.mono {attempt : Except Stop First} {other : Except Stop Second}
    {weaker : First → Second → Prop} (alike : Alike place agree attempt other)
    (implied : ∀ first second, agree first second → weaker first second) :
    Alike place weaker attempt other := by
  cases alike with
  | ok first second agrees => exact .ok first second (implied first second agrees)
  | failure status position => exact .failure status position
  | fault fault => exact .fault fault

theorem Alike.of_ok {attempt : Except Stop First} {second : Second}
    (alike : Alike place agree attempt (.ok second)) :
    ∃ first, attempt = .ok first ∧ agree first second := by
  cases alike with
  | ok first _ agrees => exact ⟨first, rfl, agrees⟩

theorem Alike.bind {attempt : Except Stop First} {other : Except Stop Second}
    {next : First → Except Stop Third} {otherNext : Second → Except Stop Fourth}
    (alike : Alike place agree attempt other)
    (onward : ∀ first second, agree first second → other = .ok second →
      Alike place later (next first) (otherNext second)) :
    Alike place later (attempt >>= next) (other >>= otherNext) := by
  cases alike with
  | ok first second agrees => exact onward first second agrees rfl
  | failure status position => exact .failure status position
  | fault fault => exact .fault fault

theorem Alike.scan {scan : Except Fault First} {other : Except Fault Second}
    {change : Second → First} (same : scan = change <$> other)
    {next : First → Except Stop Third} {otherNext : Second → Except Stop Fourth}
    (onward : ∀ found, other = .ok found →
      Alike place later (next (change found)) (otherNext found)) :
    Alike place later (Stop.ofScan scan >>= next) (Stop.ofScan other >>= otherNext) := by
  cases other with
  | ok found => exact same ▸ onward found rfl
  | error fault => exact same ▸ Alike.fault fault

end Alike

def Span.moved (place : Nat → Nat) (span : Span) : Span := ⟨place span.start, place span.stop⟩

namespace Text

variable {c : Char} (blank : isBlank c = true)
include blank

theorem collapseChars_blank (text : List Char) : collapseChars (c :: text) =
    if text.head?.any isBlank then collapseChars text else ' ' :: collapseChars text := by
  rw [collapseChars, if_pos blank]

/-- A run of blanks counts as its first one. -/
theorem collapseChars_run {run : List Char} (blanks : ∀ d ∈ run, isBlank d = true)
    (text : List Char) : collapseChars (c :: (run ++ text)) = collapseChars (c :: text) := by
  induction run generalizing c with
  | nil => rfl
  | cons d run ih =>
      have here := blanks d List.mem_cons_self
      rw [List.cons_append, collapseChars_blank blank, List.head?_cons, Option.any_some,
        if_pos here, ih here fun e member => blanks e (List.mem_cons_of_mem d member),
        collapseChars_blank here, collapseChars_blank blank]

end Text

namespace Source

section Found

variable {source : Source} {sought opener closer : Char} {found : Option Nat}

theorem hasAt_of_read {index : Nat} {c : Char} (ran : source.read index = .ok c) :
    source.HasAt index c := by
  cases same : source.chars[index]? with
  | none => rw [read, same] at ran; cases ran
  | some d =>
      rw [read, same] at ran
      cases ran
      exact same

theorem not_hidden {index : Nat} (ran : source.escaped index = .ok false) :
    ¬ source.Hidden index := by
  rintro ⟨before, rfl, slash⟩
  rw [escaped, read_eq slash] at ran
  cases ran

def Bare (source : Source) (sought : Char) (found : Option Nat) : Prop :=
  ∀ index, found = some index → source.HasAt index sought ∧ ¬ source.Hidden index

theorem bare_none : source.Bare sought none := fun _ none => nomatch none

theorem bare_here {index : Nat} (read : source.read index = .ok sought)
    (bare : source.escaped index = .ok false) : source.Bare sought (some index) := by
  rintro _ ⟨⟩
  exact ⟨hasAt_of_read read, not_hidden bare⟩

theorem findFor_bare (count index : Nat) (ran : source.findFor sought count index = .ok found) :
    source.Bare sought found := by
  induction count generalizing index with
  | zero =>
      cases ran
      exact bare_none
  | succ count ih =>
      obtain ⟨here, isHere, ran⟩ := bind_eq_ok.mp ran
      obtain ⟨hidden, isHidden, ran⟩ := bind_eq_ok.mp ran
      split at ran
      · rename_i hit
        cases ran
        exact bare_here (hit.1 ▸ isHere) (hit.2 ▸ isHidden)
      · exact ih (index + 1) ran

theorem findMatchingFor_bare (count depth index : Nat)
    (ran : source.findMatchingFor opener closer count depth index = .ok found) :
    source.Bare closer found := by
  induction count generalizing depth index with
  | zero =>
      cases ran
      exact bare_none
  | succ count ih =>
      obtain ⟨here, isHere, ran⟩ := bind_eq_ok.mp ran
      obtain ⟨hidden, isHidden, ran⟩ := bind_eq_ok.mp ran
      cases hidden with
      | true => exact ih depth (index + 1) ran
      | false =>
          simp only [Bool.false_eq_true, if_false] at ran
          split at ran
          · exact ih (depth + 1) (index + 1) ran
          · split at ran
            · rename_i hit
              subst hit
              cases depth with
              | zero =>
                  cases ran
                  exact bare_here isHere isHidden
              | succ outer => exact ih outer (index + 1) ran
            · exact ih depth (index + 1) ran

theorem findSeparatorFor_bare (count depth index : Nat)
    (ran : source.findSeparatorFor sought opener closer count depth index = .ok found) :
    source.Bare sought found := by
  induction count generalizing depth index with
  | zero =>
      cases ran
      exact bare_none
  | succ count ih =>
      obtain ⟨hidden, isHidden, ran⟩ := bind_eq_ok.mp ran
      cases hidden with
      | true => exact ih depth (index + 1) ran
      | false =>
          simp only [Bool.false_eq_true, if_false] at ran
          obtain ⟨here, isHere, ran⟩ := bind_eq_ok.mp ran
          split at ran
          · rename_i hit
            cases ran
            exact bare_here (hit.1 ▸ isHere) isHidden
          · split at ran
            · exact ih (depth + 1) (index + 1) ran
            · split at ran
              · exact ih (depth - 1) (index + 1) ran
              · exact ih depth (index + 1) ran

end Found

section Slices

variable {source part : Source} {place : Nat → Nat} {start middle stop : Nat}

variable (source) in
theorem slice_append (ordered : start ≤ middle) (further : middle ≤ stop) :
    source.slice start stop = source.slice start middle ++ source.slice middle stop := by
  rw [slice, slice, slice, ← Array.toList_append, Array.extract_append_extract,
    Nat.min_eq_left ordered, Nat.max_eq_right further]

theorem slice_one {index : Nat} {c : Char} (has : source.HasAt index c) :
    source.slice index (index + 1) = [c] := by
  obtain ⟨inside, isThere⟩ := Array.getElem?_eq_some_iff.mp has
  rw [slice, Array.extract_succ_right (Nat.lt_succ_self index) inside, isThere]
  simp

theorem slice_cons {index : Nat} {c : Char} (has : source.HasAt index c) (ahead : index < stop) :
    source.slice index stop = c :: source.slice (index + 1) stop := by
  rw [slice_append source (Nat.le_succ index) ahead, slice_one has]
  rfl

theorem slice_empty (source : Source) (index : Nat) : source.slice index index = [] := by
  simp [slice]

variable (stretches : source.Stretches part place)
include stretches

theorem Stretches.slice_bare (ordered : start ≤ stop) (inside : stop ≤ part.size)
    (bare : ∀ c ∈ part.slice start stop, isBlank c = false) :
    source.slice (place start) (place stop) = part.slice start stop := by
  obtain ⟨distance, rfl⟩ := Nat.exists_eq_add_of_le ordered
  induction distance generalizing start with
  | zero => rw [Nat.add_zero, slice_empty, slice_empty]
  | succ distance ih =>
      obtain ⟨c, has⟩ := exists_hasAt (show start < part.size by omega)
      rw [slice_cons has (by omega)] at bare ⊢
      obtain ⟨hasThere, next⟩ := stretches.bare start c has (bare c List.mem_cons_self)
      have ahead := stretches.strict (show start < start + (distance + 1) by omega) inside
      rw [slice_cons hasThere ahead, ← next]
      have same : start + (distance + 1) = start + 1 + distance := by omega
      rw [same] at inside bare ⊢
      rw [ih (by omega) inside fun d member => bare d (List.mem_cons_of_mem c member)]

/-- A span and what stands for it are the same text up to runs of blanks. -/
theorem Stretches.slice_collapsed (ordered : start ≤ stop) (inside : stop ≤ part.size) :
    Text.collapseChars (source.slice (place start) (place stop)) =
        Text.collapseChars (part.slice start stop) ∧
      (source.slice (place start) (place stop)).head?.any isBlank =
        (part.slice start stop).head?.any isBlank := by
  obtain ⟨distance, rfl⟩ := Nat.exists_eq_add_of_le ordered
  induction distance generalizing start with
  | zero => simp [slice_empty]
  | succ distance ih =>
      have same : start + (distance + 1) = start + 1 + distance := by omega
      rw [same] at inside ⊢
      obtain ⟨rest, edge⟩ := ih (by omega) inside
      have further := stretches.mono (show start + 1 ≤ start + 1 + distance by omega) inside
      obtain ⟨c, has, ⟨bare, hasThere, next⟩ | ⟨blank, run⟩⟩ :=
        stretches.cell (show start < part.size by omega)
      · rw [slice_cons has (by omega), slice_cons hasThere (by omega), ← next,
          Text.collapseChars_bare bare, Text.collapseChars_bare bare, rest]
        simp
      · have all : ∀ d ∈ source.slice (place start) (place (start + 1)), isBlank d = true := by
          intro d member
          obtain ⟨index, after, before, isThere⟩ := mem_slice member
          obtain ⟨e, isAlso, isBlank⟩ := run.2 index after before
          exact isThere.unique isAlso ▸ isBlank
        have filled := slice_ne_nil (stretches.step (show start < part.size by omega))
          (stretches.place_le (show start + 1 ≤ part.size by omega))
        rw [slice_append source run.1 further, slice_cons has (by omega)]
        obtain ⟨d, run, isRun⟩ := List.exists_cons_of_ne_nil filled
        rw [isRun] at all ⊢
        have first := all d List.mem_cons_self
        rw [List.cons_append, Text.collapseChars_run first fun e member =>
          all e (List.mem_cons_of_mem d member), Text.collapseChars_blank first,
          Text.collapseChars_blank blank, rest, edge]
        simp [first, blank]

end Slices

section Names

variable {source part : Source} {place : Nat → Nat} (stretches : source.Stretches part place)
include stretches

theorem Stretches.nameStopFor {target : Nat} {c : Char} (has : part.HasAt target c)
    (outside : isNameChar c = false) (count fewer index : Nat) (ahead : index ≤ target)
    (enough : place target < place index + count) (fewerEnough : target < index + fewer) :
    source.nameStopFor count (place index) = place <$> part.nameStopFor fewer index := by
  have inside := has.inside
  induction fewer generalizing count index with
  | zero => omega
  | succ fewer ih =>
      have behind := stretches.mono ahead (Nat.le_of_lt inside)
      obtain ⟨count, rfl⟩ : ∃ left, count = left + 1 := ⟨count - 1, by omega⟩
      obtain ⟨d, hasD, ⟨bare, hasThere, next⟩ | ⟨blank, run⟩⟩ :=
        stretches.cell (show index < part.size by omega)
      · simp only [Source.nameStopFor, read_eq hasThere, read_eq hasD, ok_bind]
        split
        · rename_i named
          have different : index ≠ target := by
            rintro rfl
            rw [hasD.unique has, outside] at named
            cases named
          rw [← next]
          exact ih count (index + 1) (by omega) (by omega) (by omega)
        · rfl
      · -- Neither a blank nor what stands for it is part of a name.
        obtain ⟨e, hasE, alsoBlank⟩ :=
          run.2 _ (Nat.le_refl _) (stretches.step (show index < part.size by omega))
        have noName : ∀ {c}, isBlank c = true → ¬ isNameChar c = true := by
          intro c isBlank name
          rw [Token.not_blank_of_name name] at isBlank
          cases isBlank
        simp [Source.nameStopFor, read_eq hasE, read_eq hasD, noName blank, noName alsoBlank]

theorem Stretches.nameStop {index target : Nat} {c : Char} (has : part.HasAt target c)
    (outside : isNameChar c = false) (ahead : index ≤ target) :
    source.nameStop (place index) = place <$> part.nameStop index := by
  have inside := has.inside
  have within := stretches.strict inside (Nat.le_refl _)
  have whole := stretches.inside
  have behind := stretches.mono ahead (Nat.le_of_lt inside)
  exact stretches.nameStopFor has outside _ _ index ahead (by omega) (by omega)

end Names

def Holds (source : Source) (properties : Option Span) : Prop :=
  ∀ span, properties = some span → ∃ last, span.stop = last + 1 ∧ span.start < last ∧
    source.HasAt span.start '(' ∧ source.HasAt last ')' ∧ ¬ source.Hidden last

theorem holds_none {source : Source} : source.Holds none := by
  rintro span ⟨⟩

end Source

namespace PropertyMap

open Source

section Between

variable {source : Source} {first last : Nat}

theorem read_between (ordered : first < last) (opens : source.HasAt first '(')
    (closes : source.HasAt last ')') (bare : ¬ source.Hidden last) :
    PropertyMap.read source first (last + 1) =
      if source.skipBlanks (first + 1) = last then pure {}
      else readPairs source last (last - first) first {} := by
  have inside := closes.inside
  have begins := skipBlanks_eq (.empty first) opens rfl
  have ends := retreatBlanks_eq (Nat.le_refl last) (.empty _) closes rfl
  obtain ⟨hidden, ran, isHidden⟩ := escaped_answers (Nat.le_of_lt inside)
  obtain rfl : hidden = false := Bool.eq_false_iff.mpr fun isTrue => bare (isHidden.mp isTrue)
  rw [PropertyMap.read, if_neg (by omega), if_neg (Nat.succ_ne_zero last), begins,
    Nat.add_sub_cancel, ends, ofScan_ok, ok_bind, if_neg (by omega), read_eq opens, ofScan_ok,
    ok_bind, if_neg (not_not_intro rfl), if_neg (by omega), read_eq closes, ofScan_ok, ok_bind, ran,
    ofScan_ok, ok_bind, if_neg (by simp)]

end Between

section Alike

variable {source part : Source} {place : Nat → Nat} (stretches : source.Stretches part place)
include stretches

theorem collapsed_alike {first last : Nat} (ordered : first ≤ last) (inside : last < part.size)
    (next : place (last + 1) = place last + 1) :
    collapsed source (place first) (place last) = collapsed part first last := by
  rw [collapsed, collapsed, ← next]
  exact (stretches.slice_collapsed (by omega) inside).1

theorem readPair_alike {before after : Nat} {c d : Char} (ordered : before < after)
    (begins : part.HasAt before c) (bareBegin : isBlank c = false) (ends : part.HasAt after d)
    (bareEnd : isBlank d = false) :
    Alike place Eq (readPair source (place before) (place after)) (readPair part before after) := by
  have inside := ends.inside
  have room : before + 1 ≤ after := ordered
  rw [readPair, readPair, ← (stretches.bare before c begins bareBegin).2]
  refine Alike.scan (stretches.find room (Nat.le_of_lt inside) rfl) fun found ran => ?_
  cases found with
  | none => exact .failure _ _
  | some sign =>
      obtain ⟨isSign, _⟩ := findFor_bare _ _ ran sign rfl
      obtain ⟨afterBegin, beforeEnd⟩ : before + 1 ≤ sign ∧ sign + 1 ≤ after :=
        (find_answers '=' (Nat.le_of_lt inside)).of_ok ran sign rfl
      have nextSign := (stretches.bare sign _ isSign rfl).2
      obtain ⟨keyLast, keyRan, keyThere, keyAfter, keyBefore, keyNext⟩ :=
        stretches.retreatBlanks begins bareBegin afterBegin (by omega)
      obtain ⟨valueLast, valueRan, valueThere, valueAfter, valueBefore, valueNext⟩ :=
        stretches.retreatBlanks isSign rfl beforeEnd (by omega)
      have keyWithin := skipBlanks_le isSign rfl afterBegin
      have valueWithin := skipBlanks_le ends bareEnd beforeEnd
      simp only [Option.map_some, ← nextSign, stretches.skipBlanks isSign rfl afterBegin,
        stretches.skipBlanks ends bareEnd beforeEnd, keyRan, keyThere, valueRan, valueThere,
        ofScan_ok, ok_bind,
        stretches.lt_iff (show keyLast ≤ part.size by omega)
          (show part.skipBlanks (before + 1) ≤ part.size by omega),
        stretches.lt_iff (show valueLast ≤ part.size by omega)
          (show part.skipBlanks (sign + 1) ≤ part.size by omega)]
      split
      · exact .failure _ _
      · split
        · exact .failure _ _
        · rename_i keyFilled valueFilled
          refine .ok _ _ ?_
          rw [collapsed_alike stretches (by omega) (by omega) keyNext,
            collapsed_alike stretches (by omega) (by omega) valueNext]

theorem readPairs_alike {last : Nat} (closes : part.HasAt last ')') (count fewer before : Nat)
    {c : Char} (begins : part.HasAt before c) (bare : isBlank c = false) (ordered : before ≤ last)
    (enough : place last ≤ place before + count) (fewerEnough : last ≤ before + fewer)
    (pairs : Table String String) :
    Alike place Eq (readPairs source (place last) count (place before) pairs)
      (readPairs part last fewer before pairs) := by
  have inside := closes.inside
  induction fewer generalizing count before c pairs with
  | zero =>
      obtain rfl : before = last := by omega
      cases count <;> simp [readPairs, Alike.ok]
  | succ fewer ih =>
      by_cases more : before < last
      · have ahead := stretches.strict more (Nat.le_of_lt inside)
        obtain ⟨count, rfl⟩ : ∃ left, count = left + 1 := ⟨count - 1, by omega⟩
        rw [readPairs, readPairs, if_pos more, if_pos ahead,
          ← (stretches.bare before c begins bare).2]
        refine Alike.scan (stretches.findSeparator more (Nat.le_of_lt inside) rfl rfl rfl)
          fun found ran => ?_
        have same : (Option.map place found).getD (place last) = place (found.getD last) := by
          cases found <;> rfl
        -- What ends this pair begins the next one.
        have ends : ∃ d, part.HasAt (found.getD last) d ∧ isBlank d = false ∧
            before < found.getD last ∧ found.getD last ≤ last := by
          cases found with
          | none => exact ⟨')', closes, rfl, more, Nat.le_refl last⟩
          | some separator =>
              obtain ⟨after, within⟩ :=
                (findSeparator_answers ',' '(' ')' (Nat.le_of_lt inside)).of_ok ran separator rfl
              exact ⟨',', (findSeparatorFor_bare _ _ _ ran separator rfl).1, rfl, after, by
                simp only [Option.getD_some]; omega⟩
        obtain ⟨d, hasEnd, bareEnd, after, within⟩ := ends
        have advances := stretches.strict after (show found.getD last ≤ part.size by omega)
        rw [same]
        refine (readPair_alike stretches after begins bare hasEnd bareEnd).bind ?_
        rintro pair _ rfl _
        exact ih count _ hasEnd bareEnd within (by omega) (by omega) _
      · obtain rfl : before = last := by omega
        cases count <;> simp [readPairs, Alike.ok]

theorem read_alike {properties : Option Span} (holds : part.Holds properties) :
    Alike place Eq (Token.readProperties source (properties.map (Span.moved place)))
      (Token.readProperties part properties) := by
  cases properties with
  | none => exact .ok _ _ rfl
  | some span =>
      obtain ⟨last, ends, ordered, opens, closes, bare⟩ := holds span rfl
      have inside := closes.inside
      obtain ⟨opensThere, nextOpening⟩ := stretches.bare _ _ opens rfl
      obtain ⟨closesThere, nextClosing⟩ := stretches.bare _ _ closes rfl
      have bareThere : ¬ source.Hidden (place last) :=
        (not_congr (stretches.hidden_iff (Nat.le_of_lt inside))).mpr bare
      have orderedThere := stretches.strict ordered (Nat.le_of_lt inside)
      have within : part.skipBlanks (span.start + 1) ≤ last := skipBlanks_le closes rfl ordered
      have same : place (part.skipBlanks (span.start + 1)) = place last ↔
          part.skipBlanks (span.start + 1) = last := by
        refine ⟨fun equal => ?_, congrArg place⟩
        refine Nat.le_antisymm within (Nat.le_of_not_lt fun less => ?_)
        have strict := stretches.strict less (Nat.le_of_lt inside)
        omega
      simp only [Token.readProperties, Option.map_some, Span.moved, ends, nextClosing,
        read_between orderedThere opensThere closesThere bareThere,
        read_between ordered opens closes bare, ← nextOpening,
        stretches.skipBlanks closes rfl (show span.start + 1 ≤ last from ordered), same]
      split
      · exact .ok _ _ rfl
      · exact readPairs_alike stretches closes _ _ _ opens rfl (Nat.le_of_lt ordered) (by omega)
          (by omega) {}

end Alike

end PropertyMap

namespace Token

open Source

def moved (place : Nat → Nat) (token : Token) : Token :=
  { token with body := token.body.map (Span.moved place), stop := place token.stop }

variable {source part : Source} {place : Nat → Nat} (stretches : source.Stretches part place)
variable {start stop closing : Nat}
include stretches

theorem nameSpan_alike (has : part.HasAt closing '\x7d') (ahead : start ≤ closing) :
    Alike place (fun name other => name = Span.moved place other)
      (nameSpan source (place start)) (nameSpan part start) := by
  have within := skipBlanks_le has rfl ahead
  have inside := has.inside
  obtain ⟨c, hasFirst⟩ := exists_hasAt (show part.skipBlanks start < part.size by omega)
  have hasThere := (stretches.bare _ c hasFirst (skipBlanks_bare hasFirst)).1
  simp only [nameSpan, stretches.skipBlanks has rfl ahead, read_eq hasFirst, read_eq hasThere,
    ofScan_ok, ok_bind]
  split
  · exact .failure _ _
  · refine Alike.scan (stretches.nameStop has rfl within) fun last ran => ?_
    obtain ⟨after, before, _⟩ := (nameStop_answers has rfl within).of_ok ran
    have same : place last = place (part.skipBlanks start) ↔ last = part.skipBlanks start := by
      refine ⟨fun equal => ?_, congrArg place⟩
      refine Nat.le_antisymm (Nat.le_of_not_lt fun less => ?_) after
      have strict := stretches.strict less (show last ≤ part.size by omega)
      omega
    simp only [same]
    split
    · exact .failure _ _
    · exact .ok _ _ rfl

theorem parts_alike (has : part.HasAt closing '\x7d') (ahead : start ≤ closing) :
    Alike place
      (fun parts other => parts = ⟨other.kind, other.properties.map (Span.moved place),
          place other.bodyStart⟩ ∧ part.Holds other.properties ∧ other.bodyStart ≤ closing ∧
        ∃ c, part.HasAt other.bodyStart c ∧ isBlank c = false)
      (parts source (place start) (place closing)) (parts part start closing) := by
  have within := skipBlanks_le has rfl ahead
  have inside := has.inside
  -- Behind the sign or the map the closing marker still bounds the blanks.
  have bodied : ∀ behind, behind ≤ closing →
      source.skipBlanks (place behind) = place (part.skipBlanks behind) ∧
        part.skipBlanks behind ≤ closing ∧
        ∃ c, part.HasAt (part.skipBlanks behind) c ∧ isBlank c = false := by
    intro behind before
    have bound := skipBlanks_le has rfl before
    obtain ⟨c, hasC⟩ := exists_hasAt (show part.skipBlanks behind < part.size by omega)
    exact ⟨stretches.skipBlanks has rfl before, bound, c, hasC, skipBlanks_bare hasC⟩
  obtain ⟨same, bound, c, hasSign, bare⟩ := bodied start ahead
  obtain ⟨hasThere, next⟩ := stretches.bare _ c hasSign bare
  simp only [parts, same, read_eq hasSign, read_eq hasThere, ofScan_ok, ok_bind]
  have noBrace : ∀ sign, c = sign → sign ≠ '\x7d' → part.skipBlanks start + 1 ≤ closing := by
    rintro sign rfl different
    refine Nat.lt_of_le_of_ne bound fun equal => different ?_
    exact (equal ▸ hasSign).unique has
  split
  · rename_i isSign
    obtain ⟨sameBody, bodyBound, bodyBare⟩ := bodied _ (noBrace '$' isSign (by decide))
    rw [← next, sameBody]
    exact .ok _ _ ⟨rfl, holds_none, bodyBound, bodyBare⟩
  · split
    · rename_i isMap
      rw [← next]
      have room := noBrace '(' isMap (by decide)
      refine Alike.scan (stretches.findMatching room (Nat.le_of_lt inside) rfl rfl)
        fun found ran => ?_
      cases found with
      | none => exact .failure _ _
      | some last =>
          obtain ⟨closes, unhidden⟩ := findMatchingFor_bare _ _ _ ran last rfl
          obtain ⟨after, before⟩ : part.skipBlanks start + 1 ≤ last ∧ last + 1 ≤ closing :=
            (findMatching_answers '(' ')' (Nat.le_of_lt inside)).of_ok ran last rfl
          have nextLast := (stretches.bare last _ closes rfl).2
          obtain ⟨sameBody, bodyBound, bodyBare⟩ := bodied (last + 1) before
          simp only [Option.map_some, ← nextLast, sameBody]
          refine .ok _ _ ⟨rfl, ?_, bodyBound, bodyBare⟩
          rintro span ⟨⟩
          exact ⟨last, rfl, after, isMap ▸ hasSign, closes, unhidden⟩
    · exact .ok _ _ ⟨rfl, holds_none, bound, c, hasSign, bare⟩

theorem bodySpan_alike {c : Char} (has : part.HasAt start c) (bare : isBlank c = false)
    (ahead : start ≤ closing) (inside : closing ≤ part.size) :
    bodySpan source (place start) (place closing) =
        Option.map (Span.moved place) <$> bodySpan part start closing ∧
      ∀ body, bodySpan part start closing = .ok (some body) → body.start ≤ body.stop := by
  rcases Nat.lt_or_eq_of_le ahead with more | rfl
  · obtain ⟨last, ran, ranThere, after, _, next⟩ :=
      stretches.retreatBlanks has bare more inside
    have moreThere := stretches.strict more inside
    simp only [bodySpan, if_pos more, if_pos moreThere, ran, ranThere, ok_bind, pure_eq_ok]
    refine ⟨by simp [Span.moved, next], ?_⟩
    rintro body ⟨⟩
    simp only
    omega
  · simp [bodySpan]

theorem read_alike (room : start + 2 ≤ stop) (inside : stop ≤ part.size)
    (marks : part.Marks .opening start) :
    Alike place (fun token other => token = moved place other ∧
        ∀ body, other.body = some body → body.start ≤ body.stop)
      (Token.read source (place start) (place stop)) (Token.read part start stop) := by
  have nextFirst := (stretches.bare start _ marks.1 rfl).2
  have next : place (start + 2) = place start + 2 := by
    rw [(stretches.bare (start + 1) _ marks.2.1 rfl).2, nextFirst]
  rw [Token.read, Token.read, ← next]
  refine Alike.scan (stretches.closing room inside) fun found ran => ?_
  cases found with
  | none => exact .failure _ _
  | some closing =>
      obtain ⟨closes, within⟩ := (closing_eq_some inside).mp ran
      obtain ⟨ahead, has, hasSecond, _⟩ := closes.bounds
      have nextClosing : place (closing + 2) = place closing + 2 := by
        rw [(stretches.bare (closing + 1) _ hasSecond rfl).2,
          (stretches.bare closing _ has rfl).2]
      refine (nameSpan_alike stretches has ahead).bind ?_
      rintro _ name rfl named
      obtain ⟨nameAfter, filled, nameWithin, valid⟩ := (nameSpan_settles has ahead).of_ok named
      refine (parts_alike stretches has nameWithin).bind ?_
      rintro _ parts ⟨rfl, holds, bodyWithin, c, hasBody, bareBody⟩ _
      refine (PropertyMap.read_alike stretches holds).bind ?_
      rintro properties _ rfl _
      obtain ⟨sameBody, ordered⟩ := bodySpan_alike stretches hasBody bareBody bodyWithin
        (show closing ≤ part.size by omega)
      refine Alike.scan sameBody fun body ran => ?_
      have sameName := stretches.slice_bare (Nat.le_of_lt filled) (by omega)
        fun d member => not_blank_of_name (valid d member)
      refine .ok _ _ ⟨?_, ?_⟩
      · simp only [moved, Span.moved, sameName, nextClosing]
      · rintro span isBody
        exact ordered span (ran.trans (congrArg Except.ok isBody))

end Token

def Piece.moved (place : Nat → Nat) : Piece → Piece
  | .text chars => .text chars
  | .token read => .token (read.moved place)

@[simp] theorem Piece.moved_body (place : Nat → Nat) (piece : Piece) :
    (piece.moved place).body = piece.body.map (Span.moved place) := by
  cases piece <;> rfl

@[simp] theorem Piece.moved_node (place : Nat → Nat) (piece : Piece) :
    (piece.moved place).node = piece.node := by
  cases piece <;> rfl

namespace Level

open Source

variable {source part : Source} {place : Nat → Nat} (stretches : source.Stretches part place)
variable {stop : Nat} (inside : stop ≤ part.size)
include stretches inside

theorem runStopFor_alike (count index : Nat) (ends : index + count = stop) :
    Alike place (fun next other => next = place other ∧ index ≤ other ∧ other ≤ stop)
      (runStopFor source (place stop) (place stop - place index) (place index))
      (runStopFor part stop count index) := by
  induction count generalizing index with
  | zero =>
      obtain rfl : index = stop := ends
      rw [Nat.sub_self]
      exact .ok _ _ ⟨rfl, Nat.le_refl _, Nat.le_refl _⟩
  | succ count ih =>
      have later := (ih (index + 1) (by omega)).mono fun next other agrees =>
        And.intro agrees.1 (And.intro (Nat.le_of_succ_le agrees.2.1) agrees.2.2)
      have more : index < stop := by omega
      have within := stretches.place_le inside
      obtain ⟨c, has, ⟨_, _, next⟩ | ⟨blank, run⟩⟩ :=
        stretches.cell (show index < part.size by omega)
      · obtain ⟨opens, ran, _⟩ := @markerAt_answers part index stop .opening inside
        obtain ⟨closes, alsoRan, _⟩ := @markerAt_answers part index stop .closing inside
        rw [stretches.one_step more inside next]
        simp only [runStopFor, stretches.markerAt .opening rfl rfl more inside,
          stretches.markerAt .closing rfl rfl more inside, ran, alsoRan, ofScan_ok, ok_bind, ← next]
        split
        · exact .ok _ _ ⟨rfl, Nat.le_refl _, Nat.le_of_lt more⟩
        · split
          · exact .failure _ _
          · exact later
      · have passes : ∀ {source : Source} {stop : Nat}, stop ≤ source.size →
            ∀ count index c, source.HasAt index c → isBlank c = true →
              runStopFor source stop (count + 1) index =
                runStopFor source stop count (index + 1) := by
          intro source stop inside count index c has blank
          simp [runStopFor, markerAt_blank .opening rfl inside has blank,
            markerAt_blank .closing rfl inside has blank]
        rw [stretches.steps more inside,
          passes_blanks (runStopFor source (place stop)) run fun count index c _ =>
            passes within count index c,
          passes inside count index c has blank]
        exact later

theorem runStop_alike {start : Nat} (ordered : start ≤ stop) :
    Alike place (fun next other => next = place other ∧ start ≤ other ∧ other ≤ stop)
      (runStop source (place start) (place stop)) (runStop part start stop) :=
  runStopFor_alike stretches inside _ start (by omega)

theorem textPiece_alike {start : Nat} (ordered : start ≤ stop) :
    textPiece source (place start) (place stop) = textPiece part start stop := by
  rw [textPiece, textPiece, (stretches.slice_collapsed ordered inside).1]

theorem piecesFor_alike (count fewer index : Nat) (ordered : index ≤ stop)
    (enough : place stop ≤ place index + count) (fewerEnough : stop ≤ index + fewer) :
    Alike place (fun pieces others => pieces = others.map (Piece.moved place) ∧
        ∀ body ∈ Outline.bodySpans others, body.start ≤ body.stop)
      (piecesFor source (place stop) count (place index)) (piecesFor part stop fewer index) := by
  -- At the end of the span neither of the two counts matters.
  have done : ∀ count fewer, Alike place (fun pieces others => pieces =
        others.map (Piece.moved place) ∧
        ∀ body ∈ Outline.bodySpans others, body.start ≤ body.stop)
      (piecesFor source (place stop) count (place stop)) (piecesFor part stop fewer stop) := by
    intro count fewer
    rw [piecesFor_done source count (Nat.le_refl _), piecesFor_done part fewer (Nat.le_refl _)]
    exact .ok _ _ ⟨rfl, by simp [Outline.bodySpans]⟩
  induction fewer generalizing count index with
  | zero =>
      obtain rfl : index = stop := by omega
      exact done count 0
  | succ fewer ih =>
      rcases Nat.lt_or_eq_of_le ordered with more | rfl
      · have moreThere := stretches.strict more inside
        obtain ⟨count, rfl⟩ : ∃ left, count = left + 1 := ⟨count - 1, by omega⟩
        obtain ⟨opens, ran, isOpening⟩ := @markerAt_answers part index stop .opening inside
        rw [piecesFor, piecesFor, if_pos more, if_pos moreThere,
          stretches.markerAt .opening rfl rfl more inside, ran, ofScan_ok, ok_bind, ok_bind]
        cases opens with
        | true =>
            obtain ⟨room, marks⟩ := isOpening.mp rfl
            refine (Token.read_alike stretches room inside marks).bind ?_
            rintro _ token ⟨rfl, ordered⟩ read
            have fits := (Token.read_settles room inside).of_ok read
            have ahead := fits.ahead
            have aheadThere := stretches.strict ahead (Nat.le_trans fits.inside inside)
            refine (ih count token.stop fits.inside (by omega) (by omega)).bind ?_
            rintro _ rest ⟨rfl, bodies⟩ _
            refine .ok _ _ ⟨rfl, fun body member => ?_⟩
            cases isBody : (Piece.token token).body with
            | none =>
                rw [Outline.bodySpans_none rest isBody] at member
                exact bodies body member
            | some span =>
                rw [Outline.bodySpans_some rest isBody] at member
                rcases List.mem_cons.mp member with rfl | later
                · exact ordered body isBody
                · exact bodies body later
        | false =>
            refine (runStop_alike stretches inside ordered).bind ?_
            rintro _ next ⟨rfl, after, within⟩ read
            have ahead := ((runStop_settles inside more ran).of_ok read).1
            have nextInside := Nat.le_trans within inside
            have aheadThere := stretches.strict ahead nextInside
            refine (ih count next within (by omega) (by omega)).bind ?_
            rintro _ rest ⟨rfl, bodies⟩ _
            have sameText := textPiece_alike stretches nextInside after
            have filled := textPiece_filled ahead nextInside
            refine .ok _ _ ?_
            rw [sameText, filled]
            exact ⟨rfl, bodies⟩
      · exact done count _

theorem pieces_alike {start : Nat} (ordered : start ≤ stop) :
    Alike place (fun pieces others => pieces = others.map (Piece.moved place) ∧
        ∀ body ∈ Outline.bodySpans others, body.start ≤ body.stop)
      (pieces source ⟨place start, place stop⟩) (pieces part ⟨start, stop⟩) := by
  have further := stretches.mono ordered inside
  exact piecesFor_alike stretches inside _ _ start ordered (by simp only; omega)
    (by simp only; omega)

theorem read_alike {start : Nat} (ordered : start ≤ stop) :
    Alike place (fun pieces others => pieces = others.map (Piece.moved place) ∧
        ∀ body ∈ Outline.bodySpans others, body.start ≤ body.stop)
      (Level.read source ⟨place start, place stop⟩) (Level.read part ⟨start, stop⟩) := by
  rw [Level.read, Level.read, map_eq_pure_bind, map_eq_pure_bind]
  refine (pieces_alike stretches inside ordered).bind ?_
  rintro _ pieces ⟨rfl, bodies⟩ _
  refine .ok _ _ ?_
  cases pieces with
  | nil => exact ⟨rfl, by simp [orEmptyText, Outline.bodySpans, Piece.body]⟩
  | cons piece rest => exact ⟨rfl, bodies⟩

end Level

namespace Outline

open Source

theorem bodySpans_moved (place : Nat → Nat) (pieces : List Piece) :
    bodySpans (pieces.map (Piece.moved place)) = (bodySpans pieces).map (Span.moved place) := by
  rw [bodySpans, bodySpans, List.filterMap_map, List.map_filterMap]
  exact List.filterMap_congr fun piece _ => piece.moved_body place

theorem hang_moved (place : Nat → Nat) (pieces : List Piece) (bodies : List Forest) :
    assemble (hang (pieces.map (Piece.moved place)) bodies) = assemble (hang pieces bodies) := by
  induction pieces generalizing bodies with
  | nil => rfl
  | cons piece rest ih =>
      cases isBody : piece.body <;> cases bodies <;> simp [hang, assemble, isBody, ih]

theorem mapM_alike {place : Nat → Nat} {readBody other : Span → Except Stop Forest}
    (spans : List Span)
    (alike : ∀ span ∈ spans, Alike place Eq (readBody (span.moved place)) (other span)) :
    Alike place Eq ((spans.map (Span.moved place)).mapM readBody) (spans.mapM other) := by
  induction spans with
  | nil => exact .ok _ _ rfl
  | cons span rest ih =>
      rw [List.map_cons, List.mapM_cons, List.mapM_cons]
      refine (alike span List.mem_cons_self).bind ?_
      rintro body _ rfl _
      refine (ih fun later member => alike later (List.mem_cons_of_mem span member)).bind ?_
      rintro bodies _ rfl _
      exact .ok _ _ rfl

theorem read_alike {source part : Source} {place : Nat → Nat}
    (stretches : source.Stretches part place) (span : Span) (ordered : span.start ≤ span.stop)
    (inside : span.stop ≤ part.size) :
    Alike place Eq (read source (span.moved place)) (read part span) := by
  -- The bodies are shorter than the span around them.
  induction bound : span.length using Nat.strongRecOn generalizing span with
  | ind length ih =>
      subst bound
      rw [read_eq part inside, read_eq source (stretches.place_le inside)]
      refine (Level.read_alike stretches inside ordered).bind ?_
      rintro _ pieces ⟨rfl, orderedBodies⟩ ran
      obtain ⟨fits, loads, _⟩ := (Level.read_settles inside).of_ok ran
      have shorter := body_shorter fits loads
      rw [bodySpans_moved]
      refine (mapM_alike (bodySpans pieces) fun body member => ?_).bind ?_
      · obtain ⟨less, within⟩ := shorter body member
        exact ih _ less body (orderedBodies body member) (Nat.le_trans within inside) rfl
      · rintro bodies _ rfl _
        exact .ok _ _ (hang_moved place pieces bodies)

end Outline

end Stencil
