import Mathlib.Data.List.Intervals
import Stencil.Proofs.FailureCauses

/-!
What the searches of a span find, said by counting bare characters. A search finds the
first good place of its span, or nothing if no place of the span is good. For the closing
character of a nesting a place is good if as many closings as openings stand before it,
and in no beginning of what stands before it more; for a separator it is good if no
nesting is open there. A closing without its opening closes nothing, so nothing is open
exactly if what stands before has in each of its ends at least as many closings as openings.
-/

namespace Stencil.Source

variable {source : Source}

section Foremost

/-- What a search of a span is to find: a good place that no good place precedes, or
nothing, for which the position behind the span stands. -/
structure Foremost (good : Nat → Prop) (start stop : Nat) (found : Option Nat) : Prop where
  within : Between start stop found
  isGood : ∀ place, found = some place → good place
  isFirst : ∀ place, start ≤ place → place < found.getD stop → ¬ good place

variable {good better : Nat → Prop} {start stop index count : Nat} {found again : Option Nat}

theorem Between.getD_le (within : Between start stop found) : found.getD stop ≤ stop := by
  cases found with
  | none => exact Nat.le_refl stop
  | some place => exact Nat.le_of_lt (within place rfl).2

theorem Foremost.precedes (foremost : Foremost good start stop found) {place : Nat}
    (after : start ≤ place) (before : place < stop) (isGood : good place) :
    ∃ first, found = some first ∧ first ≤ place := by
  cases found with
  | none => exact absurd isGood (foremost.isFirst place after before)
  | some first =>
      exact ⟨first, rfl, Nat.le_of_not_lt fun short => foremost.isFirst place after short isGood⟩

/-- Another search for the same finds nothing behind the place that was found. -/
theorem Foremost.rival_precedes {place : Nat} (foremost : Foremost good start stop (some place))
    (rival : Foremost good start stop again) : ∃ first, again = some first ∧ first ≤ place := by
  have bounds := foremost.within place rfl
  exact rival.precedes bounds.1 bounds.2 (foremost.isGood place rfl)

theorem Foremost.unique (foremost : Foremost good start stop found)
    (rival : Foremost good start stop again) : found = again := by
  cases found with
  | none =>
      cases again with
      | none => rfl
      | some place =>
          obtain ⟨first, none, _⟩ := rival.rival_precedes foremost
          cases none
  | some place =>
      obtain ⟨first, rfl, le⟩ := foremost.rival_precedes rival
      obtain ⟨_, ⟨⟩, ge⟩ := rival.rival_precedes foremost
      rw [Nat.le_antisymm ge le]

theorem Foremost.congr (foremost : Foremost good start stop found)
    (same : ∀ place, start ≤ place → place < stop → (good place ↔ better place)) :
    Foremost better start stop found := by
  refine ⟨foremost.within, fun place isPlace => ?_, fun place after before isBetter => ?_⟩
  · have bounds := foremost.within place isPlace
    exact (same place bounds.1 bounds.2).mp (foremost.isGood place isPlace)
  · have inside : place < stop := Nat.lt_of_lt_of_le before foremost.within.getD_le
    exact foremost.isFirst place after before ((same place after inside).mpr isBetter)

theorem foremost_empty : Foremost good index index none :=
  ⟨nofun, nofun, fun _ after before => absurd before (Nat.not_lt.mpr after)⟩

theorem foremost_here (isGood : good index) :
    Foremost good index (index + (count + 1)) (some index) := by
  refine ⟨between_here index count, ?_, fun place after before => ?_⟩
  · rintro place ⟨⟩
    exact isGood
  · exact absurd before (Nat.not_lt.mpr after)

theorem Foremost.later (foremost : Foremost better (index + 1) (index + 1 + count) found)
    (isBad : ¬ good index) (same : ∀ place, index < place → (good place ↔ better place)) :
    Foremost good index (index + (count + 1)) found := by
  have onward := foremost.congr fun place after _ => (same place after).symm
  refine ⟨fun place isPlace => ?_, onward.isGood, fun place after before => ?_⟩
  · have bounds := onward.within place isPlace
    omega
  · rcases Nat.eq_or_lt_of_le after with rfl | further
    · exact isBad
    · rw [← Nat.add_assoc, Nat.add_right_comm] at before
      exact onward.isFirst place further before

theorem Foremost.span (foremost : Foremost good start (start + (stop - start)) found) :
    Foremost good start stop found := by
  refine ⟨fun place isPlace => ?_, foremost.isGood, fun place after before => ?_⟩
  · have bounds := foremost.within place isPlace
    omega
  · apply foremost.isFirst place after
    cases found with
    | none =>
        rw [Option.getD_none] at before ⊢
        omega
    | some first => exact before

end Foremost

instance (index : Nat) (c : Char) : Decidable (source.HasAt index c) :=
  inferInstanceAs (Decidable (source.chars[index]? = some c))

instance : (index : Nat) → Decidable (source.Hidden index)
  | 0 => .isFalse fun ⟨_, same, _⟩ => nomatch same
  | before + 1 => decidable_of_iff (source.HasAt before '\\')
      ⟨fun has => ⟨before, rfl, has⟩, fun ⟨_, same, has⟩ => Nat.succ.inj same ▸ has⟩

instance (index : Nat) (c : Char) : Decidable (source.Exposed index c) :=
  inferInstanceAs (Decidable (_ ∧ _))

section Counts

def exposures (source : Source) (c : Char) (start stop : Nat) : Nat :=
  (List.Ico start stop).countP (source.Exposed · c)

variable {c : Char} {start stop : Nat}

theorem exposures_empty : source.exposures c start start = 0 := by
  rw [exposures, List.Ico.self_empty, List.countP_nil]

theorem exposures_cons (ahead : start < stop) : source.exposures c start stop =
    source.exposures c (start + 1) stop + if source.Exposed start c then 1 else 0 := by
  simp only [exposures, List.Ico.eq_cons ahead, List.countP_cons, decide_eq_true_eq]

theorem exposures_concat (ordered : start ≤ stop) : source.exposures c start (stop + 1) =
    source.exposures c start stop + if source.Exposed stop c then 1 else 0 := by
  simp only [exposures, List.Ico.succ_top ordered, List.countP_append, List.countP_singleton,
    decide_eq_true_eq]

theorem exposures_eq_zero :
    source.exposures c start stop = 0 ↔
      ∀ place, start ≤ place → place < stop → ¬ source.Exposed place c := by
  simp only [exposures, List.countP_eq_zero, List.Ico.mem, decide_eq_true_eq, and_imp]

end Counts

section Nesting

def nested (source : Source) (opening closing : Char) (depth index : Nat) : Nat :=
  if source.Exposed index opening then depth + 1
  else if source.Exposed index closing then depth - 1
  else depth

def nesting (source : Source) (opening closing : Char) (depth start stop : Nat) : Nat :=
  (List.Ico start stop).foldl (source.nested opening closing) depth

variable {opening closing : Char} {depth start stop : Nat}

theorem nesting_empty : source.nesting opening closing depth start start = depth := by
  rw [nesting, List.Ico.self_empty, List.foldl_nil]

theorem nesting_cons (ahead : start < stop) :
    source.nesting opening closing depth start stop =
      source.nesting opening closing (source.nested opening closing depth start) (start + 1)
        stop := by
  rw [nesting, List.Ico.eq_cons ahead, List.foldl_cons, nesting]

theorem nesting_concat (ordered : start ≤ stop) :
    source.nesting opening closing depth start (stop + 1) =
      source.nested opening closing (source.nesting opening closing depth start stop) stop := by
  rw [nesting, List.Ico.succ_top ordered, List.foldl_append, List.foldl_cons, List.foldl_nil,
    nesting]

theorem ends_concat {bound : Nat} :
    (∀ middle, start ≤ middle → middle ≤ stop + 1 →
        source.exposures opening middle (stop + 1) ≤
          source.exposures closing middle (stop + 1) + bound) ↔
      ∀ middle, start ≤ middle → middle ≤ stop →
        source.exposures opening middle stop + (if source.Exposed stop opening then 1 else 0) ≤
          source.exposures closing middle stop +
            (if source.Exposed stop closing then 1 else 0) + bound := by
  constructor
  · intro all middle after before
    have one := all middle after (Nat.le_succ_of_le before)
    rwa [exposures_concat before, exposures_concat before] at one
  · intro all middle after before
    rcases Nat.le_or_eq_of_le_succ before with within | rfl
    · rw [exposures_concat within, exposures_concat within]
      exact all middle after within
    · rw [exposures_empty]
      exact Nat.zero_le _

variable (different : opening ≠ closing)
include different

/-- A closing that has something to close counts against the openings one for one. -/
theorem nested_add (closable : ¬ (source.Exposed start closing ∧ depth = 0)) :
    source.nested opening closing depth start + (if source.Exposed start closing then 1 else 0) =
      depth + if source.Exposed start opening then 1 else 0 := by
  unfold nested
  by_cases opens : source.Exposed start opening
  · simp only [opens, opens.not_other different, if_true, if_false]
  · by_cases closes : source.Exposed start closing
    · have deep : depth ≠ 0 := fun none => closable ⟨closes, none⟩
      simp only [opens, closes, if_true, if_false]
      omega
    · simp only [opens, closes, if_false]

theorem nesting_le_iff (ordered : start ≤ stop) (bound : Nat) :
    source.nesting opening closing 0 start stop ≤ bound ↔
      ∀ middle, start ≤ middle → middle ≤ stop →
        source.exposures opening middle stop ≤ source.exposures closing middle stop + bound := by
  induction stop, ordered using Nat.le_induction generalizing bound with
  | base =>
      rw [nesting_empty]
      refine iff_of_true (Nat.zero_le bound) fun middle after before => ?_
      rw [Nat.le_antisymm before after, exposures_empty]
      exact Nat.zero_le _
  | succ stop ordered ih =>
      rw [ends_concat, nesting_concat ordered, nested]
      by_cases opens : source.Exposed stop opening
      · simp only [opens, opens.not_other different, if_true, if_false]
        cases bound with
        | zero =>
            refine iff_of_false (Nat.not_succ_le_zero _) fun all => ?_
            have last := all stop ordered (Nat.le_refl stop)
            rw [exposures_empty, exposures_empty] at last
            exact Nat.not_succ_le_zero _ last
        | succ bound =>
            rw [Nat.succ_le_succ_iff, ih]
            exact forall₃_congr fun _ _ _ => Nat.succ_le_succ_iff.symm
      · by_cases closes : source.Exposed stop closing
        · simp only [opens, closes, if_true, if_false, Nat.add_zero]
          rw [Nat.sub_le_iff_le_add, ih]
          refine forall₃_congr fun _ _ _ => ?_
          rw [Nat.add_assoc, Nat.add_comm bound 1]
        · simpa only [opens, closes, if_false, Nat.add_zero] using ih bound

/-- Nothing is open behind a span exactly if no end of it has more openings than closings. -/
theorem nesting_eq_zero_iff (ordered : start ≤ stop) :
    source.nesting opening closing 0 start stop = 0 ↔
      ∀ middle, start ≤ middle → middle ≤ stop →
        source.exposures opening middle stop ≤ source.exposures closing middle stop := by
  rw [← Nat.le_zero, nesting_le_iff different ordered]
  exact Iff.rfl

end Nesting

section Goals

/-- Up to the bare closing character at `place` all is closed that is opened from `start`
on, and so are `depth` nestings that were open there, but nothing that was not open. -/
structure Balances (source : Source) (opening closing : Char) (depth start place : Nat) : Prop where
  closes : source.Exposed place closing
  level : source.exposures closing start place = source.exposures opening start place + depth
  covered : ∀ middle, start ≤ middle → middle ≤ place →
    source.exposures closing start middle ≤ source.exposures opening start middle + depth

/-- The bare separator at `place` stands outside of all nestings, of which `depth` were
open at `start`. -/
structure Separates (source : Source) (sought opening closing : Char) (depth start place : Nat) :
    Prop where
  separator : source.Exposed place sought
  outside : source.nesting opening closing depth start place = 0

variable {sought opening closing : Char} {depth start place : Nat}

theorem balances_here : source.Balances opening closing depth place place ↔
    source.Exposed place closing ∧ depth = 0 := by
  constructor
  · rintro ⟨closes, level, _⟩
    rw [exposures_empty, exposures_empty, Nat.zero_add] at level
    exact ⟨closes, level.symm⟩
  · rintro ⟨closes, rfl⟩
    refine ⟨closes, by rw [exposures_empty, exposures_empty], fun middle after before => ?_⟩
    rw [Nat.le_antisymm before after, exposures_empty]
    exact Nat.zero_le _

theorem not_balances (ahead : start < place) (closes : source.Exposed start closing)
    (different : opening ≠ closing) : ¬ source.Balances opening closing 0 start place := by
  intro balances
  have first := balances.covered (start + 1) (Nat.le_succ start) ahead
  rw [exposures_cons (Nat.lt_succ_self start), exposures_cons (Nat.lt_succ_self start),
    if_pos closes, if_neg (closes.not_other different.symm), exposures_empty,
    exposures_empty] at first
  exact Nat.not_succ_le_zero 0 first

theorem balances_later (different : opening ≠ closing) (ahead : start < place)
    (closable : ¬ (source.Exposed start closing ∧ depth = 0)) :
    source.Balances opening closing depth start place ↔
      source.Balances opening closing (source.nested opening closing depth start) (start + 1)
        place := by
  have shifts := nested_add different closable
  have level : ∀ middle, start < middle →
      source.exposures opening start middle + depth +
          source.exposures closing (start + 1) middle =
        source.exposures opening (start + 1) middle +
          source.nested opening closing depth start + source.exposures closing start middle := by
    intro middle after
    rw [exposures_cons after, exposures_cons after]
    omega
  constructor
  · rintro ⟨closes, even, covered⟩
    refine ⟨closes, ?_, fun middle after before => ?_⟩
    · have same := level place ahead
      omega
    · have same := level middle after
      have least := covered middle (Nat.le_of_succ_le after) before
      omega
  · rintro ⟨closes, even, covered⟩
    refine ⟨closes, ?_, fun middle after before => ?_⟩
    · have same := level place ahead
      omega
    · rcases Nat.eq_or_lt_of_le after with rfl | further
      · rw [exposures_empty]
        exact Nat.zero_le _
      · have same := level middle further
        have least := covered middle further before
        omega

theorem separates_here : source.Separates sought opening closing depth place place ↔
    source.Exposed place sought ∧ depth = 0 := by
  constructor
  · rintro ⟨separator, outside⟩
    exact ⟨separator, nesting_empty.symm.trans outside⟩
  · rintro ⟨separator, rfl⟩
    exact ⟨separator, nesting_empty⟩

theorem separates_later (ahead : start < place) :
    source.Separates sought opening closing depth start place ↔
      source.Separates sought opening closing (source.nested opening closing depth start)
        (start + 1) place := by
  constructor
  · rintro ⟨separator, outside⟩
    exact ⟨separator, nesting_cons ahead ▸ outside⟩
  · rintro ⟨separator, outside⟩
    exact ⟨separator, (nesting_cons ahead).trans outside⟩

theorem matches_later (different : opening ≠ closing)
    (closable : ¬ (source.Exposed start closing ∧ depth = 0)) :
    source.Matches opening closing depth start place ↔
      source.Matches opening closing (source.nested opening closing depth start) (start + 1)
        place := by
  unfold nested
  split
  · rename_i opens
    exact matches_opening different opens
  · rename_i notOpens
    split
    · rename_i closes
      cases depth with
      | zero => exact absurd ⟨closes, rfl⟩ closable
      | succ outer => exact matches_closing different closes
    · rename_i notCloses
      exact matches_plain notOpens notCloses

/-- The place that a nesting is closed at is told by the counts before it. -/
theorem matches_iff_balances (different : opening ≠ closing) (ordered : start ≤ place) :
    source.Matches opening closing depth start place ↔
      source.Balances opening closing depth start place := by
  obtain ⟨count, rfl⟩ := Nat.exists_eq_add_of_le ordered
  clear ordered
  -- A closing with nothing to close is the place itself; past any other character both
  -- sides go on alike, from the depth behind it.
  induction count generalizing depth start with
  | zero =>
      rw [Nat.add_zero, balances_here]
      by_cases closed : source.Exposed start closing ∧ depth = 0
      · obtain ⟨closes, rfl⟩ := closed
        exact iff_of_true (.here start closes) ⟨closes, rfl⟩
      · refine iff_of_false (fun balanced => ?_) closed
        have beyond := ((matches_later different closed).mp balanced).bounds.1
        exact Nat.not_succ_le_self start beyond
  | succ count ih =>
      have ahead : start < start + (count + 1) := by omega
      by_cases closed : source.Exposed start closing ∧ depth = 0
      · obtain ⟨closes, rfl⟩ := closed
        rw [matches_here different closes]
        exact iff_of_false (Nat.ne_of_lt ahead) (not_balances ahead closes different)
      · have same : start + (count + 1) = start + 1 + count := by omega
        rw [matches_later different closed, balances_later different ahead closed, same]
        exact ih

end Goals

section Searches

variable {sought opening closing : Char} {start stop first last : Nat}

theorem findFor_foremost (count index : Nat)
    (inside : 0 < count → index + count ≤ source.size) :
    Answers (source.findFor sought count index)
      (Foremost (source.Exposed · sought) index (index + count)) := by
  induction count generalizing index with
  | zero => exact .ok foremost_empty
  | succ count ih =>
      have here : index < source.size := by omega
      refine (read_answers here).bind fun c isHere => ?_
      refine (escaped_answers (Nat.le_of_lt here)).bind fun hidden isHidden => ?_
      split
      · rename_i hit
        exact .ok (foremost_here ((exposed_iff isHere isHidden).mpr hit))
      · rename_i miss
        apply (ih (index + 1) (by omega)).mono
        intro found foremost
        exact foremost.later (fun exposed => miss ((exposed_iff isHere isHidden).mp exposed))
          fun _ _ => Iff.rfl

theorem findSeparatorFor_foremost (count depth index : Nat)
    (inside : 0 < count → index + count ≤ source.size) :
    Answers (source.findSeparatorFor sought opening closing count depth index)
      (Foremost (source.Separates sought opening closing depth index) index (index + count)) := by
  induction count generalizing depth index with
  | zero => exact .ok foremost_empty
  | succ count ih =>
      have here : index < source.size := by omega
      -- The rest of the search goes on from the depth behind this character.
      have onward : ¬ (source.Exposed index sought ∧ depth = 0) →
          Answers (source.findSeparatorFor sought opening closing count
              (source.nested opening closing depth index) (index + 1))
            (Foremost (source.Separates sought opening closing depth index) index
              (index + (count + 1))) := by
        intro miss
        apply (ih _ (index + 1) (by omega)).mono
        intro found foremost
        exact foremost.later (fun good => miss (separates_here.mp good))
          fun _ ahead => separates_later ahead
      refine (escaped_answers (Nat.le_of_lt here)).bind fun hidden isHidden => ?_
      split
      · rename_i isTrue
        have plain : ∀ d, ¬ source.Exposed index d :=
          fun d exposed => exposed.2 (isHidden.mp isTrue)
        have later := onward fun good => plain sought good.1
        rwa [nested, if_neg (plain opening), if_neg (plain closing)] at later
      · rename_i notHidden
        rw [Bool.not_eq_true] at notHidden
        refine (read_answers here).bind fun c isHere => ?_
        have bare : ∀ d, source.Exposed index d ↔ c = d :=
          fun d => (exposed_iff isHere isHidden).trans (and_iff_left notHidden)
        rw [bare] at onward
        split
        · rename_i hit
          exact .ok (foremost_here (separates_here.mpr ⟨(bare sought).mpr hit.1, hit.2⟩))
        · rename_i miss
          have later := onward miss
          simp only [nested, bare] at later
          split
          · rename_i opens
            rwa [if_pos opens] at later
          · rename_i notOpens
            rw [if_neg notOpens] at later
            split
            · rename_i closes
              rwa [if_pos closes] at later
            · rename_i notCloses
              rwa [if_neg notCloses] at later

theorem find_foremost (inside : stop ≤ source.size) :
    Answers (source.find sought start stop)
      (Foremost (source.Exposed · sought) start stop) :=
  (findFor_foremost _ _ (by omega)).mono fun _ => Foremost.span

theorem findSeparator_foremost (inside : stop ≤ source.size) :
    Answers (source.findSeparator sought opening closing start stop)
      (Foremost (source.Separates sought opening closing 0 start) start stop) :=
  (findSeparatorFor_foremost _ _ _ (by omega)).mono fun _ => Foremost.span

theorem findMatching_foremost (different : opening ≠ closing) (inside : stop ≤ source.size) :
    Answers (source.findMatching opening closing start stop)
      (Foremost (source.Balances opening closing 0 start) start stop) := by
  obtain ⟨found, ran, within⟩ := @findMatching_answers source start stop opening closing inside
  refine ⟨found, ran, within, fun place isPlace => ?_, fun place after before balances => ?_⟩
  · subst isPlace
    have balanced := ((findMatching_eq_some different inside).mp ran).1
    exact (matches_iff_balances different balanced.bounds.1).mp balanced
  · -- A nesting is closed at one place only, so no other place is found.
    have short : place < stop := Nat.lt_of_lt_of_le before within.getD_le
    have balanced := (matches_iff_balances different after).mpr balances
    have also := (findMatching_eq_some different inside).mpr ⟨balanced, short⟩
    obtain rfl := Except.ok.inj (ran.symm.trans also)
    exact Nat.lt_irrefl place before

theorem separates_unopened (different : opening ≠ closing)
    (unopened : ∀ place, start ≤ place → place < stop → ¬ source.Exposed place opening)
    {place : Nat} (after : start ≤ place) (before : place < stop) :
    source.Separates sought opening closing 0 start place ↔ source.Exposed place sought := by
  refine ⟨Separates.separator, fun separator => ⟨separator, ?_⟩⟩
  refine (nesting_eq_zero_iff different after).mpr fun middle from_ _ => ?_
  have none : source.exposures opening middle place = 0 :=
    exposures_eq_zero.mpr fun other later earlier =>
      unopened other (Nat.le_trans from_ later) (Nat.lt_trans earlier before)
  exact none ▸ Nat.zero_le _

/-- The search for a closing character finds the first place that balances the opening
before it, and the search for a separator the first that stands outside of all nestings;
without an opening in the span that is the first bare separator. -/
theorem nesting_searches_foremost (different : opening ≠ closing) (inside : last < source.size) :
    Answers (source.findMatching opening closing (first + 1) (last + 1))
        (Foremost (source.Balances opening closing 0 (first + 1)) (first + 1) (last + 1)) ∧
      ∀ sought,
        Answers (source.findSeparator sought opening closing first (last + 1))
          (Foremost (source.Separates sought opening closing 0 first) first (last + 1)) ∧
        ((∀ place, first ≤ place → place ≤ last → ¬ source.Exposed place opening) →
          source.findSeparator sought opening closing first (last + 1) =
            source.find sought first (last + 1)) := by
  refine ⟨findMatching_foremost different inside, fun sought =>
    ⟨findSeparator_foremost inside, fun unopened => ?_⟩⟩
  obtain ⟨found, ran, foremost⟩ :=
    @findSeparator_foremost source sought opening closing first (last + 1) inside
  obtain ⟨again, alsoRan, also⟩ := @find_foremost source sought first (last + 1) inside
  have bare : Foremost (source.Exposed · sought) first (last + 1) found :=
    foremost.congr fun place after before => separates_unopened different
      (fun other later earlier => unopened other later (Nat.le_of_lt_succ earlier)) after before
  rw [ran, alsoRan, bare.unique also]

/-- Hidden parentheses open and close nothing, and a closing too many does not matter. -/
theorem nesting_searches_foremost_escaped :
    let source := Source.ofString "(\\(a,(b),c),d"
    12 < source.size ∧
      Foremost (source.Balances '(' ')' 0 1) 1 13 (some 10) ∧
      Foremost (source.Separates ',' '(' ')' 0 0) 0 13 (some 11) ∧
      (∀ place, 6 ≤ place → place ≤ 12 → ¬ source.Exposed place '(') ∧
      source.findSeparator ',' '(' ')' 6 13 = source.find ',' 6 13 := by
  intro source
  have inside : 12 < source.size := by decide
  have unopened : ∀ place, 6 ≤ place → place ≤ 12 → ¬ source.Exposed place '(' := by decide
  have matched : source.findMatching '(' ')' 1 13 = .ok (some 10) := by decide
  have separated : source.findSeparator ',' '(' ')' 0 13 = .ok (some 11) := by decide
  obtain ⟨balances, separates⟩ := @nesting_searches_foremost source '(' ')' 0 12 (by decide) inside
  obtain ⟨_, behind⟩ := @nesting_searches_foremost source '(' ')' 6 12 (by decide) inside
  exact ⟨inside, balances.of_ok matched, (separates ',').1.of_ok separated, unopened,
    (behind ',').2 unopened⟩

end Searches

end Stencil.Source
