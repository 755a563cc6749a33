import Stencil.Proofs.LevelBounds

/-!
What the scans of a source find, said on the source alone. A run of text holds no
bare marker, and one that is cut short ends at an opening marker. The end of a
token is the closing marker that balances its opening one, with whole markers
counted from left to right. Between the two stand a name, the sign or the
properties that follow it, the body and the blanks around them, and nothing else.
-/

namespace Stencil

namespace Source

variable {source : Source}

section Blanks

def Blank (source : Source) (start stop : Nat) : Prop :=
  start ≤ stop ∧
    ∀ index, start ≤ index → index < stop → ∃ c, source.HasAt index c ∧ isBlank c = true

theorem Blank.empty (index : Nat) : source.Blank index index :=
  ⟨Nat.le_refl index, fun _ _ _ => by omega⟩

theorem Blank.cons {index stop : Nat} {c : Char} (has : source.HasAt index c)
    (blank : isBlank c = true) (rest : source.Blank (index + 1) stop) :
    source.Blank index stop := by
  refine ⟨Nat.le_of_succ_le rest.1, fun place after before => ?_⟩
  by_cases here : place = index
  · exact here ▸ ⟨c, has, blank⟩
  · exact rest.2 place (by omega) before

theorem Blank.snoc {start index : Nat} {c : Char} (before : source.Blank start index)
    (has : source.HasAt index c) (blank : isBlank c = true) : source.Blank start (index + 1) := by
  refine ⟨Nat.le_succ_of_le before.1, fun place after within => ?_⟩
  by_cases here : place = index
  · exact here ▸ ⟨c, has, blank⟩
  · exact before.2 place after (by omega)

theorem skipBlanksFor_blank (count index : Nat) (enough : source.size - index ≤ count) :
    source.Blank index (source.skipBlanksFor count index) ∧
      ∀ c, source.HasAt (source.skipBlanksFor count index) c → isBlank c = false := by
  induction count generalizing index with
  | zero =>
      refine ⟨.empty index, fun c has => ?_⟩
      have inside : index < source.size := has.inside
      omega
  | succ count ih =>
      unfold skipBlanksFor
      split
      · rename_i blank
        obtain ⟨c, has, isBlank⟩ := (Option.any_eq_true _ _).mp blank
        have rest := ih (index + 1) (by omega)
        exact ⟨rest.1.cons has isBlank, rest.2⟩
      · rename_i stays
        refine ⟨.empty index, fun c has => ?_⟩
        rw [has, Option.any_some] at stays
        exact Bool.eq_false_iff.mpr stays

theorem skipBlanks_blank {index : Nat} : source.Blank index (source.skipBlanks index) :=
  (skipBlanksFor_blank _ index (Nat.le_refl _)).1

theorem skipBlanks_bare {index : Nat} {c : Char} (has : source.HasAt (source.skipBlanks index) c) :
    isBlank c = false :=
  (skipBlanksFor_blank _ index (Nat.le_refl _)).2 c has

theorem skipBlanks_eq {index target : Nat} {c : Char} (before : source.Blank index target)
    (has : source.HasAt target c) (bare : isBlank c = false) :
    source.skipBlanks index = target := by
  have within := skipBlanks_le has bare before.1
  rcases Nat.lt_or_eq_of_le within with short | same
  · obtain ⟨d, hasBlank, blank⟩ := before.2 _ (source.le_skipBlanks index) short
    rw [skipBlanks_bare hasBlank] at blank
    cases blank
  · exact same

theorem retreatBlanks_blank {start index : Nat} {c : Char} (has : source.HasAt start c)
    (bare : isBlank c = false) (ahead : start ≤ index) (inside : index < source.size) :
    Answers (source.retreatBlanks index) fun last => start ≤ last ∧ last ≤ index ∧
      source.Blank (last + 1) (index + 1) ∧ ∀ d, source.HasAt last d → isBlank d = false := by
  induction index with
  | zero =>
      obtain rfl := Nat.le_zero.mp ahead
      exact .ok ⟨Nat.le_refl 0, Nat.le_refl 0, .empty 1, fun d hasD => has.unique hasD ▸ bare⟩
  | succ index ih =>
      refine (read_answers inside).bind fun here isHere => ?_
      split
      · rename_i blank
        -- The first character is no blank, so the scan is not there yet.
        have different : start ≠ index + 1 := by
          rintro rfl
          rw [isHere.unique has, bare] at blank
          cases blank
        refine (ih (by omega) (by omega)).mono fun last found => ?_
        obtain ⟨after, before, blanks, stays⟩ := found
        exact ⟨after, by omega, blanks.snoc isHere blank, stays⟩
      · rename_i stays
        refine .ok ⟨ahead, Nat.le_refl _, .empty _, fun d hasD => ?_⟩
        exact isHere.unique hasD ▸ Bool.eq_false_iff.mpr stays

end Blanks

section Markers

theorem not_both {index : Nat} (opens : source.Marks .opening index) :
    ¬ source.Marks .closing index := by
  intro closes
  have same : '\x7b' = '\x7d' := opens.1.unique closes.1
  cases same

/-- From the position on, with whole markers counted from left to right, the
closing marker at `place` is the first without an opening one, `depth` of which
are open already. -/
inductive Closes (source : Source) : Nat → Nat → Nat → Prop where
  | here (place : Nat) : source.Marks .closing place → Closes source 0 place place
  | opens (depth index place : Nat) : source.Marks .opening index →
      Closes source (depth + 1) (index + 2) place → Closes source depth index place
  | closes (depth index place : Nat) : source.Marks .closing index →
      Closes source depth (index + 2) place → Closes source (depth + 1) index place
  | plain (depth index place : Nat) : ¬ source.Marks .opening index →
      ¬ source.Marks .closing index → Closes source depth (index + 1) place →
      Closes source depth index place

variable {depth index place : Nat}

theorem Closes.bounds (closes : source.Closes depth index place) :
    index ≤ place ∧ source.Marks .closing place := by
  induction closes with
  | here place marks => exact ⟨Nat.le_refl place, marks⟩
  | opens _ _ _ _ _ ih => exact ⟨by omega, ih.2⟩
  | closes _ _ _ _ _ ih => exact ⟨by omega, ih.2⟩
  | plain _ _ _ _ _ _ ih => exact ⟨by omega, ih.2⟩

theorem closes_opening (marks : source.Marks .opening index) :
    source.Closes depth index place ↔ source.Closes (depth + 1) (index + 2) place := by
  refine ⟨fun closes => ?_, .opens depth index place marks⟩
  cases closes with
  | here _ isClosing => exact absurd isClosing (not_both marks)
  | opens _ _ _ _ later => exact later
  | closes _ _ _ isClosing _ => exact absurd isClosing (not_both marks)
  | plain _ _ _ isPlain _ _ => exact absurd marks isPlain

theorem closes_closing (marks : source.Marks .closing index) :
    source.Closes (depth + 1) index place ↔ source.Closes depth (index + 2) place := by
  refine ⟨fun closes => ?_, .closes depth index place marks⟩
  cases closes with
  | opens _ _ _ isOpening _ => exact absurd marks (not_both isOpening)
  | closes _ _ _ _ later => exact later
  | plain _ _ _ _ isPlain _ => exact absurd marks isPlain

theorem closes_here (marks : source.Marks .closing index) :
    source.Closes 0 index place ↔ index = place := by
  constructor
  · intro closes
    cases closes with
    | here => rfl
    | opens _ _ _ isOpening _ => exact absurd marks (not_both isOpening)
    | plain _ _ _ _ isPlain _ => exact absurd marks isPlain
  · rintro rfl
    exact .here index marks

theorem closes_plain (notOpening : ¬ source.Marks .opening index)
    (notClosing : ¬ source.Marks .closing index) :
    source.Closes depth index place ↔ source.Closes depth (index + 1) place := by
  refine ⟨fun closes => ?_, .plain depth index place notOpening notClosing⟩
  cases closes with
  | here _ isClosing => exact absurd isClosing notClosing
  | opens _ _ _ isOpening _ => exact absurd isOpening notOpening
  | closes _ _ _ isClosing _ => exact absurd isClosing notClosing
  | plain _ _ _ _ _ later => exact later

variable {stop : Nat}

theorem closingFor_eq_some (inside : stop ≤ source.size) (count depth index : Nat)
    (enough : stop ≤ index + count) :
    source.closingFor stop count depth index = .ok (some place) ↔
      source.Closes depth index place ∧ place + 2 ≤ stop := by
  have noRoom : ∀ {depth index}, stop < index + 2 →
      ¬ (source.Closes depth index place ∧ place + 2 ≤ stop) := by
    rintro depth index behind ⟨closes, within⟩
    have ahead := closes.bounds.1
    omega
  induction count generalizing depth index with
  | zero => simp [closingFor, noRoom (show stop < index + 2 by omega)]
  | succ count ih =>
      unfold closingFor
      split
      · obtain ⟨opens, ran, isOpening⟩ := @markerAt_answers source index stop .opening inside
        obtain ⟨closes, alsoRan, isClosing⟩ := @markerAt_answers source index stop .closing inside
        rw [ran, ok_bind]
        cases opens with
        | true =>
            rw [if_pos rfl, closes_opening (isOpening.mp rfl).2]
            exact ih (depth + 1) (index + 2) (by omega)
        | false =>
            rw [if_neg Bool.false_ne_true, alsoRan, ok_bind]
            cases closes with
            | true =>
                obtain ⟨room, marks⟩ := isClosing.mp rfl
                rw [if_pos rfl]
                cases depth with
                | zero =>
                    simp only [pure_eq_ok, Except.ok.injEq, Option.some.injEq, closes_here marks]
                    exact ⟨fun same => ⟨same, same ▸ room⟩, And.left⟩
                | succ outer =>
                    rw [closes_closing marks]
                    exact ih outer (index + 2) (by omega)
            | false =>
                rw [if_neg Bool.false_ne_true]
                refine (ih depth (index + 1) (by omega)).trans ?_
                -- A marker that begins here but ends behind the span closes nothing in it.
                by_cases room : index + 2 ≤ stop
                · have notOpening : ¬ source.Marks .opening index := fun marks =>
                    Bool.false_ne_true (isOpening.mpr ⟨room, marks⟩)
                  have notClosing : ¬ source.Marks .closing index := fun marks =>
                    Bool.false_ne_true (isClosing.mpr ⟨room, marks⟩)
                  rw [closes_plain notOpening notClosing]
                · exact iff_of_false (noRoom (by omega)) (noRoom (by omega))
      · simp [noRoom (show stop < index + 2 by omega)]

/-- The closing marker of a token is found exactly where one balances the opening. -/
theorem closing_eq_some {start : Nat} (inside : stop ≤ source.size) :
    source.closing start stop = .ok (some place) ↔
      source.Closes 0 start place ∧ place + 2 ≤ stop :=
  closingFor_eq_some inside (stop - start) 0 start (by omega)

/-- Only one marker closes a token. -/
theorem Closes.unique {start other : Nat} (closes : source.Closes 0 start place)
    (also : source.Closes 0 start other) : place = other := by
  have inside : ∀ {place}, source.Closes 0 start place → place + 2 ≤ source.size :=
    fun closes => closes.bounds.2.2.1.inside
  have found := (closing_eq_some (Nat.le_refl _)).mpr ⟨closes, inside closes⟩
  have foundAlso := (closing_eq_some (Nat.le_refl _)).mpr ⟨also, inside also⟩
  exact Option.some.inj (Except.ok.inj (found.symm.trans foundAlso))

theorem Closes.of_unmarked (marks : source.Marks .closing place) (ahead : index ≤ place)
    (unmarked : ∀ other, index ≤ other → other < place →
      ¬ source.Marks .opening other ∧ ¬ source.Marks .closing other) :
    source.Closes 0 index place := by
  obtain ⟨distance, rfl⟩ := Nat.exists_eq_add_of_le ahead
  induction distance generalizing index with
  | zero => exact .here _ marks
  | succ distance ih =>
      have here := unmarked index (Nat.le_refl index) (by omega)
      have same : index + (distance + 1) = index + 1 + distance := by omega
      rw [same] at marks unmarked ⊢
      refine .plain 0 index _ here.1 here.2 (ih marks (by omega) fun other after before => ?_)
      exact unmarked other (by omega) before

end Markers

/-- A run of text in a span up to `stop`: no bare marker of the span begins in it,
and it ends with the span or at an opening marker. -/
structure Runs (source : Source) (start next stop : Nat) : Prop where
  ahead : start ≤ next
  inside : next ≤ stop
  bare : ∀ index, start ≤ index → index < next → index + 2 ≤ stop →
    ¬ source.Marks .opening index ∧ ¬ source.Marks .closing index
  cut : next < stop → next + 2 ≤ stop ∧ source.Marks .opening next

section Runs

variable {start next stop index : Nat}

theorem runs_opening (room : index + 2 ≤ stop) (marks : source.Marks .opening index) :
    source.Runs index next stop ↔ index = next := by
  constructor
  · intro runs
    rcases Nat.lt_or_eq_of_le runs.ahead with longer | same
    · exact absurd marks (runs.bare index (Nat.le_refl index) longer room).1
    · exact same
  · rintro rfl
    exact ⟨Nat.le_refl index, by omega, fun _ _ _ => by omega, fun _ => ⟨room, marks⟩⟩

theorem not_runs_closing (room : index + 2 ≤ stop) (marks : source.Marks .closing index) :
    ¬ source.Runs index next stop := by
  intro runs
  rcases Nat.lt_or_eq_of_le runs.ahead with longer | rfl
  · exact (runs.bare index (Nat.le_refl index) longer room).2 marks
  · exact not_both (runs.cut (by omega)).2 marks

theorem runs_plain (more : index < stop)
    (plain : index + 2 ≤ stop → ¬ source.Marks .opening index ∧ ¬ source.Marks .closing index) :
    source.Runs index next stop ↔ source.Runs (index + 1) next stop := by
  constructor
  · intro runs
    have ahead : index ≠ next := by
      rintro rfl
      exact (plain (runs.cut more).1).1 (runs.cut more).2
    have notBehind := runs.ahead
    exact ⟨by omega, runs.inside, fun other after => runs.bare other (by omega), runs.cut⟩
  · intro runs
    refine ⟨Nat.le_of_succ_le runs.ahead, runs.inside, fun other after before room => ?_, runs.cut⟩
    by_cases here : other = index
    · exact here ▸ plain (here ▸ room)
    · exact runs.bare other (by omega) before room

end Runs

end Source

namespace Token

variable {source : Source} {start stop closing : Nat}

/-- What stands between the name of a token and its body: a dollar sign, a map of
properties, or neither, and blanks. -/
inductive Joint (source : Source) : Kind → Table String String → Nat → Nat → Prop where
  | sign (start sign stop : Nat) : source.Blank start sign → source.HasAt sign '$' →
      source.Blank (sign + 1) stop → Joint source .variable {} start stop
  | map (start first last stop : Nat) (properties : Table String String) :
      source.Blank start first → source.HasAt first '(' → first < last →
      PropertyMap.read source first (last + 1) = .ok properties → source.Blank (last + 1) stop →
      Joint source .command properties start stop
  | plain (start stop : Nat) : source.Blank start stop → ¬ source.HasAt stop '$' →
      ¬ source.HasAt stop '(' → Joint source .command {} start stop

inductive Trails (source : Source) (closing : Nat) : Nat → Option Span → Prop where
  | none : Trails source closing closing none
  | some (start stop : Nat) : start < stop → source.Blank stop closing →
      Trails source closing start (some ⟨start, stop⟩)

structure Spelled (source : Source) (node : Node) (body : Option Span) (start closing : Nat) :
    Prop where
  opens : source.Marks .opening start
  closes : source.Closes 0 (start + 2) closing
  parts : ∃ (name : Span) (bodyStart : Nat),
    source.Blank (start + 2) name.start ∧ name.start < name.stop ∧
      (∀ c ∈ source.slice name.start name.stop, isNameChar c = true) ∧
      node.text = some (String.ofList (source.slice name.start name.stop)) ∧
      Joint source node.kind node.properties name.stop bodyStart ∧
      Trails source closing bodyStart body

theorem nameSpan_start {name : Span} (read : nameSpan source start = .ok name) :
    name.start = source.skipBlanks start := by
  obtain ⟨here, _, read⟩ := bind_eq_ok.mp read
  split at read
  · cases read
  · obtain ⟨stop, _, read⟩ := bind_eq_ok.mp read
    split at read
    · cases read
    · cases read
      rfl

/-- The body begins behind the sign or the properties of a token, and at no blank. -/
theorem parts_joint {nameStop : Nat} (has : source.HasAt closing '\x7d')
    (ahead : nameStop ≤ closing) {parts : Parts} {properties : Table String String}
    (found : Token.parts source nameStop closing = .ok parts)
    (read : readProperties source parts.properties = .ok properties) :
    Joint source parts.kind properties nameStop parts.bodyStart ∧
      ∃ behind, behind ≤ closing ∧ parts.bodyStart = source.skipBlanks behind := by
  have blanks := @Source.skipBlanks_blank source nameStop
  have within := Source.skipBlanks_le has (by decide) ahead
  obtain ⟨here, isHere, found⟩ := bind_eq_ok.mp found
  obtain ⟨known, same, hasHere⟩ :=
    @Source.read_answers source (source.skipBlanks nameStop) (Nat.lt_of_le_of_lt within has.inside)
  obtain rfl : known = here := Except.ok.inj (same.symm.trans (ofScan_eq_ok.mp isHere))
  split at found
  · rename_i isSign
    subst isSign
    cases found
    cases read
    -- The sign is no brace, so it stands before the closing marker.
    have before : source.skipBlanks nameStop ≠ closing := by
      intro at_
      have clash : '$' = '\x7d' := hasHere.unique (at_ ▸ has)
      cases clash
    exact ⟨.sign _ _ _ blanks hasHere Source.skipBlanks_blank, _, by omega, rfl⟩
  · split at found
    · rename_i isMap
      subst isMap
      obtain ⟨last, isLast, found⟩ := bind_eq_ok.mp found
      have bounds := (Source.findMatching_answers '(' ')' (Nat.le_of_lt has.inside)).of_ok
        (ofScan_eq_ok.mp isLast)
      cases last with
      | none => cases found
      | some last =>
          cases found
          obtain ⟨after, before⟩ := bounds last rfl
          exact ⟨.map _ _ last _ _ blanks hasHere after read Source.skipBlanks_blank, _, before,
            rfl⟩
    · rename_i notSign notMap
      cases found
      cases read
      exact ⟨.plain _ _ blanks (fun isSign => notSign (hasHere.unique isSign))
        fun isMap => notMap (hasHere.unique isMap), _, ahead, rfl⟩

theorem bodySpan_trails {behind : Nat} (has : source.HasAt closing '\x7d')
    (ahead : behind ≤ closing) {body : Option Span}
    (found : bodySpan source (source.skipBlanks behind) closing = .ok body) :
    Trails source closing (source.skipBlanks behind) body := by
  have within := Source.skipBlanks_le has (by decide) ahead
  unfold bodySpan at found
  split at found
  · rename_i more
    have inside := has.inside
    obtain ⟨first, _, hasFirst⟩ :=
      @Source.read_answers source (source.skipBlanks behind) (by omega)
    obtain ⟨last, ran, found⟩ := bind_eq_ok.mp found
    cases found
    obtain ⟨after, _, blanks, _⟩ := (Source.retreatBlanks_blank hasFirst
      (Source.skipBlanks_bare hasFirst) (by omega) (by omega)).of_ok ran
    have same : closing - 1 + 1 = closing := by omega
    exact .some _ _ (by omega) (same ▸ blanks)
  · rename_i none
    cases found
    have same : source.skipBlanks behind = closing := by omega
    exact same ▸ .none

theorem read_spelled (marks : source.Marks .opening start) (inside : stop ≤ source.size)
    {token : Token} (found : Token.read source start stop = .ok token) :
    ∃ closing, token.stop = closing + 2 ∧ closing + 2 ≤ stop ∧
      Spelled source token.node token.body start closing := by
  obtain ⟨place, closes, found⟩ := bind_eq_ok.mp found
  cases place with
  | none => cases found
  | some closing =>
      obtain ⟨closes, room⟩ := (Source.closing_eq_some inside).mp (ofScan_eq_ok.mp closes)
      have has : source.HasAt closing '\x7d' := closes.bounds.2.1
      obtain ⟨name, named, found⟩ := bind_eq_ok.mp found
      obtain ⟨parts, parted, found⟩ := bind_eq_ok.mp found
      obtain ⟨properties, read, found⟩ := bind_eq_ok.mp found
      obtain ⟨body, bodied, found⟩ := bind_eq_ok.mp found
      cases found
      obtain ⟨_, filled, within, valid⟩ :=
        (nameSpan_settles has closes.bounds.1).of_ok named
      obtain ⟨joint, behind, ahead, bodyStart⟩ := parts_joint has within parted read
      rw [bodyStart] at joint
      rw [ofScan_eq_ok, bodyStart] at bodied
      have trails := bodySpan_trails has ahead bodied
      have blanks : source.Blank (start + 2) name.start := by
        rw [nameSpan_start named]
        exact Source.skipBlanks_blank
      exact ⟨closing, rfl, room, marks, closes, name, _, blanks, filled, valid, rfl, joint, trails⟩

end Token

namespace Level

variable {source : Source} {start next stop : Nat}

theorem runStopFor_eq_ok (inside : stop ≤ source.size) (count index : Nat)
    (room : index + count = stop) :
    runStopFor source stop count index = .ok next ↔ source.Runs index next stop := by
  induction count generalizing index with
  | zero =>
      simp only [runStopFor, pure_eq_ok, Except.ok.injEq]
      constructor
      · rintro rfl
        exact ⟨Nat.le_refl index, by omega, fun _ _ _ => by omega, fun _ => by omega⟩
      · intro runs
        have ahead := runs.ahead
        have within := runs.inside
        omega
  | succ count ih =>
      obtain ⟨opens, ran, isOpening⟩ := @Source.markerAt_answers source index stop .opening inside
      obtain ⟨closes, alsoRan, isClosing⟩ :=
        @Source.markerAt_answers source index stop .closing inside
      rw [runStopFor, ran, ofScan_ok, ok_bind]
      cases opens with
      | true =>
          obtain ⟨within, marks⟩ := isOpening.mp rfl
          simp [Source.runs_opening within marks]
      | false =>
          rw [if_neg Bool.false_ne_true, alsoRan, ofScan_ok, ok_bind]
          cases closes with
          | true =>
              obtain ⟨within, marks⟩ := isClosing.mp rfl
              simp [Source.not_runs_closing within marks, Stop.fail]
          | false =>
              rw [if_neg Bool.false_ne_true, Source.runs_plain (by omega) fun within => ?_]
              · exact ih (index + 1) (by omega)
              · exact ⟨fun marks => Bool.false_ne_true (isOpening.mpr ⟨within, marks⟩),
                  fun marks => Bool.false_ne_true (isClosing.mpr ⟨within, marks⟩)⟩

/-- The scan for the end of a run stops exactly where a run does. -/
theorem runStop_eq_ok (inside : stop ≤ source.size) (ordered : start ≤ stop) :
    runStop source start stop = .ok next ↔ source.Runs start next stop :=
  runStopFor_eq_ok inside (stop - start) start (by omega)

end Level

end Stencil
