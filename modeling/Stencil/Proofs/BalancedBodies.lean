import Mathlib.Logic.Relation
import Stencil.Proofs.FailureCauses
import Stencil.Proofs.ReadingEnds

/-!
Bodies that wait to be read are balanced. The scan for the end of a token counts the
markers of its whole inside, and the reading of its body counts them again from the start
of the body on. No marker spans that start, since what stands before it is no brace, and
none spans the end, since what follows is blank or the closing marker itself. So both see
the same markers there: each that is opened in the body is closed in it, and if the
properties before the body hold none, each that is closed in it was opened there.
-/

namespace Stencil

open Relation

namespace Source

variable {source : Source} {depth index place target start middle stop : Nat}

section Balance

/-- The innermost open marker is closed before those around it. -/
theorem Closes.split {count : Nat} (closes : source.Closes count index place) (inner : Nat)
    (nested : count = depth + inner + 1) :
    ∃ between, source.Closes inner index between ∧ source.Closes depth (between + 2) place := by
  induction closes generalizing inner with
  | here => omega
  | opens count index place marks _ ih =>
      obtain ⟨between, first, second⟩ := ih (inner + 1) (by omega)
      exact ⟨between, .opens inner index between marks first, second⟩
  | closes count index place marks later ih =>
      cases inner with
      | zero =>
          obtain rfl : count = depth := by omega
          exact ⟨index, .here index marks, later⟩
      | succ inner =>
          obtain ⟨between, first, second⟩ := ih inner (by omega)
          exact ⟨between, .closes inner index between marks first, second⟩
  | plain count index place notOpening notClosing _ ih =>
      obtain ⟨between, first, second⟩ := ih inner nested
      exact ⟨between, .plain inner index between notOpening notClosing first, second⟩

def Unmarked (source : Source) (index : Nat) : Prop :=
  ¬ source.Marks .opening index ∧ ¬ source.Marks .closing index

theorem Closes.onward (closes : source.Closes depth index place) (ahead : index ≤ target)
    (within : target ≤ place)
    (unmarked : ∀ other, index ≤ other → other < target → source.Unmarked other) :
    source.Closes depth target place := by
  obtain ⟨distance, rfl⟩ := Nat.exists_eq_add_of_le ahead
  induction distance generalizing index with
  | zero => exact closes
  | succ distance ih =>
      have here := unmarked index (Nat.le_refl index) (by omega)
      have same : index + (distance + 1) = index + 1 + distance := by omega
      rw [same] at within unmarked ⊢
      exact ih ((closes_plain here.1 here.2).mp closes) (by omega) within
        fun other after => unmarked other (by omega)

theorem Closes.stopover (closes : source.Closes depth index place) (ahead : index ≤ target)
    (within : target ≤ place) (apart : ∀ before, before + 1 = target → source.Unmarked before) :
    ∃ more, source.Closes more target place := by
  induction closes with
  | here place marks =>
      obtain rfl : target = place := by omega
      exact ⟨0, .here target marks⟩
  | opens depth index place marks later ih =>
      rcases Nat.lt_or_eq_of_le ahead with more | rfl
      · have past : index + 1 ≠ target := fun spans => (apart index spans).1 marks
        exact ih (by omega) within
      · exact ⟨depth, .opens depth index place marks later⟩
  | closes depth index place marks later ih =>
      rcases Nat.lt_or_eq_of_le ahead with more | rfl
      · have past : index + 1 ≠ target := fun spans => (apart index spans).2 marks
        exact ih (by omega) within
      · exact ⟨depth + 1, .closes depth index place marks later⟩
  | plain depth index place notOpening notClosing later ih =>
      rcases Nat.lt_or_eq_of_le ahead with more | rfl
      · exact ih more within
      · exact ⟨depth, .plain depth index place notOpening notClosing later⟩

end Balance

section Plain

def Plain (source : Source) (start stop : Nat) : Prop :=
  ∀ index, start ≤ index → index < stop → ∃ c, source.HasAt index c ∧ isBrace c = false

theorem Plain.empty (index : Nat) : source.Plain index index := fun _ _ _ => by omega

theorem Plain.append (first : source.Plain start middle) (second : source.Plain middle stop) :
    source.Plain start stop := by
  intro index after before
  by_cases early : index < middle
  · exact first index after early
  · exact second index (by omega) before

theorem Plain.one {c : Char} (has : source.HasAt index c) (noBrace : isBrace c = false) :
    source.Plain index (index + 1) := by
  intro other after before
  obtain rfl : other = index := by omega
  exact ⟨c, has, noBrace⟩

theorem Blank.plain (blanks : source.Blank start stop) : source.Plain start stop := by
  intro index after before
  obtain ⟨c, has, blank⟩ := blanks.2 index after before
  refine ⟨c, has, Bool.eq_false_iff.mpr fun brace => ?_⟩
  rw [Text.not_blank_of_brace brace] at blank
  cases blank

theorem plain_of_name (inside : stop ≤ source.size)
    (named : ∀ c ∈ source.slice start stop, isNameChar c = true) : source.Plain start stop := by
  intro index after before
  obtain ⟨c, has⟩ := exists_hasAt (show index < source.size by omega)
  have name := named c (has.mem_slice after before)
  refine ⟨c, has, Bool.eq_false_iff.mpr fun brace => ?_⟩
  simp only [isBrace, Bool.or_eq_true, beq_iff_eq] at brace
  rcases brace with rfl | rfl <;> cases name

theorem Plain.unmarked (plain : source.Plain start stop) (after : start ≤ index)
    (before : index < stop) : source.Unmarked index := by
  obtain ⟨c, has, noBrace⟩ := plain index after before
  constructor
  all_goals
    intro marks
    obtain rfl := has.unique marks.1
    cases noBrace

end Plain

end Source

namespace Token

variable {source : Source} {start stop closing nameStop : Nat}

def HasProperties (source : Source) (start stop : Nat) (span : Span) : Prop :=
  ∃ closing name parts, source.closing (start + 2) stop = .ok (some closing) ∧
    nameSpan source (start + 2) = .ok name ∧ Token.parts source name.stop closing = .ok parts ∧
    parts.properties = some span

theorem parts_plain {parts : Parts} (has : source.HasAt closing '\x7d')
    (found : Token.parts source nameStop closing = .ok parts) (noMap : parts.properties = none) :
    source.Plain nameStop parts.bodyStart := by
  have before := (@Source.skipBlanks_blank source nameStop).plain
  rcases parts_cases has found with ⟨isSign, rfl⟩ | ⟨last, _, _, _, rfl⟩ | rfl
  · exact (before.append (.one isSign rfl)).append Source.skipBlanks_blank.plain
  · cases noMap
  · exact before

/-- Between its opening marker and its body a token has no brace but among its properties. -/
def Heads (source : Source) (start : Nat) (properties : Option Span) (body : Nat) : Prop :=
  ∃ first last, start ≤ first ∧ first ≤ last ∧ last < body ∧
    source.Plain start first ∧ source.Plain last body ∧
    ∀ index, first ≤ index → index < last → ∃ span, properties = some span ∧
      span.start ≤ index ∧ index + 2 ≤ span.stop

theorem parts_heads {parts : Parts} (has : source.HasAt closing '\x7d')
    (found : Token.parts source nameStop closing = .ok parts) (filled : start < nameStop)
    (within : nameStop ≤ closing) (named : source.Plain start nameStop) :
    Heads source start parts.properties parts.bodyStart := by
  cases isMap : parts.properties with
  | none =>
      have ahead := ((parts_settles has within).of_ok found).2.1
      refine ⟨start, start, Nat.le_refl _, Nat.le_refl _, by omega, .empty start, ?_, ?_⟩
      · exact named.append (parts_plain has found isMap)
      · exact fun _ _ _ => by omega
  | some span =>
      obtain ⟨last, ends, opens, closes, ordered, _, blanks, begins⟩ := parts_map has found isMap
      have behind := source.le_skipBlanks span.stop
      have after := blanks.1
      refine ⟨span.start + 1, last, by omega, by omega, by omega, ?_, ?_, ?_⟩
      · exact (named.append blanks.plain).append (.one opens rfl)
      · rw [begins, ends]
        exact (Source.Plain.one closes.1 rfl).append Source.skipBlanks_blank.plain
      · exact fun index _ _ => ⟨span, rfl, by omega, by omega⟩

theorem read_body (inside : stop ≤ source.size) {token : Token}
    (found : Token.read source start stop = .ok token) {body : Span}
    (isBody : token.body = some body) :
    ∃ closing properties, token.stop = closing + 2 ∧ source.Closes 0 (start + 2) closing ∧
      body.start < body.stop ∧ source.Blank body.stop closing ∧
      Heads source (start + 2) properties body.start ∧
      ∀ span, properties = some span → HasProperties source start stop span := by
  obtain ⟨place, closes, found⟩ := bind_eq_ok.mp found
  cases place with
  | none => cases found
  | some closing =>
      obtain ⟨balances, room⟩ := (Source.closing_eq_some inside).mp (ofScan_eq_ok.mp closes)
      have has : source.HasAt closing '\x7d' := balances.bounds.2.1
      obtain ⟨name, named, found⟩ := bind_eq_ok.mp found
      obtain ⟨parts, parted, found⟩ := bind_eq_ok.mp found
      obtain ⟨properties, read, found⟩ := bind_eq_ok.mp found
      obtain ⟨bodySpan, bodied, found⟩ := bind_eq_ok.mp found
      cases found
      obtain ⟨after, filled, within, valid⟩ :=
        (nameSpan_settles has balances.bounds.1).of_ok named
      obtain ⟨_, behind, ahead, bodyStart⟩ := parts_joint has within parted read
      rw [ofScan_eq_ok, bodyStart] at bodied
      have trails := bodySpan_trails has ahead bodied
      rw [show bodySpan = some body from isBody, ← bodyStart] at trails
      have inName := Source.plain_of_name (by omega) valid
      have before : source.Plain (start + 2) name.start := by
        rw [nameSpan_start named]
        exact Source.skipBlanks_blank.plain
      have heads := parts_heads has parted (show start + 2 < name.stop by omega) within
        (before.append inName)
      cases trails with
      | some bodyStart bodyStop more blanks =>
          exact ⟨closing, parts.properties, rfl, balances, more, blanks, heads,
            fun span isMap => ⟨closing, name, parts, ofScan_eq_ok.mp closes, named, parted, isMap⟩⟩

theorem Heads.apart {properties : Option Span} {body : Nat}
    (heads : Heads source start properties body) {before : Nat} (spans : before + 1 = body) :
    source.Unmarked before := by
  obtain ⟨first, last, _, _, short, _, plain, _⟩ := heads
  exact plain.unmarked (by omega) (by omega)

/-- If the properties hold no marker, no marker stands before the body. -/
theorem Heads.unmarked {properties : Option Span} {body : Nat}
    (heads : Heads source start properties body)
    (bare : ∀ span, properties = some span →
      ∀ index, span.start ≤ index → index + 2 ≤ span.stop → source.Unmarked index)
    {index : Nat} (after : start ≤ index) (before : index < body) : source.Unmarked index := by
  obtain ⟨first, last, _, _, _, head, tail, among⟩ := heads
  by_cases early : index < first
  · exact head.unmarked after early
  by_cases late : last ≤ index
  · exact tail.unmarked late before
  · obtain ⟨span, isMap, ahead, behind⟩ := among index (by omega) (by omega)
    exact bare span isMap index ahead behind

end Token

namespace Level

variable {source : Source} {span : Span} {closing depth index : Nat} {failure : Failure}

section Body

variable (inside : span.stop ≤ source.size) (blanks : source.Blank span.stop closing)
include inside blanks

/-- Wherever the reading of a body comes to, as many markers of the token around it are
open as at the start of the body. -/
theorem Passes.closes (begins : source.Closes depth span.start closing)
    (passes : Passes source span.stop span.start index) (more : index < span.stop) :
    source.Closes depth index closing := by
  induction passes with
  | start => exact begins
  | text index next _ runs ih =>
      have ahead := runs.ahead
      have ends := blanks.1
      refine (ih (by omega)).onward ahead (by omega) fun other after before => ?_
      exact runs.bare other after before (by omega)
  | token index token _ room opens read ih =>
      obtain ⟨place, stops, _, spelled⟩ := Token.read_spelled opens inside read
      have around := (Source.closes_opening opens).mp (ih (by omega))
      obtain ⟨between, balances, onward⟩ := around.split 0 rfl
      rw [stops, spelled.closes.unique balances]
      exact onward

theorem read_closed (begins : source.Closes depth span.start closing)
    (failed : Level.read source span = .error (.failure failure)) :
    failure.status ≠ .tokenEndMissing := by
  obtain ⟨place, passes, ⟨room, opens, failed⟩ | failed⟩ := read_failure inside failed
  · rcases Token.read_failure inside failed with ⟨_, unclosed⟩ | ⟨_, _, _, misspelt, _⟩
    · have around := (Source.closes_opening opens).mp
        (passes.closes inside blanks begins (by omega))
      obtain ⟨between, balances, onward⟩ := around.split 0 rfl
      -- The second brace of the closing marker is no blank, so it stands within the body.
      have ends := onward.bounds.1
      have short := unclosed between balances
      have hasSecond : source.HasAt (between + 1) '\x7d' := balances.bounds.2.2.1
      obtain ⟨c, has, blank⟩ := blanks.2 (between + 1) (by omega) (by omega)
      obtain rfl := has.unique hasSecond
      cases blank
    · exact misspelt.marked.2
  · rw [(runStopFor_failure inside _ _ failed).1]
    exact Status.noConfusion

theorem read_opened (begins : source.Closes 0 span.start closing)
    (failed : Level.read source span = .error (.failure failure)) :
    failure.status ≠ .tokenBeginMissing := by
  obtain ⟨place, passes, ⟨room, opens, failed⟩ | failed⟩ := read_failure inside failed
  · rcases Token.read_failure inside failed with ⟨rfl, _⟩ | ⟨_, _, _, misspelt, _⟩
    · exact Status.noConfusion
    · exact misspelt.marked.1
  · obtain ⟨_, ahead, room, marks, unmarked⟩ := runStopFor_failure inside _ _ failed
    have ends := blanks.1
    have here := (passes.closes inside blanks begins (by omega)).onward ahead (by omega) unmarked
    -- The marker would close the token around the body.
    have same := (Source.closes_here marks).mp here
    omega

end Body

end Level

namespace Level

variable {source : Source} {outer span : Span}

/-- The levels of an outermost one: itself, and the bodies of the tokens in them. -/
inductive Within (source : Source) (outer : Span) : Span → Prop where
  | outer : Within source outer outer
  | body (span body : Span) (index : Nat) (token : Token) : Within source outer span →
      Accepts source span index token → token.body = some body → Within source outer body

def Inner (source : Source) (outer body : Span) : Prop :=
  ∃ span index token, Within source outer span ∧ Accepts source span index token ∧
    token.body = some body

/-- No token that is accepted anywhere has a marker among its properties. -/
def BareProperties (source : Source) (outer : Span) : Prop :=
  ∀ span index token properties, Within source outer span → Accepts source span index token →
    Token.HasProperties source index span.stop properties →
    ∀ place, properties.start ≤ place → place + 2 ≤ properties.stop → source.Unmarked place

theorem Within.inside (within : Within source outer span) (inside : outer.stop ≤ source.size) :
    span.stop ≤ source.size := by
  induction within with
  | outer => exact inside
  | body span body index token _ accepts isBody ih =>
      have fits := (Token.read_settles accepts.room ih).of_ok accepts.read
      exact Nat.le_trans (fits.body body isBody).1 ih

end Level

namespace Store

variable {checks : Bool} {source : Source} {store : Store} {outer body : Span}
variable {failure : Failure}

def Works (checks : Bool) (source : Source) (state next : List Waiting × Store) : Prop :=
  bodiesTurn checks source state = .ok (.again next)

theorem readLevel_failure
    (failed : readLevel checks source store body = .error (.failure failure)) :
    Level.read source body = .error (.failure failure) := by
  rcases bind_eq_error.mp failed with failed | ⟨pieces, _, failed⟩
  · exact failed
  · generalize layOut checks store none pieces = laid at failed
    cases laid <;> cases failed

section Bodies

variable (inside : outer.stop ≤ source.size)
include inside

theorem readLevel_inner {span : Span} {level : Store × List Waiting}
    (within : Level.Within source outer span)
    (read : readLevel checks source store span = .ok level) :
    ∀ waiting ∈ level.2, Level.Inner source outer waiting.span := by
  obtain ⟨pieces, levelRead, _⟩ := bind_eq_ok.mp read
  obtain ⟨laid, ran, _⟩ := readLevel_spec checks store levelRead
  obtain rfl := Except.ok.inj (read.symm.trans ran)
  intro waiting member
  obtain ⟨_, piece, isPiece, isBody⟩ := mem_rowBodies member
  obtain ⟨index, token, accepts, isTokenBody⟩ :=
    Level.read_accepts (within.inside inside) levelRead isPiece isBody
  exact ⟨span, index, token, within, accepts, isTokenBody⟩

/-- What waits at any time is the body of a token. -/
theorem works_inner {level : Store × List Waiting} {state : List Waiting × Store}
    (read : readLevel checks source store outer = .ok level)
    (works : ReflTransGen (Works checks source) (level.2, level.1) state) :
    ∀ waiting ∈ state.1, Level.Inner source outer waiting.span := by
  induction works with
  | refl => exact readLevel_inner inside .outer read
  | @tail state next _ turn ih =>
      obtain ⟨waits, more⟩ := state
      cases waits with
      | nil => cases turn
      | cons first rest =>
          obtain ⟨level, read, turn⟩ := bind_eq_ok.mp turn
          obtain ⟨filled, _, turn⟩ := bind_eq_ok.mp turn
          cases turn
          obtain ⟨span, index, token, within, accepts, isBody⟩ := ih first List.mem_cons_self
          intro waiting member
          rcases List.mem_append.mp member with inLevel | later
          · exact readLevel_inner inside (.body span _ index token within accepts isBody) read
              waiting inLevel
          · exact ih waiting (List.mem_cons_of_mem first later)

/-- The body of a token has a closing marker for each opening one, and it has an opening
one for each closing one if the properties hold none. -/
theorem inner_balanced (inner : Level.Inner source outer body)
    (failed : readLevel checks source store body = .error (.failure failure)) :
    failure.status ≠ .tokenEndMissing ∧
      (Level.BareProperties source outer → failure.status ≠ .tokenBeginMissing) := by
  obtain ⟨span, index, token, within, accepts, isBody⟩ := inner
  have spanInside := within.inside inside
  have bodyInside := (Level.Within.body span body index token within accepts isBody).inside inside
  obtain ⟨closing, properties, _, closes, filled, blanks, heads, isMap⟩ :=
    Token.read_body spanInside accepts.read isBody
  have ahead : index + 2 ≤ body.start := by
    obtain ⟨first, last, early, middle, late, _⟩ := heads
    omega
  have before : body.start ≤ closing := Nat.le_trans (Nat.le_of_lt filled) blanks.1
  have levelFailed := readLevel_failure failed
  constructor
  · obtain ⟨depth, begins⟩ := closes.stopover ahead before fun place => heads.apart
    exact Level.read_closed bodyInside blanks begins levelFailed
  · intro bare
    have begins := closes.onward ahead before fun place => heads.unmarked fun properties isSome =>
      bare span index token properties within accepts (isMap properties isSome)
    exact Level.read_opened bodyInside blanks begins levelFailed

end Bodies

theorem fillBodies_failure (count : Nat) (waiting : List Waiting)
    (failed : fillBodies checks source count waiting store = .error (.failure failure)) :
    ∃ first rest more, ReflTransGen (Works checks source) (waiting, store) (first :: rest, more) ∧
      readLevel checks source more first.span = .error (.failure failure) := by
  induction count generalizing waiting store with
  | zero => cases waiting <;> cases failed
  | succ count ih =>
      cases waiting with
      | nil => cases failed
      | cons first rest =>
          rcases bind_eq_error.mp failed with failed | ⟨level, read, failed⟩
          · exact ⟨first, rest, store, .refl, failed⟩
          · obtain ⟨filled, fills, failed⟩ := scan_failure failed
            obtain ⟨later, others, more, works, failed⟩ := ih _ failed
            refine ⟨later, others, more, .head ?_ works, failed⟩
            rw [Works, bodiesTurn, read, ok_bind]
            simp only [fills, ofScan_ok, ok_bind, pure_eq_ok]

theorem parseSpan_failure (inside : outer.stop ≤ source.size)
    (failed : parseSpan checks source store outer = .error (.failure failure)) :
    Level.read source outer = .error (.failure failure) ∨
      ∃ body more, Level.Inner source outer body ∧
        readLevel checks source more body = .error (.failure failure) := by
  rcases bind_eq_error.mp failed with failed | ⟨level, read, failed⟩
  · exact Or.inl (readLevel_failure failed)
  rcases bind_eq_error.mp failed with failed | ⟨filled, _, failed⟩
  · obtain ⟨first, rest, more, works, failed⟩ := fillBodies_failure _ _ failed
    have inner := works_inner inside read works first List.mem_cons_self
    exact Or.inr ⟨first.span, more, inner, failed⟩
  · cases failed

/-- However far the work list has got, the body in front of it is balanced: reading it
never misses the end of a token, and it misses no beginning either unless a token has
markers among its properties. So where a parse fails for one of these, the outermost
level does. -/
theorem waiting_balanced (checks : Bool) (source : Source) (store : Store) (outer : Span)
    (inside : outer.stop ≤ source.size) :
    (∀ level first rest more position,
      readLevel checks source store outer = .ok level →
      ReflTransGen (Works checks source) (level.2, level.1) (first :: rest, more) →
      readLevel checks source more first.span ≠ .error (.failure ⟨.tokenEndMissing, position⟩) ∧
      (Level.BareProperties source outer → readLevel checks source more first.span ≠
        .error (.failure ⟨.tokenBeginMissing, position⟩))) ∧
    ∀ failure, parseSpan checks source store outer = .error (.failure failure) →
      failure.status = .tokenEndMissing ∨
        Level.BareProperties source outer ∧ failure.status = .tokenBeginMissing →
      Level.read source outer = .error (.failure failure) := by
  refine ⟨fun level first rest more position read works => ?_, fun failure failed status => ?_⟩
  · have inner := works_inner inside read works first List.mem_cons_self
    exact ⟨fun failed => (inner_balanced inside inner failed).1 rfl,
      fun bare failed => (inner_balanced inside inner failed).2 bare rfl⟩
  · rcases parseSpan_failure inside failed with failed | ⟨body, more, inner, failed⟩
    · exact failed
    · obtain ⟨closed, opened⟩ := inner_balanced inside inner failed
      rcases status with isEnd | ⟨bare, isBegin⟩
      · exact absurd isEnd closed
      · exact absurd isBegin (opened bare)

/-- A body with a token in it waits behind the first level. -/
theorem waiting_balanced_nested :
    let source := Source.ofString "\x7b\x7ba \x7b\x7bb\x7d\x7d \x7d\x7d"
    ∃ level, readLevel true source {} ⟨0, 12⟩ = .ok level ∧ level.2 = [⟨0, ⟨4, 9⟩⟩] ∧
      ∀ position, readLevel true source level.1 ⟨4, 9⟩ ≠
        .error (.failure ⟨.tokenEndMissing, position⟩) := by
  intro source
  have balanced := waiting_balanced true source {} ⟨0, 12⟩ (by decide)
  refine ⟨_, rfl, rfl, fun position => ?_⟩
  exact (balanced.1 _ ⟨0, ⟨4, 9⟩⟩ [] _ position rfl .refl).1

end Store

end Stencil
