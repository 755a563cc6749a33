import Stencil.Proofs.AlikeChains
import Stencil.Proofs.DocumentSeam

/-!
Walks along a document. A walk renders the elements of a chain one after the other, each
in the world that the ones before it left behind. So a walk along two chains that are
joined is a walk along the first and then along the second, if the texts at the seam lose
their escapes each by itself.
-/

namespace Stencil

theorem Yields.unique {Value : Type} {step : Nat → Option Value} {value other : Value}
    (first : Yields step value) (second : Yields step other) : value = other := by
  obtain ⟨bound, enough⟩ := first
  obtain ⟨otherBound, otherEnough⟩ := second
  have ran := enough (max bound otherBound) (Nat.le_max_left _ _)
  rw [otherEnough (max bound otherBound) (Nat.le_max_right _ _)] at ran
  exact (Option.some.inj ran).symm

theorem Yields.ran {Value : Type} {step : Nat → Option Value} {value : Value}
    (yields : Yields step value) : ∃ fuel, step (fuel + 1) = some value := by
  obtain ⟨bound, enough⟩ := yields
  exact ⟨bound, enough (bound + 1) (Nat.le_succ bound)⟩

theorem Yields.reads {Value Other : Type} {step : Nat → Option (Value × Other)}
    {value result : Value} {other : Other} (yields : Yields step (value, other)) (count : Nat)
    (ends : ∀ fuel, (step (fuel + count)).map Prod.fst = some result) : value = result := by
  obtain ⟨bound, enough⟩ := yields
  have shown := ends bound
  rw [enough (bound + count) (Nat.le_add_right bound count)] at shown
  exact Option.some.inj shown

namespace World

open Store

def Walks (settings : Settings) (world : World) : Option ElementId → String → World → Prop
  | none, output, after => output = "" ∧ after = world
  | some id, output, after =>
      Yields (fun fuel => renderFrom settings fuel world id true) (.ok output, after)

section Steps

variable {settings : Settings} {world between after : World} {region : ElementId → Prop}
variable {start other : Option ElementId} {id otherId : ElementId} {node : Node}
variable {output : String} {forest body : Forest}

theorem renderOne_yields {fuel : Nat} {rendered : Rendered}
    (ran : renderOne settings fuel world id = some rendered) :
    Yields (fun fuel => renderOne settings fuel world id) rendered :=
  yields_of_some (fun fuel => (lasts settings fuel).one world id rendered) ran

theorem renderFrom_yields {fuel : Nat} {rendered : Rendered}
    (ran : renderFrom settings fuel world id true = some rendered) :
    Yields (fun fuel => renderFrom settings fuel world id true) rendered :=
  yields_of_some (fun fuel => (lasts settings fuel).follow world id true rendered) ran

/-- A walk renders its first element and then goes on from the next one. -/
theorem walks_iff : Walks settings world (some id) output after ↔
    ∃ first between rest, Yields (fun fuel => renderOne settings fuel world id)
        (.ok first, between) ∧
      Walks settings between (between.store.next id) rest after ∧ output = first ++ rest := by
  constructor
  · intro walks
    obtain ⟨fuel, ran⟩ := walks.ran
    simp only [renderFrom] at ran
    obtain ⟨⟨first | first, between⟩, one, later⟩ := Option.bind_eq_some_iff.mp ran
    · cases later
    · refine ⟨first, between, ?_⟩
      simp only [if_true] at later
      cases isNext : between.store.next id with
      | none =>
          rw [isNext] at later
          cases later
          exact ⟨"", renderOne_yields one, ⟨rfl, rfl⟩, by simp⟩
      | some next =>
          rw [isNext] at later
          obtain ⟨⟨rest | rest, behind⟩, follows, done⟩ := Option.bind_eq_some_iff.mp later
          · cases done
          · cases done
            exact ⟨rest, renderOne_yields one, renderFrom_yields follows, rfl⟩
  · rintro ⟨first, between, rest, one, walks, rfl⟩
    cases isNext : between.store.next id with
    | none =>
        rw [isNext] at walks
        obtain ⟨rfl, rfl⟩ := walks
        refine one.next fun fuel ran => ?_
        simp [renderFrom, ran, isNext]
    | some next =>
        rw [isNext] at walks
        refine one.both walks fun fuel ran ranOn => ?_
        simp [renderFrom, ran, isNext, ranOn]

/-- Walks along chains that stand for the same forest come to the same. -/
theorem Walks.alike (walks : Walks settings world start output after) (aloof : Aloof region world)
    (lies : world.store.Lies region start forest)
    (otherLies : world.store.Lies region other forest) :
    Walks settings world other output after := by
  cases forest with
  | nil =>
      obtain rfl := lies.of_nil
      obtain rfl := otherLies.of_nil
      exact walks
  | cons node body rest =>
      obtain ⟨id, rfl, _⟩ := lies.first
      obtain ⟨otherId, rfl, _⟩ := otherLies.first
      obtain ⟨bound, enough⟩ := walks
      refine ⟨bound, fun fuel more => ?_⟩
      have same := (alike settings region fuel).follow world id otherId _ aloof lies otherLies
      exact same.symm.trans (enough fuel more)

theorem renderOne_alike_yields {rendered : Rendered}
    (yields : Yields (fun fuel => renderOne settings fuel world id) rendered)
    (aloof : Aloof region world) (tells : world.store.Tells region id node body)
    (otherTells : world.store.Tells region otherId node body) :
    Yields (fun fuel => renderOne settings fuel world otherId) rendered := by
  obtain ⟨bound, enough⟩ := yields
  refine ⟨bound, fun fuel more => ?_⟩
  have same := (alike settings region fuel).one world id otherId node body aloof tells otherTells
  exact same.symm.trans (enough fuel more)

theorem text_yields (tells : world.store.Tells region id node body) (isKind : node.kind = .text)
    {text : String} (isText : node.text = some text) :
    Yields (fun fuel => renderOne settings fuel world id) (.ok (Text.unescape text), world) := by
  refine .now fun fuel => ?_
  simp [renderOne, tells.kind?, tells.text, isKind, isText]

theorem text_cases (yields : Yields (fun fuel => renderOne settings fuel world id)
    (.ok output, after)) (tells : world.store.Tells region id node body)
    (isKind : node.kind = .text) :
    ∃ text, node.text = some text ∧ output = Text.unescape text ∧ after = world := by
  cases isText : node.text with
  | none =>
      obtain ⟨fuel, ran⟩ := yields.ran
      simp [renderOne, tells.kind?, tells.text, isKind, isText] at ran
  | some text =>
      have same := yields.unique (text_yields tells isKind isText)
      obtain ⟨isOutput, rfl⟩ := Prod.mk.inj same
      exact ⟨text, rfl, Except.ok.inj isOutput, rfl⟩

theorem one_untouched (aloof : Aloof region world) {answer : Except Fault String}
    (yields : Yields (fun fuel => renderOne settings fuel world id) (answer, after)) :
    Untouched region world after := by
  obtain ⟨fuel, ran⟩ := yields.ran
  exact renderOne_untouched aloof ran

end Steps

section Join

variable {settings : Settings} {region : ElementId → Prop}

/-- The texts at the seam of two chains lose their escapes each by itself. -/
def Seamless (forest other : Forest) : Prop :=
  ∀ last next, forest.lastText = some last → other.firstText = some next →
    Text.unescape (last ++ next) = Text.unescape last ++ Text.unescape next

theorem walks_meet {world between after : World} {id : ElementId} {next joined : Option ElementId}
    {node : Node} {body other : Forest} {output otherOutput : String} (aloof : Aloof region world)
    (seamless : Seamless (.cons node body .nil) other) (filled : other ≠ .nil)
    (tells : world.store.Tells region id node body)
    (otherLies : world.store.Lies region next other)
    (joinedLies : world.store.Lies region joined (Forest.meet node body other))
    (one : Yields (fun fuel => renderOne settings fuel world id) (.ok output, between))
    (otherWalks : Walks settings between next otherOutput after) :
    Walks settings world joined (output ++ otherOutput) after := by
  have left := one_untouched aloof one
  have still := left.cells aloof
  have quiet := left.aloof aloof
  cases other with
  | nil => exact absurd rfl filled
  | cons otherNode otherBody rest =>
      obtain ⟨otherId, rfl, _⟩ := otherLies.first
      obtain ⟨otherTells, beside⟩ := (otherLies.kept still).tells
      have otherSteps := walks_iff.mp otherWalks
      simp only [Forest.meet] at joinedLies
      split at joinedLies
      · rename_i texts
        obtain ⟨text, isText, rfl, rfl⟩ := text_cases one tells texts.1
        obtain ⟨_, _, restOutput, otherOne, restWalks, rfl⟩ := otherSteps
        obtain ⟨otherText, isOther, rfl, rfl⟩ := text_cases otherOne otherTells texts.2
        obtain ⟨joinedId, rfl, joinedTells, joinedBeside⟩ := joinedLies.first
        have both : (node.joined otherNode).text = some (text ++ otherText) := by
          simp [Node.joined, isText, isOther]
        have apart := seamless text otherText (by simp [Forest.lastText, texts.1, isText])
          (by simp [Forest.firstText, texts.2, isOther])
        refine walks_iff.mpr ⟨_, _, restOutput, text_yields joinedTells texts.1 both,
          restWalks.alike aloof beside joinedBeside, ?_⟩
        rw [apart, String.append_assoc]
      · split at joinedLies
        · rename_i vacant
          obtain ⟨text, isText, rfl, rfl⟩ := text_cases one tells vacant.1
          obtain rfl := Option.some.inj (isText.symm.trans vacant.2)
          exact otherWalks.alike aloof otherLies joinedLies
        · -- The element is rendered as before, and what follows it begins with the other
          -- chain or, if that begins with a vacant text, behind this text.
          have onward : ∀ {rest : Forest} {restOutput : String},
              world.store.Lies region joined (.cons node body rest) →
              (∀ start, between.store.Lies region start rest →
                Walks settings between start restOutput after) →
              Walks settings world joined (output ++ restOutput) after := by
            intro rest restOutput joinedLies walks
            obtain ⟨joinedId, rfl, joinedTells, _⟩ := joinedLies.first
            have oneJoined := renderOne_alike_yields one aloof tells joinedTells
            have behind := (joinedLies.kept still).tells.2
            exact walks_iff.mpr ⟨_, _, _, oneJoined, walks _ behind, rfl⟩
          split at joinedLies
          · rename_i vacant
            obtain ⟨_, _, restOutput, otherOne, restWalks, rfl⟩ := otherSteps
            obtain ⟨text, isText, rfl, rfl⟩ := text_cases otherOne otherTells vacant.1
            obtain rfl := Option.some.inj (isText.symm.trans vacant.2)
            exact onward joinedLies fun _ behind => restWalks.alike quiet beside behind
          · exact onward joinedLies fun _ behind =>
              otherWalks.alike quiet (otherLies.kept still) behind

/-- Walks along two chains make a walk along the joined chain. -/
theorem walks_join {forest other : Forest} {world between after : World}
    {start next joined : Option ElementId} {output otherOutput : String}
    (aloof : Aloof region world) (seamless : Seamless forest other) (filled : other ≠ .nil)
    (lies : world.store.Lies region start forest) (otherLies : world.store.Lies region next other)
    (joinedLies : world.store.Lies region joined (forest.join other))
    (walks : Walks settings world start output between)
    (otherWalks : Walks settings between next otherOutput after) :
    Walks settings world joined (output ++ otherOutput) after := by
  induction forest generalizing world start joined output with
  | nil =>
      obtain rfl := lies.of_nil
      obtain ⟨rfl, rfl⟩ := walks
      rw [String.empty_append]
      exact otherWalks.alike aloof otherLies joinedLies
  | cons node body rest _ ih =>
      obtain ⟨id, rfl, tells, _⟩ := lies.first
      obtain ⟨first, middle, restOutput, one, restWalks, rfl⟩ := walks_iff.mp walks
      have left := one_untouched aloof one
      have still := left.cells aloof
      have beside := (lies.kept still).tells.2
      by_cases ends : rest = .nil
      · subst ends
        rw [beside.of_nil] at restWalks
        obtain ⟨rfl, rfl⟩ := restWalks
        rw [String.append_empty]
        exact walks_meet aloof seamless filled tells otherLies joinedLies one otherWalks
      · rw [Forest.join_cons node body ends] at joinedLies
        obtain ⟨joinedId, rfl, joinedTells, _⟩ := joinedLies.first
        have joinedBeside := (joinedLies.kept still).tells.2
        have apart : Seamless rest other := fun last next isLast =>
          seamless last next (Forest.lastText_cons node body ends ▸ isLast)
        have onward :=
          ih (left.aloof aloof) apart beside (otherLies.kept still) joinedBeside restWalks
        have oneJoined := renderOne_alike_yields one aloof tells joinedTells
        rw [String.append_assoc]
        exact walks_iff.mpr ⟨_, _, _, oneJoined, onward, rfl⟩

end Join

end World

end Stencil
