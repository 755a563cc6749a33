import Stencil.Proofs.SoundStore

/-!
The store without checks. Checks do nothing but refuse: what is granted with checks on
is done in the same way with checks off. A parse is never refused anything on its way,
so without checks it makes the same elements of every text, and fails at the same place;
only a range outside of the text is caught by a check alone.
-/

namespace Stencil

/-- What is granted with checks on is done in the same way without them. -/
def Lenient {Answer : Type} (granted : Answer → Prop) (step : Bool → Except Fault Answer) : Prop :=
  ∀ answer, step true = .ok answer → granted answer → step false = .ok answer

def Outcome.Granted (outcome : Outcome) : Prop := outcome.status = .ok

section Lenient

variable {Value Answer : Type} {granted : Answer → Prop}

theorem Lenient.unchecked (answer : Except Fault Answer) : Lenient granted fun _ => answer :=
  fun _ ran _ => ran

theorem Lenient.bind (first : Except Fault Value) {next : Value → Bool → Except Fault Answer}
    (lenient : ∀ value, Lenient granted (next value)) :
    Lenient granted fun checks => first >>= fun value => next value checks := by
  intro answer ran fine
  obtain ⟨value, same, rest⟩ := bind_eq_ok.mp ran
  exact bind_eq_ok.mpr ⟨value, same, lenient value answer rest fine⟩

theorem Lenient.map {fine : Value → Prop} {step : Bool → Except Fault Value}
    (lenient : Lenient fine step) (change : Value → Answer)
    (needs : ∀ value, granted (change value) → fine value) :
    Lenient granted fun checks => change <$> step checks := by
  intro answer ran isGranted
  obtain ⟨value, same, rfl⟩ := map_eq_ok ran
  simp only [lenient value same (needs value isGranted), map_ok]

theorem Lenient.behind {refusal : Option Outcome}
    (refuses : ∀ outcome, refusal = some outcome → outcome.status ≠ .ok)
    {next : Bool → Except Fault Outcome} (lenient : Lenient Outcome.Granted next) :
    Lenient Outcome.Granted fun checks =>
      match if checks then refusal else none with
      | some refusal => .ok refusal
      | none => next checks := by
  intro outcome ran fine
  cases refused : refusal with
  | some answer =>
      simp only [refused, if_true] at ran
      obtain rfl := Except.ok.inj ran
      exact absurd fine (refuses answer refused)
  | none =>
      simp only [refused, if_true] at ran
      exact lenient outcome ran fine

end Lenient

namespace Store

section Links

variable {store : Store}

theorem linkRefusal_status {position element : Option ElementId} (refusal : Outcome)
    (refused : store.linkRefusal position element = some refusal) : refusal.status ≠ .ok := by
  unfold linkRefusal at refused
  split at refused
  · split at refused <;> cases refused
    simp
  · cases refused
    simp

theorem adopt_lenient (position element : ElementId)
    (splice : Store → ElementId → ElementId → Store) :
    Lenient Outcome.Granted fun checks => store.adopt checks position element splice := by
  intro outcome ran granted
  simp only [adopt, Bool.true_and, Bool.false_and] at ran ⊢
  split at ran
  · cases ran
    cases granted
  · exact ran

theorem linkWith_lenient (position element : Option ElementId)
    (splice : ElementId → Store → ElementId → ElementId → Store) :
    Lenient Outcome.Granted fun checks => store.linkWith checks position element splice :=
  .behind linkRefusal_status <| .bind (present position) fun host =>
    .bind (present element) fun id => adopt_lenient host id (splice host)

end Links

section Bodies

variable {store : Store}

theorem kindRefusal_status {kind : Kind} {owner : Option ElementId} (refusal : Outcome)
    (refused : store.kindRefusal kind owner = some refusal) : refusal.status ≠ .ok := by
  cases owner with
  | none =>
      cases refused
      simp
  | some host =>
      simp only [kindRefusal] at refused
      split at refused
      · cases refused
      · cases refused
        cases kind <;> simp [kindStatus]

theorem bodyRefusal_status {owner : ElementId} {content : Option ElementId} {refusal : Outcome}
    (refused : store.bodyRefusal owner content = .ok (some refusal)) : refusal.status ≠ .ok := by
  cases content with
  | none => cases refused
  | some head =>
      simp only [bodyRefusal] at refused
      split at refused
      · cases refused
        simp
      · split at refused
        · cases refused
          simp
        · split at refused <;> cases refused

theorem install_lenient (owner : ElementId) (content : Option ElementId) :
    Lenient Outcome.Granted fun checks => store.install checks owner content := by
  intro outcome ran granted
  obtain ⟨refusal, refused, rest⟩ := bind_eq_ok.mp (show _ >>= _ = _ from ran)
  cases refusal with
  | none => exact rest
  | some refusal =>
      obtain rfl := Except.ok.inj rest
      exact absurd granted (bodyRefusal_status refused)

theorem setBody_lenient (expected : Kind) (owner content : Option ElementId) :
    Lenient Outcome.Granted fun checks => store.setBody checks expected owner content :=
  .behind kindRefusal_status <| .bind (present owner) fun host => install_lenient host content

theorem replaceText_lenient (element : Option ElementId) (text : Option String) :
    Lenient Outcome.Granted fun checks => store.replaceText checks element text := by
  refine .behind ?_ (.unchecked _)
  split
  · exact kindRefusal_status
  · rintro _ ⟨⟩
    simp

theorem replaceProperties_lenient (element : Option ElementId)
    (properties : Option (Table String String)) :
    Lenient Outcome.Granted fun checks => store.replaceProperties checks element properties := by
  refine .behind ?_ (.unchecked _)
  split
  · exact kindRefusal_status
  · rintro _ ⟨⟩
    simp

end Bodies

section Parse

theorem addBehind_unchecked (store : Store) (node : Node) (last : Option ElementId)
    (ready : ∀ id, last = some id →
      ∃ cell, store.get? id = some cell ∧ cell.next = none ∧ cell.parent = none) :
    store.addBehind false node last = store.addBehind true node last := by
  cases last with
  | none => rfl
  | some last =>
      obtain ⟨cell, found, noNext, noParent⟩ := ready last rfl
      obtain ⟨linked, ran, _⟩ := append_added true store node found noNext noParent
      have unchecked : (store.add node).append false (some last) (some store.size) =
          .ok { store := linked } := linkWith_lenient _ _ _ _ ran rfl
      simp only [addBehind, ran, unchecked]

theorem layOut_unchecked (store : Store) (pieces : List Piece) (last : Option ElementId)
    (ready : ∀ id, last = some id →
      ∃ cell, store.get? id = some cell ∧ cell.next = none ∧ cell.parent = none) :
    store.layOut false last pieces = store.layOut true last pieces := by
  induction pieces generalizing store last with
  | nil => rfl
  | cons piece rest ih =>
      obtain ⟨linked, ran, _, newest, _⟩ := addBehind_spec true store piece.node last ready
      rw [layOut_cons, layOut_cons, addBehind_unchecked store piece.node last ready, ran]
      simp only [ok_bind]
      rw [ih linked (some store.size)]
      rintro id ⟨⟩
      exact ⟨_, newest, rfl, rfl⟩

theorem readLevel_unchecked (source : Source) (store : Store) (span : Span) :
    readLevel false source store span = readLevel true source store span := by
  unfold readLevel
  cases Level.read source span with
  | error stop => rfl
  | ok pieces =>
      simp only [ok_bind]
      rw [layOut_unchecked store pieces none (by simp)]

/-- Each body that waits is given to an element without one, which no check refuses. -/
theorem fillBodies_unchecked (source : Source) (count : Nat) (waiting : List Waiting)
    (store : Store) (ready : Ready source store waiting) :
    fillBodies false source count waiting store = fillBodies true source count waiting store := by
  induction count generalizing waiting store with
  | zero => cases waiting <;> rfl
  | succ count ih =>
      cases waiting with
      | nil => rfl
      | cons body rest =>
          simp only [fillBodies, readLevel_unchecked]
          cases read : readLevel true source store body.span with
          | error stop => rfl
          | ok level =>
              obtain ⟨pieces, levelRead, _⟩ := bind_eq_ok.mp read
              obtain ⟨fits, _, filled⟩ :=
                (Level.read_settles (ready.inside body List.mem_cons_self)).of_ok levelRead
              obtain ⟨cell, found, bare⟩ := ready.bare body List.mem_cons_self
              obtain ⟨laid, started, laidRan, ran, starts⟩ :=
                startBody_spec true found bare filled levelRead
              obtain rfl := Except.ok.inj (laidRan.symm.trans read)
              have unchecked := setBody_lenient _ _ _ _ ran rfl
              simp only [ok_bind, ran, unchecked, ofScan_ok]
              exact ih _ started (ready.next starts fits)

theorem parseSpan_unchecked {source : Source} (store : Store) {span : Span}
    (inside : span.stop ≤ source.size) :
    parseSpan false source store span = parseSpan true source store span := by
  unfold parseSpan
  rw [readLevel_unchecked]
  cases read : readLevel true source store span with
  | error stop => rfl
  | ok level =>
      obtain ⟨pieces, levelRead, _⟩ := bind_eq_ok.mp read
      obtain ⟨fits, _⟩ := (Level.read_settles inside).of_ok levelRead
      obtain ⟨laid, laidRan, _, row, _⟩ := readLevel_spec true store levelRead
      obtain rfl := Except.ok.inj (laidRan.symm.trans read)
      simp only [ok_bind]
      rw [fillBodies_unchecked source _ _ laid (row.ready fits inside)]

variable {store : Store} {text : String} {first last : Option Int}

theorem parse_unchecked (store : Store) (valid : InRange text first last) :
    store.parse false text first last = store.parse true text first last := by
  simp only [parse]
  split
  · rfl
  · rename_i filled
    have within : rangeValid (Source.ofString text).size (first.getD 0)
        (last.getD ((Source.ofString text).size - 1)) = true := valid.resolve_left filled
    simp only [within, Bool.not_true, Bool.and_false, Bool.false_eq_true, if_false]
    rw [parseSpan_unchecked]
    simp only [rangeValid, Bool.and_eq_true, decide_eq_true_eq] at within
    simp only
    omega

theorem setBodyText_lenient (expected : Kind) (owner : Option ElementId) :
    Lenient Outcome.Granted fun checks =>
      store.setBodyText checks expected owner text first last := by
  refine .behind kindRefusal_status fun outcome ran granted => ?_
  obtain ⟨parsed, parses, rest⟩ := bind_eq_ok.mp ran
  by_cases valid : InRange text first last
  · refine bind_eq_ok.mpr ⟨parsed, (parse_unchecked store valid).trans parses, ?_⟩
    cases result : parsed.result with
    | error report =>
        rw [result] at rest
        exact rest
    | ok head =>
        rw [result] at rest
        obtain ⟨host, isHost, installs⟩ := bind_eq_ok.mp rest
        obtain ⟨answer, installed, done⟩ := bind_eq_ok.mp installs
        cases done
        have unchecked := install_lenient host (some head) answer installed granted
        exact bind_eq_ok.mpr ⟨host, isHost, bind_eq_ok.mpr ⟨answer, unchecked, rfl⟩⟩
  · obtain rfl := Except.ok.inj ((parse_outside store valid).symm.trans parses)
    cases rest
    cases granted

end Parse

end Store

end Stencil
