import Stencil.Proofs.UncheckedSessions

/-!
Names that are marked as expanding. A session enters and leaves pins in any order,
several on one name or on one chain, and does everything else a host can do between
them. Whatever it does, a name is marked exactly if a pin on it was entered and none on
it was left since: the names are a set, so the first of two pins that is left takes the
mark of the other one with it. A marked name always has an open pin, and an open pin
marks its name as long as the pins on this name do not overlap. An evaluation enters a
pin on unmarked names only and leaves it before it goes on, so at every stage of it
exactly the names are marked that it has pinned by then or that were marked before.
-/

namespace Stencil.World

def Step.pins (pins : List (Option String × Option ElementId)) :
    Step → List (Option String × Option ElementId)
  | .pin name chain => (name, chain) :: pins
  | .unpin name chain => pins.erase (name, chain)
  | _ => pins

def openPins (steps : List Step) : List (Option String × Option ElementId) :=
  steps.foldl Step.pins []

/-- A pin on the name was entered, and none on it was left since. -/
def EnteredLast (name : Option String) (steps : List Step) : Prop :=
  ∃ before chain rest, steps = before ++ .pin name chain :: rest ∧
    ∀ other, .unpin name other ∉ rest

/-- No pin on the name is left while another one on it stays open. -/
def PinnedApart (name : Option String) (steps : List Step) : Prop :=
  ∀ before chain rest, steps = before ++ .unpin name chain :: rest →
    ∀ other, (name, other) ∉ openPins (before ++ [.unpin name chain])

section Pins

variable {name : Option String} {steps : List Step} {step : Step}

theorem openPins_concat (steps : List Step) (step : Step) :
    openPins (steps ++ [step]) = step.pins (openPins steps) := by
  simp [openPins]

theorem not_enteredLast_nil : ¬ EnteredLast name [] := by
  rintro ⟨before, chain, rest, parts, _⟩
  simp at parts

theorem enteredLast_concat :
    EnteredLast name (steps ++ [step]) ↔
      (∃ chain, step = .pin name chain) ∨
        EnteredLast name steps ∧ ∀ chain, step ≠ .unpin name chain := by
  constructor
  · rintro ⟨before, chain, rest, parts, unleft⟩
    rcases List.eq_nil_or_concat rest with rfl | ⟨others, last, rfl⟩
    · obtain ⟨_, isPin⟩ := List.append_inj' parts rfl
      exact Or.inl ⟨chain, List.singleton_inj.mp isPin⟩
    · rw [List.concat_eq_append] at parts unleft
      rw [← List.cons_append, ← List.append_assoc] at parts
      obtain ⟨earlier, isLast⟩ := List.append_inj' parts rfl
      obtain rfl := List.singleton_inj.mp isLast
      refine Or.inr ⟨⟨before, chain, others, earlier, fun other member => ?_⟩, ?_⟩
      · exact unleft other (List.mem_append_left _ member)
      · rintro other rfl
        exact unleft other (by simp)
  · rintro (⟨chain, rfl⟩ | ⟨⟨before, chain, rest, rfl, unleft⟩, kept⟩)
    · exact ⟨steps, chain, [], rfl, by simp⟩
    · refine ⟨before, chain, rest ++ [step], by simp, fun other member => ?_⟩
      rcases List.mem_append.mp member with earlier | isLast
      · exact unleft other earlier
      · exact kept other (List.mem_singleton.mp isLast).symm

theorem PinnedApart.earlier (apart : PinnedApart name (steps ++ [step])) :
    PinnedApart name steps := by
  rintro before chain rest rfl
  exact apart before chain (rest ++ [step]) (by simp)

theorem EnteredLast.isOpen (entered : EnteredLast name steps) :
    ∃ chain, (name, chain) ∈ openPins steps := by
  induction steps using List.reverseRecOn with
  | nil => exact absurd entered not_enteredLast_nil
  | append_singleton steps step ih =>
      rw [openPins_concat]
      rcases enteredLast_concat.mp entered with ⟨chain, rfl⟩ | ⟨earlier, kept⟩
      · exact ⟨chain, List.mem_cons_self⟩
      · obtain ⟨chain, isOpen⟩ := ih earlier
        refine ⟨chain, ?_⟩
        cases step with
        | pin other start => exact List.mem_cons_of_mem _ isOpen
        | unpin other start =>
            have different : (name, chain) ≠ (other, start) := by
              rintro ⟨⟩
              exact kept chain rfl
            exact (List.mem_erase_of_ne different).mpr isOpen
        | _ => exact isOpen

/-- Where the pins on a name do not overlap, an open one was entered last. -/
theorem PinnedApart.enteredLast (apart : PinnedApart name steps) {chain : Option ElementId}
    (isOpen : (name, chain) ∈ openPins steps) : EnteredLast name steps := by
  induction steps using List.reverseRecOn generalizing chain with
  | nil => cases isOpen
  | append_singleton steps step ih =>
      rw [enteredLast_concat]
      by_cases leaves : ∃ start, step = .unpin name start
      · obtain ⟨start, rfl⟩ := leaves
        exact absurd isOpen (apart steps start [] rfl chain)
      have kept : ∀ start, step ≠ .unpin name start := fun start isUnpin => leaves ⟨start, isUnpin⟩
      rw [openPins_concat] at isOpen
      cases step with
      | pin other start =>
          rcases List.mem_cons.mp isOpen with same | earlier
          · cases same
            exact Or.inl ⟨chain, rfl⟩
          · exact Or.inr ⟨ih apart.earlier earlier, kept⟩
      | unpin other start => exact Or.inr ⟨ih apart.earlier (List.mem_of_mem_erase isOpen), kept⟩
      | _ => exact Or.inr ⟨ih apart.earlier isOpen, kept⟩

end Pins

section Steps

variable {settings : Settings} {fuel : Nat} {world after : World} {step : Step} {answer : Answer}

theorem answer_expanding {request : Request} {status : Status}
    (ran : request.answer settings world = .ok (status, after)) :
    after.context.expanding = world.context.expanding := by
  have accepted : ∀ step : Except Fault Outcome, world.accept settings <$> step =
      .ok (status, after) → after.context.expanding = world.context.expanding := by
    intro step accepts
    obtain ⟨outcome, rfl, done⟩ := map_eq_ok accepts
    cases done
    rfl
  cases request with
  | setCommand owner content | setVariable owner content =>
      cases content with
      | chain head => exact accepted _ ran
      | source text first last => exact accepted _ ran
  | remove element => exact accepted (.ok (world.store.remove element)) ran
  | cache name chain readOnly =>
      obtain rfl : _ = after := congrArg Prod.snd (Except.ok.inj ran)
      exact (setVariable_orderly settings world name chain readOnly).expanding
  | register name handler =>
      obtain rfl : _ = after := congrArg Prod.snd (Except.ok.inj ran)
      unfold World.register
      extract_lets callable
      split <;> rfl
  | _ => exact accepted _ ran

theorem take_expanding (noPin : ∀ name chain, step ≠ .pin name chain)
    (noUnpin : ∀ name chain, step ≠ .unpin name chain)
    (ran : step.take settings fuel world = some (answer, after)) :
    after.context.expanding = world.context.expanding := by
  cases step with
  | pin name chain => exact absurd rfl (noPin name chain)
  | unpin name chain => exact absurd rfl (noUnpin name chain)
  | addNamed kind name =>
      simp only [Step.take] at ran
      split at ran <;> cases ran <;> rfl
  | parse text first last =>
      simp only [Step.take] at ran
      split at ran <;> cases ran
      rename_i parses
      rw [parse_context parses]
  | request asked =>
      simp only [Step.take] at ran
      split at ran <;> cases ran
      rename_i answers
      exact answer_expanding answers
  | putProperty element key value =>
      cases ran
      exact (perform_orderly settings world _ _).expanding
  | copy element | copyAll start =>
      simp only [Step.take] at ran
      split at ran <;> cases ran
      rfl
  | erase name =>
      cases ran
      exact (eraseVariable_orderly world name).expanding
  | eraseAll | clear =>
      cases ran
      exact (clearVariables_orderly world).expanding
  | equip set =>
      cases ran
      rw [CommandSet.addTo_eq]
      rfl
  | evaluate start toEnd | evaluateVariable name =>
      obtain ⟨rendered, renders, done⟩ := Option.map_eq_some_iff.mp ran
      cases done
      exact (render_orderly renders).expanding
  | _ =>
      cases ran
      rfl

theorem isExpanding_enterPin (world : World) (entered name : Option String)
    (chain : Option ElementId) :
    (world.enterPin entered chain).context.isExpanding name = true ↔
      entered = name ∨ world.context.isExpanding name = true := by
  simp only [enterPin, withContext, Context.enter]
  split
  · rename_i marked
    refine (or_iff_right_of_imp ?_).symm
    rintro rfl
    exact marked
  · simp only [Context.isExpanding, List.contains_cons, Bool.or_eq_true, beq_iff_eq]
    exact or_congr_left eq_comm

theorem isExpanding_leavePin (world : World) (left name : Option String)
    (chain : Option ElementId) :
    (world.leavePin left chain).context.isExpanding name = true ↔
      left ≠ name ∧ world.context.isExpanding name = true := by
  have marks : (world.leavePin left chain).context.expanding =
      world.context.expanding.filter (· != left) := by
    cases chain with
    | none => rfl
    | some chain =>
        simp only [leavePin, Option.toList_some, List.foldl_cons, List.foldl_nil, releaseRetired]
        split <;> rfl
  simp only [Context.isExpanding, marks, List.contains_eq_mem, decide_eq_true_eq, List.mem_filter,
    bne_iff_ne]
  exact and_comm.trans (and_congr_left fun _ => ne_comm)

/-- What a step does to the mark of a name. -/
theorem take_isExpanding (name : Option String)
    (ran : step.take settings fuel world = some (answer, after)) :
    after.context.isExpanding name = true ↔
      (∃ chain, step = .pin name chain) ∨
        world.context.isExpanding name = true ∧ ∀ chain, step ≠ .unpin name chain := by
  by_cases pins : ∃ entered chain, step = .pin entered chain
  · obtain ⟨entered, chain, rfl⟩ := pins
    cases ran
    rw [isExpanding_enterPin]
    simp
  by_cases leaves : ∃ left chain, step = .unpin left chain
  · obtain ⟨left, chain, rfl⟩ := leaves
    cases ran
    rw [isExpanding_leavePin]
    simp only [reduceCtorEq, exists_false, false_or, ne_eq, Step.unpin.injEq, not_and]
    exact and_comm.trans (and_congr_right fun _ => by simp)
  · have noPin : ∀ entered chain, step ≠ .pin entered chain :=
      fun entered chain isPin => pins ⟨entered, chain, isPin⟩
    have noUnpin : ∀ left chain, step ≠ .unpin left chain :=
      fun left chain isUnpin => leaves ⟨left, chain, isUnpin⟩
    rw [Context.isExpanding, take_expanding noPin noUnpin ran]
    simp [Context.isExpanding, noPin, noUnpin]

theorem session_concat {steps : List Step} {answers : List Answer}
    (ran : session? settings fuel world (steps ++ [step]) = some (answers, after)) :
    ∃ earlier between answer, session? settings fuel world steps = some (earlier, between) ∧
      step.take settings fuel between = some (answer, after) := by
  induction steps generalizing world answers with
  | nil =>
      obtain ⟨⟨first, behind⟩, takes, onward⟩ := Option.bind_eq_some_iff.mp ran
      cases onward
      exact ⟨[], world, first, rfl, takes⟩
  | cons head rest ih =>
      obtain ⟨⟨first, behind⟩, takes, onward⟩ := Option.bind_eq_some_iff.mp ran
      obtain ⟨⟨others, last⟩, ranRest, done⟩ := Option.bind_eq_some_iff.mp onward
      cases done
      obtain ⟨earlier, between, answer, ranEarlier, takesLast⟩ := ih ranRest
      refine ⟨first :: earlier, between, answer, ?_, takesLast⟩
      simp only [session?, takes, ranEarlier, Option.bind_eq_bind, Option.bind_some,
        Option.pure_def]

theorem session_isExpanding {steps : List Step} {answers : List Answer}
    (unmarked : world.context.expanding = []) (name : Option String)
    (ran : session? settings fuel world steps = some (answers, after)) :
    after.context.isExpanding name = true ↔ EnteredLast name steps := by
  induction steps using List.reverseRecOn generalizing after answers with
  | nil =>
      cases ran
      simp [Context.isExpanding, unmarked, not_enteredLast_nil]
  | append_singleton steps step ih =>
      obtain ⟨earlier, between, answer, ranEarlier, takes⟩ := session_concat ran
      rw [take_isExpanding name takes, ih ranEarlier, enteredLast_concat]

end Steps

section Stages

variable {settings : Settings} {stage middle later : Stage} {names : List (Option String)}

def Stage.pinning : Stage → List (Option String)
  | ⟨_, _, .value name⟩ => [name]
  | _ => []

/-- A stage that comes of another one inside the pins on these names, the last one first. -/
inductive Within (settings : Settings) (stage : Stage) : List (Option String) → Stage → Prop where
  | start : Within settings stage [] stage
  | next {names : List (Option String)} {middle later : Stage} :
      Within settings stage names middle → Begins settings middle later →
      Within settings stage (middle.pinning ++ names) later

theorem Begins.expanding (begins : Begins settings middle later) :
    later.world.context.expanding = middle.pinning ++ middle.world.context.expanding := by
  cases begins with
  | @pinned fuel world name chain isChain unmarked =>
      simp [Stage.pinning, enterPin, withContext, Context.enter, unmarked]
  | @next fuel world between id _ _ rendered _ =>
      exact (Stage.orderly settings ⟨fuel, world, .one id⟩
        (by simp [Stage.after, rendered])).expanding
  | @assign fuel world between id body _ _ _ rendered =>
      exact (Stage.orderly settings ⟨fuel, world, .render (some body) true⟩
        (by simp [Stage.after, rendered])).expanding
  | @added _ world _ element action _ _ _ performed
  | @asked _ world _ element _ action _ _ _ performed =>
      have kept := (perform_orderly settings world element action).expanding
      rwa [performed] at kept
  | @resumed fuel world changed between element start action _ _ _ toEnd performed rendered =>
      have kept := (perform_orderly settings world element action).expanding
      rw [performed] at kept
      have inner : Orderly changed between :=
        Stage.orderly settings ⟨fuel, changed, .render start toEnd⟩
          (by simp [Stage.after, rendered])
      exact inner.expanding.trans kept
  | _ => rfl

theorem Within.expanding (within : Within settings stage names later) :
    later.world.context.expanding = names ++ stage.world.context.expanding := by
  induction within with
  | start => rfl
  | next _ begins ih => rw [begins.expanding, ih, List.append_assoc]

end Stages

/-- In every session a name is marked exactly if a pin on it was entered and none on it was
left since. So a marked name has an open pin, and it is marked as long as it has one if the
pins on it do not overlap. What is marked at a stage of an evaluation behind the session was
marked before or is pinned by the evaluation itself. -/
theorem isExpanding_iff_enteredLast {settings : Settings} {fuel : Nat} {world after : World}
    {steps : List Step} {answers : List Answer} (unmarked : world.context.expanding = [])
    (ran : session? settings fuel world steps = some (answers, after)) (name : Option String) :
    (after.context.isExpanding name = true ↔ EnteredLast name steps) ∧
    (after.context.isExpanding name = true → ∃ chain, (name, chain) ∈ openPins steps) ∧
    (PinnedApart name steps →
      (after.context.isExpanding name = true ↔ ∃ chain, (name, chain) ∈ openPins steps)) ∧
    ∀ more start toEnd names stage,
      Within settings ⟨more, after, .render start toEnd⟩ names stage →
        (stage.world.context.isExpanding name = true ↔
          name ∈ names ∨ after.context.isExpanding name = true) := by
  have marked := session_isExpanding unmarked name ran
  have isOpen : after.context.isExpanding name = true → ∃ chain, (name, chain) ∈ openPins steps :=
    fun isMarked => (marked.mp isMarked).isOpen
  refine ⟨marked, isOpen, fun apart => ⟨isOpen, ?_⟩, fun more start toEnd names stage within => ?_⟩
  · rintro ⟨chain, member⟩
    exact marked.mpr (apart.enteredLast member)
  · simp [Context.isExpanding, within.expanding]

def referring : World where
  store := ⟨#[{ kind := .variable, text := some "u" }, { kind := .text, text := some "a" }]⟩
  context := { cache := ⟨[(some "u", ⟨some 1, false⟩)]⟩ }

/-- One of two names on one chain keeps its mark, also while a third one is expanded. -/
theorem isExpanding_iff_enteredLast_referring :
    let steps : List Step := [.pin (some "v") (some 1), .pin (some "w") (some 1),
      .unpin (some "w") (some 1)]
    ∃ answers after, session? {} 9 referring steps = some (answers, after) ∧
      after.context.isExpanding (some "v") = true ∧
      after.context.isExpanding (some "w") = false ∧
      ∃ stage, Within {} ⟨9, after, .render (some 0) true⟩ [some "u"] stage ∧
        stage.world.context.isExpanding (some "u") = true ∧
        stage.world.context.isExpanding (some "v") = true := by
  intro steps
  let entered := (referring.enterPin (some "v") (some 1)).enterPin (some "w") (some 1)
  let after := entered.leavePin (some "w") (some 1)
  have ran : session? {} 9 referring steps = some ([.done, .done, .done], after) := rfl
  have names := isExpanding_iff_enteredLast rfl ran
  have apart : PinnedApart (some "v") steps := by
    intro before chain rest parts
    have member : Step.unpin (some "v") chain ∈ steps := by simp [parts]
    simp [steps] at member
  have isMarked : after.context.isExpanding (some "v") = true :=
    ((names (some "v")).2.2.1 apart).mpr ⟨some 1, by decide⟩
  have unmarked : after.context.isExpanding (some "u") = false := by decide
  have within : Within {} ⟨9, after, .render (some 0) true⟩ [some "u"]
      ⟨5, after.deeper.enterPin (some "u") (some 1), .render (some 1) true⟩ :=
    ((((Within.start.next (.render (by decide))).next .one).next (.value rfl rfl)).next
      (.pinned rfl unmarked))
  refine ⟨_, after, ran, isMarked, by decide, _, within, ?_, ?_⟩
  · exact ((names (some "u")).2.2.2 _ _ _ _ _ within).mpr (Or.inl List.mem_cons_self)
  · exact ((names (some "v")).2.2.2 _ _ _ _ _ within).mpr (Or.inr isMarked)

/-- With one of two pins on a name left, the other one is open and the name not marked. -/
theorem overlapping_pins_unmarked :
    let steps : List Step := [.addText "a", .request (.cache (some "v") (some 0) false),
      .pin (some "v") (some 0), .pin (some "v") (some 0), .unpin (some "v") (some 0)]
    ∃ after, session? {} 1 {} steps = some ([.element (some 0), .status .ok, .done, .done, .done],
        after) ∧
      openPins steps = [(some "v", some 0)] ∧ after.context.isPinned 0 = true ∧
      after.context.isExpanding (some "v") = false :=
  ⟨_, rfl, by decide, by decide, by decide⟩

end Stencil.World
