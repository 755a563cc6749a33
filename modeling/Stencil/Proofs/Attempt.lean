import Stencil.Failure

/-!
Steps that may fail, taken apart one at a time. A sequence of two steps succeeds
exactly if the first one does and the second one does on its answer. A step
answers if it succeeds, and it settles if it succeeds or fails on account of the
text; what settles never faults.
-/

namespace Stencil

section Steps

variable {Error Value Next : Type}

@[simp] theorem ok_bind (value : Value) (next : Value → Except Error Next) :
    (Except.ok value >>= next) = next value := rfl

@[simp] theorem error_bind (error : Error) (next : Value → Except Error Next) :
    (Except.error error >>= next) = Except.error error := rfl

@[simp] theorem pure_eq_ok (value : Value) : (pure value : Except Error Value) = .ok value := rfl

@[simp] theorem map_ok (change : Value → Next) (value : Value) :
    change <$> (Except.ok value : Except Error Value) = .ok (change value) := rfl

@[simp] theorem map_error (change : Value → Next) (error : Error) :
    change <$> (Except.error error : Except Error Value) = .error error := rfl

theorem bind_eq_ok {step : Except Error Value} {next : Value → Except Error Next} {answer : Next} :
    (step >>= next) = .ok answer ↔ ∃ value, step = .ok value ∧ next value = .ok answer := by
  cases step <;> simp

theorem map_eq_ok {change : Value → Next} {step : Except Error Value} {answer : Next}
    (mapped : change <$> step = .ok answer) :
    ∃ value, step = .ok value ∧ change value = answer := by
  cases step with
  | error error => cases mapped
  | ok value => exact ⟨value, rfl, Except.ok.inj mapped⟩

@[simp] theorem ofScan_ok (value : Value) : Stop.ofScan (.ok value) = .ok value := rfl

theorem ofScan_eq_ok {scan : Except Fault Value} {value : Value} :
    Stop.ofScan scan = .ok value ↔ scan = .ok value := by
  cases scan with
  | error fault => exact ⟨nofun, nofun⟩
  | ok found => exact ⟨fun same => congrArg Except.ok (Except.ok.inj same),
      fun same => congrArg Except.ok (Except.ok.inj same)⟩

def Answers (step : Except Error Value) (good : Value → Prop) : Prop :=
  ∃ value, step = .ok value ∧ good value

variable {good better : Value → Prop} {fine : Next → Prop}

theorem Answers.ok {value : Value} (isGood : good value) :
    Answers (.ok value : Except Error Value) good :=
  ⟨value, rfl, isGood⟩

theorem Answers.of_ok {step : Except Error Value} (answers : Answers step good) {value : Value}
    (ran : step = .ok value) : good value := by
  obtain ⟨answer, found, isGood⟩ := answers
  exact Except.ok.inj (found.symm.trans ran) ▸ isGood

theorem Answers.mono {step : Except Error Value} (answers : Answers step good)
    (stronger : ∀ value, good value → better value) : Answers step better := by
  obtain ⟨value, ran, isGood⟩ := answers
  exact ⟨value, ran, stronger value isGood⟩

theorem Answers.bind {step : Except Error Value} {next : Value → Except Error Next}
    (first : Answers step good) (second : ∀ value, good value → Answers (next value) fine) :
    Answers (step >>= next) fine := by
  obtain ⟨value, rfl, isGood⟩ := first
  exact second value isGood

end Steps

section Settle

variable {Value Next : Type} {bound : Nat} {good better : Value → Prop} {fine : Next → Prop}

/-- The step succeeds with a good answer, or the text is at fault at a position
up to the bound. -/
def Settles (bound : Nat) (step : Except Stop Value) (good : Value → Prop) : Prop :=
  (∃ value, step = .ok value ∧ good value) ∨
    ∃ failure, step = .error (.failure failure) ∧ failure.position ≤ bound

theorem Settles.ok {value : Value} (isGood : good value) : Settles bound (.ok value) good :=
  Or.inl ⟨value, rfl, isGood⟩

theorem Settles.fail (status : Status) {position : Nat} (inside : position ≤ bound) :
    Settles bound (Stop.fail status position) good :=
  Or.inr ⟨_, rfl, inside⟩

theorem Settles.ofScan {scan : Except Fault Value} (answers : Answers scan good) :
    Settles bound (Stop.ofScan scan) good := by
  obtain ⟨value, rfl, isGood⟩ := answers
  exact .ok isGood

theorem Settles.of_ok {step : Except Stop Value} (settles : Settles bound step good)
    {value : Value} (ran : step = .ok value) : good value := by
  rcases settles with ⟨answer, found, isGood⟩ | ⟨failure, found, _⟩
  · exact Except.ok.inj (found.symm.trans ran) ▸ isGood
  · cases found.symm.trans ran

theorem Settles.mono {step : Except Stop Value} (settles : Settles bound step good)
    (stronger : ∀ value, good value → better value) : Settles bound step better := by
  rcases settles with ⟨value, ran, isGood⟩ | failed
  · exact Or.inl ⟨value, ran, stronger value isGood⟩
  · exact Or.inr failed

theorem Settles.bind {step : Except Stop Value} {next : Value → Except Stop Next}
    (first : Settles bound step good)
    (second : ∀ value, good value → Settles bound (next value) fine) :
    Settles bound (step >>= next) fine := by
  rcases first with ⟨value, rfl, isGood⟩ | ⟨failure, rfl, inside⟩
  · exact second value isGood
  · exact Or.inr ⟨failure, rfl, inside⟩

theorem Answers.settles {scan : Except Fault Value} {next : Value → Except Stop Next}
    (first : Answers scan good) (second : ∀ value, good value → Settles bound (next value) fine) :
    Settles bound (Stop.ofScan scan >>= next) fine :=
  (Settles.ofScan first).bind second

end Settle

end Stencil
