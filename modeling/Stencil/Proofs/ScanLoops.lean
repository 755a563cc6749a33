import Stencil.Proofs.ScanBounds

/-!
The scans of a source as the loops that they stand for. A loop takes turns, each
of which answers, fails, or goes on from a new state; it ends if finitely many
turns lead to an answer or an error, and nothing bounds their number beforehand.
A scan counts its steps instead. The count is never what ends it: every scan
gives what its loop ends with, for any source and any bounds. A turn reads
through `read` alone, so the loop over blanks reads no character behind the end.
-/

namespace Stencil

inductive Turn (State Answer : Type) where
  | again (state : State)
  | done (answer : Answer)

section Loops

variable {State Error Answer Value : Type}

inductive Ends (turn : State → Except Error (Turn State Answer)) :
    State → Except Error Answer → Prop where
  | failed (state : State) (error : Error) :
      turn state = .error error → Ends turn state (.error error)
  | done (state : State) (answer : Answer) :
      turn state = .ok (.done answer) → Ends turn state (.ok answer)
  | again (state next : State) (result : Except Error Answer) :
      turn state = .ok (.again next) → Ends turn next result → Ends turn state result

/-- A turn comes to the result if the turns behind it come to what `others` gives,
and it goes on to good states only. -/
inductive Leads (good : State → Prop) (others : State → Except Error Answer) :
    Except Error (Turn State Answer) → Except Error Answer → Prop where
  | failed (error : Error) : Leads good others (.error error) (.error error)
  | done (answer : Answer) : Leads good others (.ok (.done answer)) (.ok answer)
  | again (next : State) : good next → Leads good others (.ok (.again next)) (others next)

variable {good : State → Prop} {others : State → Except Error Answer}

theorem Leads.bind {step : Except Error Value} {turn : Value → Except Error (Turn State Answer)}
    {result : Value → Except Error Answer}
    (leads : ∀ value, step = .ok value → Leads good others (turn value) (result value)) :
    Leads good others (step >>= turn) (step >>= result) := by
  cases step with
  | error error => exact .failed error
  | ok value => exact leads value rfl

variable {turn : State → Except Error (Turn State Answer)}
variable (counted : Nat → State → Except Error Answer) (enough : Nat → State → Prop)

/-- A function that counts the turns it takes gives the end of the loop, as long
as every turn that goes on is within the count. -/
theorem ends_counted
    (leads : ∀ count state, enough count state →
      Leads (fun next => 0 < count ∧ enough (count - 1) next) (counted (count - 1)) (turn state)
        (counted count state))
    (count : Nat) (state : State) (start : enough count state) :
    Ends turn state (counted count state) := by
  induction count generalizing state with
  | zero =>
      generalize taken : turn state = step, result : counted 0 state = answer
      have first := leads 0 state start
      rw [taken, result] at first
      cases first with
      | failed error => exact .failed state error taken
      | done answer => exact .done state answer taken
      | again next later => exact absurd later.1 (Nat.lt_irrefl 0)
  | succ count ih =>
      generalize taken : turn state = step, result : counted (count + 1) state = answer
      have first := leads (count + 1) state start
      rw [taken, result] at first
      cases first with
      | failed error => exact .failed state error taken
      | done answer => exact .done state answer taken
      | again next later => exact .again state next _ taken (ih next later.2)

end Loops

namespace Source

variable (source : Source)

def blanksTurn (index : Nat) : Except Fault (Turn Nat Nat) :=
  if index < source.size then do
    let here ← source.read index
    if isBlank here then pure (.again (index + 1)) else pure (.done index)
  else pure (.done index)

theorem skipBlanks_ends (index : Nat) :
    Ends source.blanksTurn index (.ok (source.skipBlanks index)) := by
  refine ends_counted (fun count index => .ok (source.skipBlanksFor count index))
    (fun count index => source.size - index = count) ?_ _ index rfl
  intro count index start
  cases count with
  | zero =>
      rw [blanksTurn, if_neg (by omega)]
      exact .done index
  | succ count =>
      have inside : index < source.size := by omega
      obtain ⟨here, ran, isHere⟩ := read_answers inside
      rw [blanksTurn, if_pos inside, ran, ok_bind, skipBlanksFor, isHere, Option.any_some]
      split
      · exact .again (index + 1) ⟨Nat.succ_pos count, by omega⟩
      · exact .done index

def nameTurn (index : Nat) : Except Fault (Turn Nat Nat) := do
  let here ← source.read index
  if isNameChar here then pure (.again (index + 1)) else pure (.done index)

theorem nameStop_ends (index : Nat) : Ends source.nameTurn index (source.nameStop index) := by
  refine ends_counted source.nameStopFor (fun count index => source.size - index = count) ?_ _
    index rfl
  intro count index start
  cases count with
  | zero =>
      have behind : source.chars[index]? = none :=
        Array.getElem?_eq_none (by unfold size at start; omega)
      simp only [nameTurn, read, behind]
      exact .failed Fault.pastEnd
  | succ count =>
      refine .bind fun here _ => ?_
      split
      · exact .again (index + 1) ⟨Nat.succ_pos count, by omega⟩
      · exact .done index

section Searches

variable (sought opening closing : Char) (start stop : Nat)

def findTurn (index : Nat) : Except Fault (Turn Nat (Option Nat)) :=
  if index < stop then do
    let here ← source.read index
    let hidden ← source.escaped index
    if here = sought ∧ hidden = false then pure (.done (some index)) else pure (.again (index + 1))
  else pure (.done none)

theorem find_ends :
    Ends (source.findTurn sought stop) start (source.find sought start stop) := by
  refine ends_counted (source.findFor sought) (fun count index => stop - index = count) ?_ _
    start rfl
  intro count index left
  cases count with
  | zero =>
      rw [findTurn, if_neg (by omega)]
      exact .done none
  | succ count =>
      rw [findTurn, if_pos (by omega)]
      refine .bind fun here _ => .bind fun hidden _ => ?_
      split
      · exact .done (some index)
      · exact .again (index + 1) ⟨Nat.succ_pos count, by omega⟩

def matchingTurn : Nat × Nat → Except Fault (Turn (Nat × Nat) (Option Nat))
  | (depth, index) =>
      if index < stop then do
        let here ← source.read index
        let hidden ← source.escaped index
        if hidden then pure (.again (depth, index + 1))
        else if here = opening then pure (.again (depth + 1, index + 1))
        else if here = closing then
          match depth with
          | 0 => pure (.done (some index))
          | outer + 1 => pure (.again (outer, index + 1))
        else pure (.again (depth, index + 1))
      else pure (.done none)

theorem findMatching_ends :
    Ends (source.matchingTurn opening closing stop) (0, start)
      (source.findMatching opening closing start stop) := by
  refine ends_counted
    (fun count state => source.findMatchingFor opening closing count state.1 state.2)
    (fun count state => stop - state.2 = count) ?_ _ (0, start) rfl
  rintro count ⟨depth, index⟩ left
  simp only at left
  cases count with
  | zero =>
      have behind : ¬ index < stop := by omega
      simp only [matchingTurn, behind, if_false]
      exact .done none
  | succ count =>
      have ahead : index < stop := by omega
      have onward : 0 < count + 1 ∧ stop - (index + 1) = count := ⟨Nat.succ_pos count, by omega⟩
      simp only [matchingTurn, findMatchingFor, ahead, if_true]
      refine .bind fun here _ => .bind fun hidden _ => ?_
      split
      · exact .again (depth, index + 1) onward
      · split
        · exact .again (depth + 1, index + 1) onward
        · split
          · cases depth with
            | zero => exact .done (some index)
            | succ outer => exact .again (outer, index + 1) onward
          · exact .again (depth, index + 1) onward

def separatorTurn : Nat × Nat → Except Fault (Turn (Nat × Nat) (Option Nat))
  | (depth, index) =>
      if index < stop then do
        let hidden ← source.escaped index
        if hidden then pure (.again (depth, index + 1))
        else
          let here ← source.read index
          if here = sought ∧ depth = 0 then pure (.done (some index))
          else if here = opening then pure (.again (depth + 1, index + 1))
          else if here = closing then pure (.again (depth - 1, index + 1))
          else pure (.again (depth, index + 1))
      else pure (.done none)

theorem findSeparator_ends :
    Ends (source.separatorTurn sought opening closing stop) (0, start)
      (source.findSeparator sought opening closing start stop) := by
  refine ends_counted
    (fun count state =>
      source.findSeparatorFor sought opening closing count state.1 state.2)
    (fun count state => stop - state.2 = count) ?_ _ (0, start) rfl
  rintro count ⟨depth, index⟩ left
  simp only at left
  cases count with
  | zero =>
      rw [separatorTurn, if_neg (by omega)]
      exact .done none
  | succ count =>
      have onward : 0 < count + 1 ∧ stop - (index + 1) = count := ⟨Nat.succ_pos count, by omega⟩
      rw [separatorTurn, if_pos (by omega)]
      refine .bind fun hidden _ => ?_
      split
      · exact .again (depth, index + 1) onward
      · refine .bind fun here _ => ?_
        split
        · exact .done (some index)
        · split
          · exact .again (depth + 1, index + 1) onward
          · split
            · exact .again (depth - 1, index + 1) onward
            · exact .again (depth, index + 1) onward

def closingTurn : Nat × Nat → Except Fault (Turn (Nat × Nat) (Option Nat))
  | (depth, index) =>
      if index < stop then do
        let opens ← source.markerAt .opening index stop
        if opens then pure (.again (depth + 1, index + 2))
        else
          let closes ← source.markerAt .closing index stop
          if closes then
            match depth with
            | 0 => pure (.done (some index))
            | outer + 1 => pure (.again (outer, index + 2))
          else pure (.again (depth, index + 1))
      else pure (.done none)

theorem closing_ends :
    Ends (source.closingTurn stop) (0, start) (source.closing start stop) := by
  refine ends_counted
    (fun count state => source.closingFor stop count state.1 state.2)
    (fun count state => stop - state.2 ≤ count) ?_ _ (0, start) (Nat.le_refl _)
  rintro count ⟨depth, index⟩ left
  simp only at left
  cases count with
  | zero =>
      have behind : ¬ index < stop := by omega
      simp only [closingTurn, behind, if_false]
      exact .done none
  | succ count =>
      simp only [closingTurn, closingFor]
      split
      · refine .bind fun opens _ => ?_
        split
        · exact .again (depth + 1, index + 2) ⟨Nat.succ_pos count, by simp only; omega⟩
        · refine .bind fun closes _ => ?_
          split
          · cases depth with
            | zero => exact .done (some index)
            | succ outer =>
                exact .again (outer, index + 2) ⟨Nat.succ_pos count, by simp only; omega⟩
          · exact .again (depth, index + 1) ⟨Nat.succ_pos count, by simp only; omega⟩
      · exact .done none

end Searches

end Source

end Stencil
