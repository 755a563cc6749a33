import Stencil.CommandSet
import Stencil.Evaluation
import Stencil.Render

/-!
What the commands of a set mean. Each of them writes a text, which may depend on
the properties, then its content, then another text. A table of handlers speaks a
meaning if every handler in it is a script of this form and its texts are those
of the meaning.
-/

namespace Stencil

/-- With enough fuel the step answers with the value. -/
def Yields {Value : Type} (step : Nat → Option Value) (value : Value) : Prop :=
  ∃ bound, ∀ fuel, bound ≤ fuel → step fuel = some value

section Fuel

variable {Value Other Result : Type} {step : Nat → Option Value} {other : Nat → Option Other}
variable {outer : Nat → Option Result} {value : Value} {otherValue : Other} {result : Result}

theorem Yields.together (first : Yields step value) (second : Yields other otherValue)
    (answers : ∀ fuel, step fuel = some value → other fuel = some otherValue →
      outer fuel = some result) : Yields outer result := by
  obtain ⟨bound, enough⟩ := first
  obtain ⟨otherBound, otherEnough⟩ := second
  refine ⟨max bound otherBound, fun fuel more => ?_⟩
  exact answers fuel (enough fuel (by omega)) (otherEnough fuel (by omega))

theorem Yields.later (yields : Yields (fun fuel => step (fuel + 1)) value) : Yields step value := by
  obtain ⟨bound, enough⟩ := yields
  refine ⟨bound + 1, fun fuel more => ?_⟩
  obtain ⟨fuel, rfl⟩ : ∃ less, fuel = less + 1 := ⟨fuel - 1, by omega⟩
  exact enough fuel (by omega)

theorem Yields.now (answers : ∀ fuel, step (fuel + 1) = some value) : Yields step value :=
  .later ⟨0, fun fuel _ => answers fuel⟩

theorem Yields.both (first : Yields step value) (second : Yields other otherValue)
    (answers : ∀ fuel, step fuel = some value → other fuel = some otherValue →
      outer (fuel + 1) = some result) : Yields outer result :=
  (first.together second answers).later

theorem Yields.next (yields : Yields step value)
    (answers : ∀ fuel, step fuel = some value → outer (fuel + 1) = some result) :
    Yields outer result :=
  yields.both yields fun fuel first _ => answers fuel first

end Fuel

def propertyText (properties : Table String String) (key before after : String) : String :=
  match properties.get? key with
  | some value => before ++ value ++ after
  | none => ""

theorem Table.get?_cons {Key Value : Type} [DecidableEq Key] (key name : Key) (value : Value)
    (rest : List (Key × Value)) :
    (⟨(name, value) :: rest⟩ : Table Key Value).get? key =
      if key = name then some value else (⟨rest⟩ : Table Key Value).get? key := by
  by_cases same : key = name
  · simp [get?, same]
  · have missed : (key == name) = false := beq_eq_false_iff_ne.mpr same
    simp [get?, List.lookup_cons, missed, same]

inductive Adds (properties : Table String String) : List Action → String → Prop where
  | nil : Adds properties [] ""
  | text (added : String) (rest : List Action) (output : String) :
      Adds properties rest output → Adds properties (.text added :: rest) (added ++ output)
  | within (key before after : String) (rest : List Action) (output : String) :
      Adds properties rest output →
      Adds properties (.propertyWithin key before after :: rest)
        (propertyText properties key before after ++ output)

structure Wraps (handler : Handler) (render : Table String String → String → String)
    (before after : List Action) : Prop where
  script : handler = .script (before ++ .content :: after)
  texts : ∀ properties, ∃ opening closing, Adds properties before opening ∧
    Adds properties after closing ∧ ∀ content, render properties content =
      opening ++ content ++ closing

def Speaks (commands : Table (Option String) Handler) (meaning : Evaluation.Meaning) : Prop :=
  ∀ name, (commands.get? name = none ∧ meaning name = none) ∨
    ∃ handler render before after, commands.get? name = some handler ∧
      meaning name = some render ∧ Wraps handler render before after

namespace CommandSet

def meaning (set : CommandSet) : Evaluation.Meaning := fun name =>
  if name = some "title" then
    some fun _ content => set.titleBefore ++ content ++ set.titleAfter
  else if name = some "section" then
    some fun properties content =>
      set.sectionBefore ++ propertyText properties "title" set.headingBefore set.headingAfter ++
        content ++ set.sectionAfter
  else if name = some "b" then
    some fun _ content => set.boldBefore ++ content ++ set.boldAfter
  else if name = some "i" then
    some fun _ content => set.italicBefore ++ content ++ set.italicAfter
  else none

theorem around_wraps (before after : String) :
    Wraps (around before after) (fun _ content => before ++ content ++ after) [.text before]
      [.text after] := by
  refine ⟨rfl, fun properties => ⟨before ++ "", after ++ "", ?_, ?_, ?_⟩⟩
  · exact .text before [] "" .nil
  · exact .text after [] "" .nil
  · simp

theorem sectionHandler_wraps (set : CommandSet) :
    Wraps set.sectionHandler (fun properties content =>
      set.sectionBefore ++ propertyText properties "title" set.headingBefore set.headingAfter ++
        content ++ set.sectionAfter)
      [.text set.sectionBefore, .propertyWithin "title" set.headingBefore set.headingAfter]
      [.text set.sectionAfter] := by
  refine ⟨rfl, fun properties => ⟨set.sectionBefore ++ (propertyText properties "title"
    set.headingBefore set.headingAfter ++ ""), set.sectionAfter ++ "", ?_, ?_, ?_⟩⟩
  · exact .text _ _ _ (.within "title" set.headingBefore set.headingAfter [] "" .nil)
  · exact .text set.sectionAfter [] "" .nil
  · simp

theorem register_named (settings : Settings) (world : World) (name : String)
    (actions : List Action) (named : isName name = true) :
    (world.register settings name (.script actions)).2 = world.withContext fun context =>
      { context with commands := context.commands.put name (.script actions) } := by
  simp [World.register, named]

def stocked (set : CommandSet) (commands : Table (Option String) Handler) :
    Table (Option String) Handler :=
  set.handlers.foldl (fun commands entry => commands.put (some entry.1) entry.2) commands

theorem addTo_eq (set : CommandSet) (settings : Settings) (world : World) :
    set.addTo settings world = world.withContext fun context =>
      { context with commands := set.stocked context.commands } := by
  simp only [addTo, stocked, handlers, List.foldl_cons, List.foldl_nil, around, sectionHandler]
  rw [register_named settings _ "title" _ (by decide), register_named settings _ "section" _
    (by decide), register_named settings _ "b" _ (by decide), register_named settings _ "i" _
    (by decide)]
  rfl

theorem speaks (set : CommandSet) (settings : Settings) (world : World)
    (fresh : world.context.commands = {}) :
    Speaks (set.addTo settings world).context.commands set.meaning := by
  have commands : (set.addTo settings world).context.commands = ⟨[
      (some "title", around set.titleBefore set.titleAfter),
      (some "section", set.sectionHandler),
      (some "b", around set.boldBefore set.boldAfter),
      (some "i", around set.italicBefore set.italicAfter)]⟩ := by
    rw [addTo_eq]
    simp [World.withContext, fresh, stocked, handlers, Table.put, Table.putEntry]
  rw [commands]
  intro name
  by_cases title : name = some "title"
  · subst title
    exact Or.inr ⟨_, _, _, _, rfl, rfl, around_wraps _ _⟩
  by_cases heading : name = some "section"
  · subst heading
    exact Or.inr ⟨_, _, _, _, rfl, rfl, sectionHandler_wraps set⟩
  by_cases bold : name = some "b"
  · subst bold
    exact Or.inr ⟨_, _, _, _, rfl, rfl, around_wraps _ _⟩
  by_cases italic : name = some "i"
  · subst italic
    exact Or.inr ⟨_, _, _, _, rfl, rfl, around_wraps _ _⟩
  refine Or.inl ⟨?_, by simp [meaning, title, heading, bold, italic]⟩
  simp only [Table.get?_cons, title, heading, bold, italic, if_false]
  rfl

end CommandSet

end Stencil
