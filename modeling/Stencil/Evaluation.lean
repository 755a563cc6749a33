import Stencil.Forest
import Stencil.Text

/-!
What a document means, said on forests and without a store. The state is the
ordered map of the variables, each with a forest and a flag. The value of a
command comes from a meaning of its name, which is given the rendered body and
the properties; a name without a meaning renders nothing. Depth is counted down,
and what is nested too deeply renders nothing and changes nothing.
-/

namespace Stencil.Evaluation

structure Stored where
  forest : Forest
  readOnly : Bool
  deriving DecidableEq, Repr

abbrev State := Table (Option String) Stored

abbrev Expanding := List (Option String)

/-- A forest without nodes is no value. -/
def value? (state : State) (name : Option String) : Option Forest :=
  (state.get? name).bind fun stored =>
    match stored.forest with
    | .nil => none
    | forest => some forest

def store (state : State) (name : Option String) (forest : Forest) : State :=
  state.put name ⟨forest, ((state.get? name).map Stored.readOnly).getD false⟩

abbrev Meaning := Option String → Option (Table String String → String → String)

/-- The output and the next state of one node, where `below` evaluates what is
nested in it under the names that are being expanded. -/
def node (below : Expanding → State → Forest → String × State) (meaning : Meaning)
    (expanding : Expanding) (state : State) (node : Node) (body : Forest) : String × State :=
  match node.kind, body with
  | .text, _ => ((node.text.map Text.unescape).getD "", state)
  | .variable, .nil =>
      match value? state node.text with
      | none => ("", state)
      | some forest =>
          if expanding.contains node.text then ("", state)
          else below (node.text :: expanding) state forest
  | .variable, body =>
      let rendered := below expanding state body
      (rendered.1, store rendered.2 node.text body)
  | .command, body =>
      match meaning node.text with
      | none => ("", state)
      | some render =>
          let rendered := below expanding state body
          (render node.properties rendered.1, rendered.2)

def nodes (below : Expanding → State → Forest → String × State) (meaning : Meaning)
    (expanding : Expanding) : State → Forest → String × State
  | state, .nil => ("", state)
  | state, .cons first body rest =>
      let head := node below meaning expanding state first body
      let tail := nodes below meaning expanding head.2 rest
      (head.1 ++ tail.1, tail.2)

def evaluate (meaning : Meaning) : Nat → Expanding → State → Forest → String × State
  | 0, _, state, _ => ("", state)
  | levels + 1, expanding, state, forest =>
      nodes (evaluate meaning levels) meaning expanding state forest

end Stencil.Evaluation
