import Stencil.Digit
import Stencil.Fault

/-!
Handlers of commands. A handler is a script: a list of actions that are carried
out one after the other, each of them adding to the output. An action may render
a part of the command, change the context or the document, fail, or end the
script with a reply of its own.
-/

namespace Stencil

inductive Action where
  | text (text : String)
  /-- Renders the body of the element, whatever its kind. -/
  | body
  | bodyFirst
  /-- Renders the body of the element as that of a command. -/
  | content
  | property (key : String)
  /-- Adds a property between two texts, or nothing if there is none of that key. -/
  | propertyWithin (key before after : String)
  | properties
  | name
  | depth
  /-- Caches a parsed text, or an empty value; shows the label of the status if asked. -/
  | setVariable (name : String) (source : Option String) (readOnly shown : Bool)
  | eraseVariable (name : String)
  | clearVariables
  /-- Renders a cached value without marking it as expanding. -/
  | getVariable (name : String)
  | isExpanding (name : String)
  | listVariables
  | register (name : String) (actions : List Action)
  | unregister (name : String)
  | removeSelf
  | appendAfter (source : String)
  | setContent (source : String)
  | putProperty (key value : String)
  | fail (text : String)
  | endEmpty
  | endNumber (value : Int)

/-- A registered value; only a script can be called. -/
inductive Handler where
  | script (actions : List Action)
  | inert

inductive Reply where
  | nothing
  | text (text : String)
  | number (value : Int)
  deriving DecidableEq, Repr

def Reply.rendered : Reply → Except Fault String
  | .nothing => .ok ""
  | .text output => .ok output
  | .number value =>
      if value.natAbs < Digit.bound then .ok (toString value) else .error .numberTooLong

end Stencil
