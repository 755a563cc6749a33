import Stencil.World

/-!
What one action of a script does. Its effect on the world is immediate; what it
wants in the output is either a text, the end of the script, or a part of the
document that is still to be rendered. A script fails on a missing property, on
request, and on a fault; the changes made before that stay.
-/

namespace Stencil

inductive Trouble where
  | missingProperty (key : String)
  | raised (text : String)
  | notCallable
  /-- A list of names holds a missing one at this index. -/
  | nameMissing (index : Nat)
  | fault (fault : Fault)
  deriving DecidableEq, Repr

/-- The cause as a warning states it. A script that is rendered meets three faults: a
missing text, where one is to be rendered, a number of too many digits, where a
command replies with one, and a missing chain, where the text to append could not
be parsed. -/
def Trouble.message : Trouble → String
  | missingProperty key => "missing property " ++ key
  | raised text => text
  | notCallable => "'str' object is not callable"
  | nameMissing index =>
      "sequence item " ++ toString index ++ ": expected str instance, NoneType found"
  | fault .noValue => "expected string or bytes-like object, got 'NoneType'"
  | fault .numberTooLong =>
      "Exceeds the limit (" ++ toString Digit.limit ++ " digits) for integer string conversion; "
        ++ "use sys.set_int_max_str_digits() to increase the limit"
  | fault _ => "'NoneType' object has no attribute 'next'"

inductive Demand where
  | add (text : String)
  | finish (reply : Reply)
  | render (start : Option ElementId) (toEnd : Bool)
  deriving DecidableEq, Repr

namespace World

def parsedHead (settings : Settings) (world : World) (text : String)
    (first : Option Int := none) (last : Option Int := none) :
    Except Fault (Option ElementId × World) := do
  let parsed ← world.parse settings text first last
  match parsed.1 with
  | .ok head => pure (some head, parsed.2)
  | .error _ => pure (none, parsed.2)

def onElement (world : World) (element : Option ElementId)
    (act : ElementId → Except Trouble Demand × World) : Except Trouble Demand × World :=
  match element with
  | some id => act id
  | none => (.error (.fault .noElement), world)

def appendText (settings : Settings) (world : World) (element : Option ElementId) (text : String) :
    Except Trouble Demand × World :=
  match world.parsedHead settings text with
  | .error fault => (.error (.fault fault), world)
  | .ok (head, parsed) =>
      match parsed.store.append settings.errorChecks element head with
      | .error fault => (.error (.fault fault), parsed)
      | .ok outcome => (.ok (.add ""), (parsed.accept settings outcome).2)

def setBodyText (settings : Settings) (world : World) (expected : Kind) (element : Option ElementId)
    (text : String) (first : Option Int := none) (last : Option Int := none) :
    Except Fault (Status × World) :=
  (world.accept settings) <$>
    world.store.setBodyText settings.errorChecks expected element text first last

def setVariableText (settings : Settings) (world : World) (name : Option String)
    (text : Option String) (readOnly : Bool) (first : Option Int := none)
    (last : Option Int := none) : Except Fault (Status × World) := do
  let parsed ← match text with
    | none => pure (none, world)
    | some text => world.parsedHead settings text first last
  pure (parsed.2.setVariable settings name parsed.1 readOnly)

def perform (settings : Settings) (world : World) (element : Option ElementId) :
    Action → Except Trouble Demand × World
  | .text text => (.ok (.add text), world)
  | .body => world.onElement element fun id =>
      (.ok (.render (world.store.child id) true), world)
  | .bodyFirst => world.onElement element fun id =>
      (.ok (.render (world.store.child id) false), world)
  | .content =>
      match world.bodyOf settings .command element with
      | .error fault => (.error (.fault fault), world)
      | .ok (body, noted) => (.ok (.render body true), noted)
  | .property key => world.onElement element fun id =>
      match (world.store.properties id).get? key with
      | some value => (.ok (.add value), world)
      | none => (.error (.missingProperty key), world)
  | .propertyWithin key before after => world.onElement element fun id =>
      match (world.store.properties id).get? key with
      | some value => (.ok (.add (before ++ value ++ after)), world)
      | none => (.ok (.add ""), world)
  | .properties => world.onElement element fun id =>
      let pairs := (world.store.properties id).sorted.map fun pair => pair.1 ++ "=" ++ pair.2
      (.ok (.add (";".intercalate pairs)), world)
  | .name => world.onElement element fun id =>
      match world.store.text id with
      | some name => (.ok (.add name), world)
      | none => (.error (.fault .noValue), world)
  | .depth => (.ok (.add (toString world.context.depth)), world)
  | .setVariable name source readOnly shown =>
      match world.setVariableText settings name source readOnly with
      | .error fault => (.error (.fault fault), world)
      | .ok (status, changed) => (.ok (.add (if shown then status.label else "")), changed)
  | .eraseVariable name => (.ok (.add ""), world.eraseVariable name)
  | .clearVariables => (.ok (.add ""), world.clearVariables)
  | .getVariable name => (.ok (.render (world.context.chainOf name) true), world)
  | .isExpanding name =>
      (.ok (.add (if world.context.isExpanding name then "1" else "0")), world)
  | .listVariables =>
      let names := world.context.cache.keys
      match names.findIdx? Option.isNone with
      | some index => (.error (.nameMissing index), world)
      | none => (.ok (.add (",".intercalate (names.filterMap id))), world)
  | .register name actions =>
      (.ok (.add ""), (world.register settings name (.script actions)).2)
  | .unregister name => (.ok (.add ""), world.unregister name)
  | .removeSelf => (.ok (.add ""), (world.accept settings (world.store.remove element)).2)
  | .appendAfter source => world.appendText settings element source
  | .setContent source =>
      match world.setBodyText settings .command element source with
      | .error fault => (.error (.fault fault), world)
      | .ok (_, changed) => (.ok (.add ""), changed)
  | .putProperty key value => world.onElement element fun id =>
      let properties := (world.store.properties id).put key value
      (.ok (.add ""), { world with store := world.store.setProperties id properties })
  | .fail text => (.error (.raised text), world)
  | .endEmpty => (.ok (.finish .nothing), world)
  | .endNumber value => (.ok (.finish (.number value)), world)

end World

end Stencil
