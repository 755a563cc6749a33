import Stencil.Script

/-!
Rendering. A text renders without its escapes; a missing one is a fault, which
ends the rendering unless a handler is at work on it. A variable with a body
renders the body and then caches a copy of it; a bare variable renders its cached
chain, which is pinned meanwhile. A command renders what its handler replies; a
reply is written when the handler is done, so a number of too many digits is a fault
and not a failure of the handler. The chain is followed along the links as they are
when each element is done, so a handler may change what comes next. Depth and pins
are given back on every way out. Fuel bounds the steps: without an answer the fuel
ran out, or the evaluation has no end.
-/

namespace Stencil.World

def deeper (world : World) : World :=
  world.withContext fun context => { context with depth := context.depth + 1 }

def shallower (world : World) : World :=
  world.withContext fun context => { context with depth := context.depth - 1 }

def cacheCopy (settings : Settings) (world : World) (name : Option String)
    (start : Option ElementId) :
    Option World :=
  match world.store.copyAll start with
  | .error _ => none
  | .ok (store, head) =>
      let copied := { world with store := store }
      some (copied.setVariable settings name head (world.context.readOnly name)).2

abbrev Rendered := Except Fault String × World

/-- The output of a command: a failing handler renders nothing and is warned of, but
not a reply that cannot be written. -/
def concludeCommand (settings : Settings) (name : Option String) :
    Except Trouble Reply × World → Rendered
  | (.ok reply, world) => (reply.rendered, world)
  | (.error trouble, world) =>
      (.ok "", note settings [.commandFailed (shown name) trouble.message] world)

def concludeAssignment (settings : Settings) (name : Option String) (variableId : ElementId) :
    Rendered → Option Rendered
  | (.error fault, world) => some (.error fault, world)
  | (.ok output, world) =>
      (world.cacheCopy settings name (world.store.child variableId)).map fun cached =>
        (.ok output, cached)

mutual

def render (settings : Settings) :
    Nat → World → Option ElementId → Bool → Option Rendered
  | 0, _, _, _ => none
  | _ + 1, world, none, _ => some (.ok "", world)
  | fuel + 1, world, some id, toEnd =>
      if settings.maxDepth ≤ world.context.depth then
        some (.ok "", note settings [.depthReached settings.maxDepth] world)
      else do
        let rendered ← renderFrom settings fuel world.deeper id toEnd
        pure (rendered.1, rendered.2.shallower)

def renderFrom (settings : Settings) :
    Nat → World → ElementId → Bool → Option Rendered
  | 0, _, _, _ => none
  | fuel + 1, world, id, toEnd => do
      match ← renderOne settings fuel world id with
      | (.error fault, world) => pure (.error fault, world)
      | (.ok output, world) =>
          match if toEnd then world.store.next id else none with
          | none => pure (.ok output, world)
          | some next =>
              let rest ← renderFrom settings fuel world next toEnd
              pure ((output ++ ·) <$> rest.1, rest.2)

def renderOne (settings : Settings) : Nat → World → ElementId → Option Rendered
  | 0, _, _ => none
  | fuel + 1, world, id =>
      let name := world.store.text id
      match world.store.kind? id with
      | none => pure (.ok "", world)
      | some .text =>
          match name with
          | some text => pure (.ok (Text.unescape text), world)
          | none => pure (.error .noValue, world)
      | some .variable =>
          match world.store.child id with
          | some body => do
              let rendered ← render settings fuel world (some body) true
              concludeAssignment settings name id rendered
          | none => renderCached settings fuel world name
      | some .command =>
          match world.context.commands.get? name with
          | none => pure (.ok "", note settings [.commandMissing (shown name)] world)
          | some handler => do
              let called ← call settings fuel world handler (some id)
              pure (concludeCommand settings name called)

def renderCached (settings : Settings) : Nat → World → Option String → Option Rendered
  | 0, _, _ => none
  | fuel + 1, world, name =>
      match world.context.chainOf name with
      | none => pure (.ok "", world)
      | some chain =>
          if world.context.isExpanding name then
            pure (.ok "", note settings [.variableCircular (shown name)] world)
          else do
            let rendered ←
              render settings fuel (world.enterPin name (some chain)) (some chain) true
            pure (rendered.1, rendered.2.leavePin name (some chain))

def call (settings : Settings) :
    Nat → World → Handler → Option ElementId → Option (Except Trouble Reply × World)
  | 0, _, _, _ => none
  | _ + 1, world, .inert, _ => some (.error .notCallable, world)
  | fuel + 1, world, .script actions, element => run settings fuel world element actions ""

def run (settings : Settings) : Nat → World → Option ElementId → List Action → String →
    Option (Except Trouble Reply × World)
  | 0, _, _, _, _ => none
  | _ + 1, world, _, [], output => some (.ok (.text output), world)
  | fuel + 1, world, element, action :: rest, output =>
      match world.perform settings element action with
      | (.error (.fault .endless), _) => none
      | (.error trouble, changed) => some (.error trouble, changed)
      | (.ok (.add text), changed) => run settings fuel changed element rest (output ++ text)
      | (.ok (.finish reply), changed) => some (.ok reply, changed)
      | (.ok (.render start toEnd), changed) => do
          match ← render settings fuel changed start toEnd with
          | (.error fault, world) => pure (.error (.fault fault), world)
          | (.ok added, world) => run settings fuel world element rest (output ++ added)

end

end Stencil.World
