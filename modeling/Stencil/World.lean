import Stencil.Context
import Stencil.Store.Copy
import Stencil.Store.Parse

/-!
A world is a store of elements, the context of a document and the notices given
so far. The operations here carry those of the store over to a world and keep
the variable cache: a chain that loses its place in the cache is destroyed, or
retired while it is pinned.
-/

namespace Stencil

structure World where
  store : Store := {}
  context : Context := {}
  log : List Notice := []

namespace World

def note (settings : Settings) (notices : List Notice) (world : World) : World :=
  { world with log := world.log ++ notices.filter (·.kept settings) }

def withContext (world : World) (change : Context → Context) : World :=
  { world with context := change world.context }

def accept (settings : Settings) (world : World) (outcome : Outcome) : Status × World :=
  (outcome.status, note settings outcome.notices { world with store := outcome.store })

def parse (settings : Settings) (world : World) (text : String)
    (first : Option Int := none) (last : Option Int := none) :
    Except Fault (Except Report ElementId × World) := do
  let parsed ← world.store.parse settings.errorChecks text first last
  pure (parsed.result, note settings parsed.notices { world with store := parsed.store })

def bodyOf (settings : Settings) (world : World) (expected : Kind) (element : Option ElementId) :
    Except Fault (Option ElementId × World) := do
  let body ← world.store.bodyOf settings.errorChecks expected element
  pure (body.1, note settings body.2 world)

def destroyAll (world : World) (start : Option ElementId) : World :=
  { world with store := world.store.destroyAll start }

def retire (world : World) (chain : ElementId) : World :=
  if world.context.isPinned chain then
    world.withContext fun context => { context with retired := context.retired ++ [chain] }
  else world.destroyAll (some chain)

def cacheRefusal (world : World) (name : Option String) (chain : Option ElementId) :
    Option (Status × List Notice) :=
  if !name.any isName then some (.invalidParameter, [.variableNameInvalid (shown name)])
  else
    match chain with
    | some chain =>
        if (world.store.prev chain).isSome || (world.store.parent chain).isSome then
          some (.elementInUse, [])
        else none
    | none => none

def retirePrevious (world : World) (name : Option String) (chain : Option ElementId) : World :=
  match world.context.chainOf name with
  | some previous => if chain = some previous then world else world.retire previous
  | none => world

def setVariable (settings : Settings) (world : World) (name : Option String)
    (chain : Option ElementId) (readOnly : Bool) : Status × World :=
  match if settings.errorChecks then world.cacheRefusal name chain else none with
  | some refusal => (refusal.1, note settings refusal.2 world)
  | none =>
      (.ok, (world.retirePrevious name chain).withContext fun context =>
        { context with cache := context.cache.put name ⟨chain, readOnly⟩ })

def eraseVariable (world : World) (name : Option String) : World :=
  let erased := world.withContext fun context =>
    { context with cache := context.cache.erase name }
  match world.context.chainOf name with
  | some chain => erased.retire chain
  | none => erased

def clearVariables (world : World) : World :=
  (world.context.chains.foldl retire world).withContext fun context =>
    { context with cache := {} }

def enterPin (world : World) (name : Option String) (chain : Option ElementId) : World :=
  world.withContext (·.enter name chain)

def releaseRetired (world : World) (chain : ElementId) : World :=
  if !world.context.isPinned chain && world.context.retired.contains chain then
    (world.withContext fun context =>
      { context with retired := context.retired.erase chain }).destroyAll (some chain)
  else world

def leavePin (world : World) (name : Option String) (chain : Option ElementId) : World :=
  chain.toList.foldl releaseRetired (world.withContext (·.leave name chain))

def register (settings : Settings) (world : World) (name : Option String) (handler : Handler) :
    Status × World :=
  let callable := match handler with
    | .script _ => true
    | .inert => false
  if settings.errorChecks && !(name.any isName && callable) then
    (.invalidParameter, note settings [.commandRefused (shown name)] world)
  else
    (.ok, world.withContext fun context =>
      { context with commands := context.commands.put name handler })

def unregister (world : World) (name : Option String) : World :=
  world.withContext fun context => { context with commands := context.commands.erase name }

def unregisterAll (world : World) : World :=
  world.withContext fun context => { context with commands := {} }

def clear (world : World) : World := world.clearVariables.unregisterAll

end World

end Stencil
