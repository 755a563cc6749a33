import Stencil.Element
import Stencil.Message
import Stencil.Report
import Stencil.Settings

/-!
Notices explain what happened; nothing depends on them. A debug notice is kept
unless the settings ask for quiet, a warning is always kept. Hosts may write
notices of their own with arguments for the placeholders of a message.
-/

namespace Stencil

inductive Level where
  | debug
  | warning
  deriving DecidableEq, Repr

def Level.label : Level → String
  | debug => "DEBUG"
  | warning => "WARNING"

inductive Notice where
  | parseFailed (report : Report)
  | rangeInvalid (first last : Int) (length : Nat)
  | mapFailed (status : Status) (position : Nat)
  | positionInChain
  | elementLinked
  | contentOwned
  | kindDiffers (text : String) (expected : Kind)
  | variableNameInvalid (name : String)
  | commandRefused (name : String)
  | commandMissing (name : String)
  | variableCircular (name : String)
  | depthReached (limit : Int)
  | commandFailed (name cause : String)
  | host (level : Level) (message : String)
  deriving DecidableEq, Repr

namespace Notice

def level : Notice → Level
  | commandFailed _ _ => .warning
  | host level _ => level
  | _ => .debug

def message : Notice → String
  | parseFailed report => report.text
  | rangeInvalid first last length =>
      "Invalid parse range [" ++ toString first ++ ", " ++ toString last ++ "] for length "
        ++ toString length
  | mapFailed status position =>
      "Property map error at " ++ toString position ++ ": " ++ status.message
  | positionInChain => "Element In-Use: 'position' is part of the chain being linked."
  | elementLinked => "Element In-Use: 'element' is already linked."
  | contentOwned => "Element In-Use: 'content' is already owned by another element."
  | kindDiffers text expected => "Element '" ++ text ++ "' is not " ++ expected.described ++ "."
  | variableNameInvalid name => "Invalid variable name '" ++ name ++ "'"
  | commandRefused name => "Cannot register command '" ++ name ++ "'"
  | commandMissing name => "Command '" ++ name ++ "' not found"
  | variableCircular name => "Circular reference to variable '" ++ name ++ "', rendering empty"
  | depthReached limit =>
      "Maximum evaluation depth " ++ toString limit ++ " reached, rendering empty"
  | commandFailed name cause => "Command '" ++ name ++ "' failed: " ++ cause
  | host _ message => message

def kept (settings : Settings) (notice : Notice) : Bool :=
  notice.level == .warning || !settings.beQuiet

/-- The notice of a host with the arguments written into its message, or nothing
if the settings drop it; a dropped message is not written. -/
def ofHost? (settings : Settings) (level : Level) (message : String) (arguments : List String) :
    Except Message.Error (Option Notice) :=
  if kept settings (.host level message) then
    (some ∘ host level) <$> Message.fill message arguments
  else .ok none

end Notice

end Stencil
