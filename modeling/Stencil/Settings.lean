import Stencil.Digit
import Stencil.Text

/-!
The three settings and how they are read. A setting is taken from the values a
host gives, then from the environment, then from its default. Environment names
are the field names behind a fixed start. All names match in any letter case.
-/

namespace Stencil

def version : String := "0.1.0"

structure Settings where
  beQuiet : Bool := false
  errorChecks : Bool := true
  /-- Evaluation nested at least this deep renders nothing. -/
  maxDepth : Int := 128
  deriving DecidableEq, Repr

inductive RawValue where
  | text (value : String)
  | flag (value : Bool)
  | number (value : Int)
  /-- Anything that no setting can be read from. -/
  | other
  deriving DecidableEq, Repr

namespace RawValue

def trueWords : List String := ["1", "true", "t", "yes", "y", "on"]

def falseWords : List String := ["0", "false", "f", "no", "n", "off"]

def digit (c : Char) : Nat := c.toNat - '0'.toNat

/-- Reads the ASCII digits and underscores that follow a digit. An underscore stands
between two digits; leading zeros may have more of them between. -/
def digitsAfter? (value : Nat) (afterDigit : Bool) : List Char → Option Nat
  | [] => if afterDigit then some value else none
  | c :: rest =>
      if c.isDigit then digitsAfter? (10 * value + digit c) true rest
      else if c == '_' && (afterDigit || value == 0) then digitsAfter? value false rest
      else none

def significant (text : List Char) : Nat :=
  ((text.filter Char.isDigit).dropWhile (· == '0')).length

def digits? : List Char → Option Nat
  | [] => none
  | c :: rest =>
      if c.isDigit && significant (c :: rest) ≤ Digit.limit then digitsAfter? (digit c) true rest
      else none

def wholePart? (text : List Char) : Option (List Char) :=
  match text.dropWhile (· != '.') with
  | [] => some text
  | [_] => none
  | _ :: fraction =>
      if fraction.all (· == '0') then some (text.takeWhile (· != '.')) else none

def integer? (text : String) : Option Int :=
  match wholePart? (Text.trim text.toList) with
  | none => none
  | some ('-' :: rest) => (digits? rest).map fun value => -(value : Int)
  | some ('+' :: rest) => (digits? rest).map fun value => (value : Int)
  | some whole => (digits? whole).map fun value => (value : Int)

def toFlag? : RawValue → Option Bool
  | other => none
  | flag value => some value
  | number value => if value = 1 then some true else if value = 0 then some false else none
  | text value =>
      if trueWords.contains value.toLower then some true
      else if falseWords.contains value.toLower then some false
      else none

def toDepth? : RawValue → Option Int
  | other => none
  | flag value => if value then some 1 else none
  | number value => if 1 ≤ value then some value else none
  | text value => (integer? value).filter (1 ≤ ·)

end RawValue

namespace Settings

/-- A character in lower case. Besides the ASCII letters the Kelvin sign has a
letter of a field name as its lower case. -/
def lowerCase (c : Char) : Char := if c == '\u212a' then 'k' else c.toLower

def caseless (name : String) : String := String.ofList (name.toList.map lowerCase)

def environmentName (field : String) : String := "ztext_" ++ caseless field

def caselessLookup? {Value : Type} (entries : List (String × Value)) (name : String) :
    Option Value :=
  (entries.reverse.find? fun entry => caseless entry.1 == name).map fun entry => entry.2

/-- The value for a field, if there is one. Of the given values the one under
the very name of the field goes before others. -/
def rawValue? (environment : List (String × String)) (given : List (String × RawValue))
    (field : String) : Option RawValue :=
  match (given.lookup field).or (caselessLookup? given (caseless field)) with
  | some value => some value
  | none => (caselessLookup? environment (environmentName field)).map .text

def field? {Value : Type} (raw : Option RawValue) (read : RawValue → Option Value)
    (default : Value) : Option Value :=
  match raw with
  | none => some default
  | some value => read value

def read (environment : List (String × String)) (given : List (String × RawValue)) :
    Except (List String) Settings :=
  let raw := rawValue? environment given
  let defaults : Settings := {}
  let beQuiet := field? (raw "beQuiet") RawValue.toFlag? defaults.beQuiet
  let errorChecks := field? (raw "errorChecks") RawValue.toFlag? defaults.errorChecks
  let maxDepth := field? (raw "maxDepth") RawValue.toDepth? defaults.maxDepth
  match beQuiet, errorChecks, maxDepth with
  | some beQuiet, some errorChecks, some maxDepth => .ok { beQuiet, errorChecks, maxDepth }
  | _, _, _ => .error <|
      (if beQuiet.isNone then ["beQuiet"] else [])
        ++ (if errorChecks.isNone then ["errorChecks"] else [])
        ++ (if maxDepth.isNone then ["maxDepth"] else [])

end Settings

end Stencil
