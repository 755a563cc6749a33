/-!
The outcome codes of parsing and of the element and context operations. The
numbers and labels are a stable contract with hosts; `ok` is the one code that
is not an error.
-/

namespace Stencil

inductive Status where
  | ok
  | invalidParameter
  | elementInUse
  | notCommand
  | notText
  | notVariable
  | nameInvalid
  | noTextFound
  | tokenEndMissing
  | nameMissing
  | identifierInvalid
  | tokenBeginMissing
  | propertyEndMissing
  | mapBeginMissing
  | mapEndMissing
  | mapPairMissing
  | mapKeyMissing
  | mapValueMissing
  deriving DecidableEq, Repr

namespace Status

def all : List Status :=
  [ok, invalidParameter, elementInUse, notCommand, notText, notVariable, nameInvalid,
    noTextFound, tokenEndMissing, nameMissing, identifierInvalid, tokenBeginMissing,
    propertyEndMissing, mapBeginMissing, mapEndMissing, mapPairMissing, mapKeyMissing,
    mapValueMissing]

def number : Status → Nat
  | ok => 0
  | invalidParameter => 1
  | elementInUse => 2
  | notCommand => 3
  | notText => 4
  | notVariable => 5
  | nameInvalid => 6
  | noTextFound => 7
  | tokenEndMissing => 8
  | nameMissing => 9
  | identifierInvalid => 10
  | tokenBeginMissing => 11
  | propertyEndMissing => 12
  | mapBeginMissing => 13
  | mapEndMissing => 14
  | mapPairMissing => 15
  | mapKeyMissing => 16
  | mapValueMissing => 17

def label : Status → String
  | ok => "NONE"
  | invalidParameter => "INVALID_PARAMETER"
  | elementInUse => "ELEMENT_IN_USE"
  | notCommand => "ELEMENT_TYPE_NOT_COMMAND"
  | notText => "ELEMENT_TYPE_NOT_TEXT"
  | notVariable => "ELEMENT_TYPE_NOT_VARIABLE"
  | nameInvalid => "TOKEN_NAME_INVALID"
  | noTextFound => "NO_TEXT_FOUND"
  | tokenEndMissing => "TOKEN_END_MISSING"
  | nameMissing => "TOKEN_NAME_MISSING"
  | identifierInvalid => "TOKEN_IDENTIFIER_INVALID"
  | tokenBeginMissing => "TOKEN_BEGIN_MISSING"
  | propertyEndMissing => "PROPERTY_END_MISSING"
  | mapBeginMissing => "MAP_BEGIN_MISSING"
  | mapEndMissing => "MAP_END_MISSING"
  | mapPairMissing => "MAP_KEY_VALUE_PAIR_MISSING"
  | mapKeyMissing => "MAP_KEY_MISSING"
  | mapValueMissing => "MAP_VALUE_MISSING"

def message : Status → String
  | ok => "No Error"
  | invalidParameter => "A parameter is invalid"
  | elementInUse => "The requested Element is already linked into another chain"
  | notCommand => "The expected Element type is command"
  | notText => "The expected Element type is text"
  | notVariable => "The expected Element type is a variable"
  | nameInvalid => "The Parser found an invalid token name"
  | noTextFound => "The Parser was not able to find any text"
  | tokenEndMissing => "The Parser was not able to find the token end marker '\x7d\x7d'"
  | nameMissing => "The Parser was not able to find the token name"
  | identifierInvalid => "The Parser found an invalid token type"
  | tokenBeginMissing =>
      "The Parser encountered a token end marker '\x7d\x7d' without a preceding begin marker '\x7b\x7b'"
  | propertyEndMissing =>
      "The Parser was not able to find the command property end marker ')'"
  | mapBeginMissing => "The Parser was not able to find the map begin marker '('"
  | mapEndMissing => "The Parser was not able to find the map end marker ')'"
  | mapPairMissing => "The Parser was not able to find the map's key/value pair"
  | mapKeyMissing => "The Parser was not able to find the key of the map's key/value pair"
  | mapValueMissing => "The Parser was not able to find the value of the map's key/value pair"

def isError (status : Status) : Bool := status != ok

def ofPropertyMap : Status → Bool
  | noTextFound | mapBeginMissing | mapEndMissing | mapPairMissing | mapKeyMissing
  | mapValueMissing => true
  | _ => false

end Status

end Stencil
