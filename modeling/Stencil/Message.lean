import Stencil.Layout

/-!
Messages with placeholders for arguments. A placeholder in braces holds the name
of its argument, a conversion behind an exclamation mark and a layout behind a
colon, each of which may be absent; doubled braces stand for one. Arguments are
taken in turn where no name is given and by position where it is a number, and a
message may not do both. The layout of a placeholder may hold placeholders of
its own, which take part in the same numbering and nest no further.

A message is first divided into segments, whatever its arguments are. The
segments are then written from left to right, so the first that fails decides.
-/

namespace Stencil

namespace Message

inductive Error where
  | malformed
  /-- A position behind the last argument, or behind the last character of one. -/
  | positionMissing
  | nameUnknown
  | attributeUnknown
  /-- The characters of a text are reached by numbers only. -/
  | keyInvalid
  deriving DecidableEq, Repr

structure Field where
  name : List Char
  conversion : Option Char := none
  layout : List Char := []
  deriving DecidableEq, Repr

inductive Segment where
  | literal (c : Char)
  | field (field : Field)
  /-- Nothing behind this can be read. -/
  | malformed
  deriving DecidableEq, Repr

/-! Reading -/

def splitName? (bracketed : Bool) : List Char → Option (List Char × List Char)
  | [] => none
  | c :: rest =>
      if bracketed then
        (splitName? (c != ']') rest).map fun split => (c :: split.1, split.2)
      else if c == '\x7d' || c == ':' || c == '!' then some ([], c :: rest)
      else if c == '\x7b' then none
      else (splitName? (c == '[') rest).map fun split => (c :: split.1, split.2)

/-- Splits a layout off, before the brace that closes its field; the first
number counts the braces that are open inside of it. -/
def splitLayout? : Nat → List Char → Option (List Char × List Char)
  | _, [] => none
  | depth, c :: rest =>
      if c == '\x7b' then
        (splitLayout? (depth + 1) rest).map fun split => (c :: split.1, split.2)
      else if c == '\x7d' then
        match depth with
        | 0 => some ([], rest)
        | outer + 1 => (splitLayout? outer rest).map fun split => (c :: split.1, split.2)
      else (splitLayout? depth rest).map fun split => (c :: split.1, split.2)

def readField? (text : List Char) : Option (Field × List Char) := do
  let (name, rest) ← splitName? false text
  match rest with
  | '\x7d' :: rest => some ({ name }, rest)
  | ':' :: rest => do
      let (layout, rest) ← splitLayout? 0 rest
      some ({ name, layout }, rest)
  | '!' :: conversion :: '\x7d' :: rest => some ({ name, conversion }, rest)
  | '!' :: conversion :: ':' :: rest => do
      let (layout, rest) ← splitLayout? 0 rest
      some ({ name, conversion, layout }, rest)
  | _ => none

def segmentsFor : Nat → List Char → List Segment
  | 0, _ => []
  | _, [] => []
  | count + 1, '\x7b' :: '\x7b' :: rest => .literal '\x7b' :: segmentsFor count rest
  | count + 1, '\x7d' :: '\x7d' :: rest => .literal '\x7d' :: segmentsFor count rest
  | _, '\x7d' :: _ => [.malformed]
  | count + 1, '\x7b' :: rest =>
      match readField? rest with
      | some (field, rest) => .field field :: segmentsFor count rest
      | none => [.malformed]
  | count + 1, c :: rest => .literal c :: segmentsFor count rest

def segments (text : List Char) : List Segment := segmentsFor text.length text

/-! Arguments -/

inductive Numbering where
  | undecided
  | inTurn (next : Nat)
  | byPosition
  deriving DecidableEq, Repr

def Numbering.takeNext : Numbering → Except Error (Nat × Numbering)
  | undecided => .ok (0, inTurn 1)
  | inTurn next => .ok (next, inTurn (next + 1))
  | byPosition => .error .malformed

def Numbering.takeAt (index : Nat) : Numbering → Except Error (Nat × Numbering)
  | inTurn _ => .error .malformed
  | _ => .ok (index, byPosition)

/-- The number that a text stands for, if it consists of digits. A number that is
too large is malformed, whatever follows it. -/
def position? (text : List Char) : Except Error (Option Nat) :=
  let (number, rest) := Digit.readNumber text
  if Layout.largest < number.getD 0 then .error .malformed
  else if rest.isEmpty then .ok number
  else .ok none

def characterAt (value key : List Char) : Except Error Char := do
  if key.isEmpty then throw .malformed
  match ← position? key with
  | none => throw .keyInvalid
  | some index =>
      match value[index]? with
      | none => throw .positionMissing
      | some c => pure c

def follow : Nat → List Char → List Char → Except Error (List Char)
  | _, [], value => .ok value
  | count + 1, '[' :: path, value => do
      let key := path.takeWhile (· != ']')
      let c ← characterAt value key
      follow count (path.drop (key.length + 1)) [c]
  | _, '.' :: path, _ =>
      if path.head?.all fun c => c == '.' || c == '[' then .error .malformed
      else .error .attributeUnknown
  | _, _, _ => .error .malformed

def valueOf (arguments : List String) (numbering : Numbering) (name : List Char) :
    Except Error (List Char × Numbering) := do
  let root := name.takeWhile fun c => c != '.' && c != '['
  let (index, numbering) ←
    if root.isEmpty then numbering.takeNext
    else
      match ← position? root with
      | some index => numbering.takeAt index
      | none => throw .nameUnknown
  match arguments[index]? with
  | none => throw .positionMissing
  | some argument =>
      let value ← follow name.length (name.drop root.length) argument.toList
      pure (value, numbering)

/-! Writing -/

def convert (value : List Char) (conversion : Option Char) : Except Error (List Char) :=
  if conversion.all (· == 's') then .ok value else .error .malformed

def writeSegments (arguments : List String)
    (writeLayout : Numbering → List Char → Except Error (List Char × Numbering)) :
    Numbering → List Segment → Except Error (List Char × Numbering)
  | numbering, [] => .ok ([], numbering)
  | _, .malformed :: _ => .error .malformed
  | numbering, .literal c :: rest => do
      let (tail, numbering) ← writeSegments arguments writeLayout numbering rest
      pure (c :: tail, numbering)
  | numbering, .field field :: rest => do
      let (value, numbering) ← valueOf arguments numbering field.name
      let value ← convert value field.conversion
      let (layout, numbering) ←
        if field.layout.contains '\x7b' then writeLayout numbering field.layout
        else pure (field.layout, numbering)
      match Layout.read? layout with
      | none => throw .malformed
      | some layout =>
          let (tail, numbering) ← writeSegments arguments writeLayout numbering rest
          pure (layout.apply value ++ tail, numbering)

def write (arguments : List String) :
    Nat → Numbering → List Char → Except Error (List Char × Numbering)
  | 0, _, _ => .error .malformed
  | levels + 1, numbering, text =>
      writeSegments arguments (write arguments levels) numbering (segments text)

def fill (message : String) (arguments : List String) : Except Error String :=
  if arguments.isEmpty then .ok message
  else do
    let (text, _) ← write arguments 2 .undecided message.toList
    pure (String.ofList text)

end Message

end Stencil
