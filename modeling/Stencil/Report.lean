import Stencil.Source
import Stencil.Status

/-!
Reports on sources that cannot be parsed: the status, the position and, for an
error inside of the source, the line and column with the text of that line. The
leading spaces and tabs of a line are no part of it, and columns count from the
first character behind them, so the caret stands under the faulty character.
-/

namespace Stencil

structure Place where
  line : Nat
  column : Nat
  sourceLine : String
  deriving DecidableEq, Repr

structure Report where
  status : Status
  position : Int
  place : Option Place := none
  deriving DecidableEq, Repr

def isIndent (c : Char) : Bool := c == ' ' || c == '\t'

namespace Source

def lineBefore (source : Source) (position : Nat) : List Char :=
  ((source.toList.take position).reverse.takeWhile (· != '\n')).reverse

def lineStart (source : Source) (position : Nat) : Nat :=
  position - ((source.lineBefore position).dropWhile isIndent).length

def place (source : Source) (position : Nat) : Place where
  line := (source.toList.take position).count '\n' + 1
  column := position - source.lineStart position + 1
  sourceLine := String.ofList
    ((source.toList.drop (source.lineStart position)).takeWhile (· != '\n'))

end Source

namespace Report

def locate (source : Source) (status : Status) (position : Nat) : Report :=
  let position := min position source.size
  { status, position, place := some (source.place position) }

def caret (column : Nat) : String := String.ofList (List.replicate (column - 1) ' ' ++ ['^'])

def text (report : Report) : String :=
  let line := match report.place with
    | some place => toString place.line
    | none => "None"
  "Line: " ++ line ++ ", Char: " ++ toString report.position ++ ", Error: "
    ++ report.status.message ++ "\n" ++ (report.place.map Place.sourceLine).getD "" ++ "\n"
    ++ caret ((report.place.map Place.column).getD 1)

end Report

end Stencil
