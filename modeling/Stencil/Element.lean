import Stencil.Table

/-!
Elements of a template document. A `Node` is what an element says: literal text,
the name of a variable or the name of a command with its properties. Elements
are made with a text; only where nothing is checked may it be taken away. An
`Element` is a node with its four links: the siblings on both sides, the first
member of its body, and the owner of the body it belongs to.
-/

namespace Stencil

inductive Kind where
  | text
  | variable
  | command
  deriving DecidableEq, Repr

namespace Kind

def all : List Kind := [.text, .variable, .command]

def number : Kind → Nat
  | .text => 1
  | .variable => 2
  | .command => 3

def label : Kind → String
  | .text => "TEXT"
  | .variable => "VARIABLE"
  | .command => "COMMAND"

def described : Kind → String
  | .text => "a text"
  | .variable => "a variable"
  | .command => "a command"

end Kind

structure Node where
  kind : Kind
  text : Option String
  properties : Table String String := {}
  deriving DecidableEq, Repr

def shown (text : Option String) : String := text.getD "None"

abbrev ElementId := Nat

structure Element extends Node where
  next : Option ElementId := none
  prev : Option ElementId := none
  child : Option ElementId := none
  parent : Option ElementId := none
  deriving DecidableEq, Repr

end Stencil
