import Stencil.Element

/-!
Chains of elements without their links: a forest is a first node with the forest
of its body and the forest of the nodes after it. A forest lists its nodes in
preorder, each with its depth.
-/

namespace Stencil

inductive Forest where
  | nil
  | cons (node : Node) (body rest : Forest)
  deriving DecidableEq, Repr

structure Row where
  depth : Nat
  node : Node
  deriving DecidableEq, Repr

namespace Forest

def append : Forest → Forest → Forest
  | nil, other => other
  | cons node body rest, other => cons node body (append rest other)

instance : Append Forest := ⟨append⟩

def size : Forest → Nat
  | nil => 0
  | cons _ body rest => 1 + body.size + rest.size

def height : Forest → Nat
  | nil => 0
  | cons _ body rest => max (body.height + 1) rest.height

def rows : Nat → Forest → List Row
  | _, nil => []
  | depth, cons node body rest => ⟨depth, node⟩ :: (rows (depth + 1) body ++ rows depth rest)

end Forest

end Stencil
