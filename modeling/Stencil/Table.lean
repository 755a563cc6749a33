/-!
Values under keys. A new key goes to the end; writing a present key keeps
its place; a key that was erased and written again goes to the end.
-/

namespace Stencil

structure Table (Key Value : Type) where
  entries : List (Key × Value) := []
  deriving DecidableEq, Repr

namespace Table

variable {Key Value : Type}

def putEntry [DecidableEq Key] (key : Key) (value : Value) :
    List (Key × Value) → List (Key × Value)
  | [] => [(key, value)]
  | entry :: rest =>
      if entry.1 = key then (key, value) :: rest else entry :: putEntry key value rest

def get? [DecidableEq Key] (table : Table Key Value) (key : Key) : Option Value :=
  table.entries.lookup key

def contains [DecidableEq Key] (table : Table Key Value) (key : Key) : Bool :=
  (table.get? key).isSome

def put [DecidableEq Key] (table : Table Key Value) (key : Key) (value : Value) :
    Table Key Value :=
  ⟨putEntry key value table.entries⟩

def erase [DecidableEq Key] (table : Table Key Value) (key : Key) : Table Key Value :=
  ⟨table.entries.filter fun entry => entry.1 != key⟩

def keys (table : Table Key Value) : List Key := table.entries.map Prod.fst

def sorted (table : Table String Value) : List (String × Value) :=
  table.entries.mergeSort fun before after => decide (before.1 ≤ after.1)

def ofList [DecidableEq Key] (entries : List (Key × Value)) : Table Key Value :=
  entries.foldl (fun table entry => table.put entry.1 entry.2) {}

end Table

end Stencil
