import BlockTree.Power

/-! Settings as a tree of loosely typed values. -/

namespace BlockTree

inductive Setting where
  | nil
  | bool (value : Bool)
  | int (value : Int)
  | real (value : Float)
  | text (value : String)
  | list (items : List Setting)
  | table (entries : List (String × Setting))
deriving Inhabited

namespace Setting

def entries : Setting → List (String × Setting)
  | table entries => entries
  | _ => []

def items : Setting → List Setting
  | list items => items
  | _ => []

def get? (root : Setting) (key : String) : Option Setting :=
  root.entries.lookup key

/-- Replaces one entry, or adds it at the end. Anything but a table gives way. -/
def put (key : String) (value : Setting) (root : Setting) : Setting :=
  if (root.get? key).isSome then
    .table (root.entries.map fun entry => if entry.1 = key then (key, value) else entry)
  else .table (root.entries ++ [(key, value)])

mutual

/-- Writes a value below `key`. A table is merged into what stands there. -/
def assign (key : String) : Setting → Setting → Setting
  | .table incoming, root => put key (assignAll incoming ((root.get? key).getD (.table []))) root
  | value, root => put key value root

def assignAll : List (String × Setting) → Setting → Setting
  | [], target => target
  | (key, value) :: rest, target => assignAll rest (assign key value target)

end

/-- No list has so many items. -/
def listBound : Nat :=
  2 ^ 24

/-- The place of an item in a list. Places below zero count from the end. -/
def itemPlace? (length : Nat) (place : Int) : Option Nat :=
  if 0 ≤ place then if place < listBound then some place.toNat else none
  else if place.natAbs ≤ length then some (length - place.natAbs)
  else none

/-- Changes one item of a list, or the missing value after its end, and fills the
gap before it. Anything but a list gives way. -/
def modifyItem? (place : Int) (change : Setting → Option Setting) (root : Setting) :
    Option Setting := do
  let place ← itemPlace? root.items.length place
  let item ← change ((root.items[place]?).getD nil)
  let padded := root.items ++ List.replicate (place + 1 - root.items.length) nil
  return .list (padded.set place item)

end Setting

end BlockTree
