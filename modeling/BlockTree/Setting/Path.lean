import BlockTree.Decimal.Digits
import BlockTree.Setting

/-! Places in a tree of settings, and laying the settings of one source over those of
another. -/

namespace BlockTree.Setting

inductive Step where
  | entry (name : String)
  /-- An item of a list. Places below zero count from the end. -/
  | item (place : Int)
deriving DecidableEq

/-- Writes a value at a place, and makes tables and lists on the way. There may be no
such place in a list. -/
def write? : List Step → Setting → Setting → Option Setting
  | [], value, _ => some value
  | [.entry name], value, root => some (assign name value root)
  | .entry name :: steps, value, root =>
    (write? steps value ((root.get? name).getD .nil)).map fun below => put name below root
  | .item place :: steps, value, root => modifyItem? place (write? steps value) root

namespace Step

def isNameChar (c : Char) : Bool :=
  c.isAlphanum || c == '_' || c == '-' || c == ' '

def takeName? (text : List Char) : Option (String × List Char) :=
  match text.span isNameChar with
  | ([], _) => none
  | (name, rest) => some (String.ofList name, rest)

/-- A signed 64-bit number in brackets, after the opening one. Blanks may surround it. -/
def takePlace? (text : List Char) : Option (Int × List Char) :=
  let isBlank (c : Char) : Bool := c == ' ' || c == '\t'
  let text := text.dropWhile isBlank
  let (negative, text) :=
    match text with
    | '-' :: rest => (true, rest)
    | _ => (false, text)
  match text.span Decimal.isDigit with
  | ([], _) => none
  | (digits, rest) =>
    match rest.dropWhile isBlank with
    | ']' :: rest =>
      let n : Int := Decimal.natOf digits
      let place := if negative then -n else n
      if -2 ^ 63 ≤ place ∧ place < 2 ^ 63 then some (place, rest) else none
    | _ => none

def stepsFrom : Nat → List Char → Option (List Step)
  | _, [] => some []
  | 0, _ => none
  | fuel + 1, '.' :: rest =>
    (takeName? rest).bind fun (name, rest) => (stepsFrom fuel rest).map (.entry name :: ·)
  | fuel + 1, '[' :: rest =>
    (takePlace? rest).bind fun (place, rest) => (stepsFrom fuel rest).map (.item place :: ·)
  | _, _ => none

/-- A key leads to a place. One that is not formed like a place is a name as a whole. -/
def ofKey (key : String) : List Step :=
  let steps? :=
    (takeName? key.toList).bind fun (name, rest) =>
      (stepsFrom rest.length rest).map (.entry name :: ·)
  steps?.getD [.entry key]

end Step

def overlay? (source : List (String × Setting)) (root : Setting) : Option Setting :=
  source.foldlM (fun root (key, value) => write? (Step.ofKey key) value root) root

end BlockTree.Setting
