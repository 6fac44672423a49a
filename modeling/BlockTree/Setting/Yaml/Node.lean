import BlockTree.Setting.Yaml.Token

/-! The tree of a YAML document. References are replaced by the nodes that they name. -/

namespace BlockTree.Yaml

inductive Node where
  | scalar (plain : Bool) (tag? : Option (String × String)) (text : String)
  /-- A scalar that was left out, without a tag or an anchor. -/
  | missing
  /-- A reference within the node that it names. -/
  | unfinished
  | list (items : List Node)
  /-- Keys and values in turn. -/
  | table (parts : List Node)
deriving Inhabited

/-- The tokens that are left, and the nodes that have been given names. -/
structure Source where
  tokens : List Token
  /-- The number of the node that each name was given to last. -/
  numbers : List (String × Nat) := []
  nodes : List (Nat × Node) := []
  count : Nat := 0

abbrev Reader := StateT Source Option

namespace Reader

def peek : Reader Token :=
  return (← get).tokens.headD .textEnd

def skip : Reader Unit :=
  modify fun s => { s with tokens := s.tokens.tail }

def takes (token : Token) : Reader Bool := do
  if (← peek) = token then
    skip
    return true
  else return false

def expect (token : Token) : Reader Unit := do
  if !(← takes token) then
    failure

def anchor? : Reader (Option Nat) := do
  match ← peek with
  | .anchor name =>
    skip
    modifyGet fun s =>
      (some s.count, { s with numbers := (name, s.count) :: s.numbers, count := s.count + 1 })
  | _ => return none

def tag? : Reader (Option (String × String)) := do
  match ← peek with
  | .tag handle suffix =>
    skip
    return some (handle, suffix)
  | _ => return none

def marks : Reader (Option Nat × Option (String × String)) := do
  match ← anchor? with
  | some number => return (some number, ← tag?)
  | none =>
    match ← tag? with
    | some tag => return (← anchor?, some tag)
    | none => return (none, none)

def referenced (name : String) : Reader Node := do
  let s ← get
  match s.numbers.lookup name with
  | some number => return (s.nodes.lookup number).getD .unfinished
  | none => failure

mutual

/-- A node. Blocks are allowed outside of brackets, and items without a block of their own
only below a key. -/
def node (inBlock afterKey : Bool) : Nat → Reader Node
  | 0 => failure
  | fuel + 1 => do
    if let .reference name := ← peek then
      skip
      return ← referenced name
    let (number?, tag?) ← marks
    let node ← content inBlock afterKey (number?.isSome || tag?.isSome) tag? fuel
    if let some number := number? then
      modify fun s => { s with nodes := (number, node) :: s.nodes }
    return node

def content (inBlock afterKey marked : Bool) (tag? : Option (String × String)) :
    Nat → Reader Node
  | 0 => failure
  | fuel + 1 => do
    match ← peek, inBlock with
    | .scalar plain text, _ =>
      skip
      return .scalar plain tag? text
    | .listStart, _ =>
      skip
      return .list (← listItems true fuel)
    | .tableStart, _ =>
      skip
      return .table (← tableParts true fuel)
    | .itemsStart, true =>
      skip
      return .list (← items fuel)
    | .entriesStart, true =>
      skip
      return .table (← entries fuel)
    | token, _ =>
      if afterKey && token = .item then return .list (← looseItems fuel)
      else if marked then return .scalar true tag? ""
      else failure

/-- A node unless one of some tokens comes, which show that it was left out. -/
def nodeBefore (stops : List Token) (inBlock afterKey : Bool) : Nat → Reader Node
  | 0 => failure
  | fuel + 1 => do
    if (← peek) ∈ stops then return .missing else node inBlock afterKey fuel

def items : Nat → Reader (List Node)
  | 0 => failure
  | fuel + 1 => do
    if ← takes .blockEnd then return []
    expect .item
    let node ← nodeBefore [.item, .blockEnd] true false fuel
    return node :: (← items fuel)

def looseItems : Nat → Reader (List Node)
  | 0 => failure
  | fuel + 1 => do
    if ← takes .item then
      let node ← nodeBefore [.item, .key, .value, .blockEnd] true false fuel
      return node :: (← looseItems fuel)
    else return []

def entries : Nat → Reader (List Node)
  | 0 => failure
  | fuel + 1 => do
    if ← takes .blockEnd then return []
    let stops := [.key, .value, .blockEnd]
    let key ←
      if ← takes .key then nodeBefore stops true true fuel
      else if (← peek) = .value then pure .missing
      else failure
    let value ← if ← takes .value then nodeBefore stops true true fuel else pure .missing
    return key :: value :: (← entries fuel)

def listItems (first : Bool) : Nat → Reader (List Node)
  | 0 => failure
  | fuel + 1 => do
    if ← takes .listEnd then return []
    if !first then
      expect .comma
      if ← takes .listEnd then
        return []
    let item ← if ← takes .key then pair fuel else node false false fuel
    return item :: (← listItems false fuel)

/-- A table of one entry, as an item of a list in brackets. A token that shows its key to be
missing is passed over. -/
def pair : Nat → Reader Node
  | 0 => failure
  | fuel + 1 => do
    let next ← peek
    let key ←
      if next = .value || next = .comma || next = .listEnd then do
        skip
        pure .missing
      else node false false fuel
    let value ←
      if ← takes .value then nodeBefore [.comma, .listEnd] false false fuel else pure .missing
    return .table [key, value]

def tableParts (first : Bool) : Nat → Reader (List Node)
  | 0 => failure
  | fuel + 1 => do
    if ← takes .tableEnd then return []
    if !first then
      expect .comma
      if ← takes .tableEnd then
        return []
    let stops := [.comma, .tableEnd]
    if ← takes .key then
      let key ← nodeBefore (.value :: stops) false false fuel
      let value ← if ← takes .value then nodeBefore stops false false fuel else pure .missing
      return key :: value :: (← tableParts false fuel)
    else if ← takes .value then
      let value ← nodeBefore stops false false fuel
      return .missing :: value :: (← tableParts false fuel)
    else
      let key ← node false false fuel
      return key :: .missing :: (← tableParts false fuel)

end

/-- Directives, and the mark that a document begins, which has to follow them. -/
def documentStart : Nat → Reader Bool
  | 0 => failure
  | fuel + 1 => do
    if ← takes .directive then
      if ← documentStart fuel then return true else failure
    else takes .documentStart

def skipDocumentEnds : Nat → Reader Unit
  | 0 => return ()
  | fuel + 1 => do
    if ← takes .documentEnd then
      skipDocumentEnds fuel

def document? : Reader (Option Node) := do
  let fuel := 4 * (← get).tokens.length + 8
  if (← peek) = .textEnd then return none
  let root ←
    if ← documentStart fuel then
      nodeBefore [.directive, .documentStart, .documentEnd, .textEnd] true false fuel
    else node true false fuel
  skipDocumentEnds fuel
  expect .textEnd
  return some root

end Reader

end BlockTree.Yaml
