import BlockTree.Setting.Yaml.Scalar

/-! The tokens of YAML text. Where a block begins or ends is told by columns alone, and a
key by the colon after it, so the token of a key is put in when its colon is met. -/

namespace BlockTree.Yaml

inductive Token where
  | directive
  | documentStart
  | documentEnd
  | textEnd
  /-- Blocks of items and of entries, which are told by their columns. -/
  | itemsStart
  | entriesStart
  | blockEnd
  | item
  | key
  | value
  | listStart
  | listEnd
  | tableStart
  | tableEnd
  | comma
  | reference (name : String)
  | anchor (name : String)
  | tag (handle suffix : String)
  | scalar (plain : Bool) (text : String)
deriving DecidableEq

/-- A place that turns out to be that of a key if a colon follows soon enough. -/
structure KeyPlace where
  cursor : Cursor
  tokens : Nat
  required : Bool

structure Reading where
  cursor : Cursor
  tokens : Array Token := #[]
  keyAllowed : Bool := true
  /-- The latest place of a key at each level of brackets, the innermost first. -/
  keys : List (Option KeyPlace) := [none]
  /-- The first column that is deeper than all open blocks, and that before each of
  them. -/
  floor : Nat := 0
  floors : List Nat := []
  /-- Where the latest quoted scalar ended. -/
  quoteEnd : Nat := 0

namespace Reading

def inFlow (r : Reading) : Bool :=
  1 < r.keys.length

def push (r : Reading) (token : Token) : Reading :=
  { r with tokens := r.tokens.push token }

def take (r : Reading) (length : Nat) (token : Token) : Reading :=
  { r with cursor := r.cursor.steps length, tokens := r.tokens.push token }

def allowKey (r : Reading) (allowed : Bool) : Reading :=
  { r with keyAllowed := allowed }

/-- No colon makes the latest place that of a key any more. -/
def closeKey? (r : Reading) : Option Reading :=
  match r.keys with
  | some place :: keys => if place.required then none else some { r with keys := none :: keys }
  | _ => some r

def openKey? (r : Reading) : Option Reading :=
  if r.keyAllowed then
    let required := r.inFlow && r.floor = r.cursor.column + 1
    let place : KeyPlace := ⟨r.cursor, r.tokens.size, required⟩
    r.closeKey?.map fun r => { r with keys := some place :: r.keys.tail }
  else some r

/-- A key stands in the line of its colon, and at most 1024 characters before it. -/
def closeOldKeys? (r : Reading) : Option Reading :=
  let isOld (place : KeyPlace) : Bool :=
    place.cursor.line < r.cursor.line || place.cursor.index + 1024 < r.cursor.index
  if r.keys.any fun place? => place?.any fun place => isOld place && place.required then none
  else some { r with keys := r.keys.map fun place? => place?.filter fun place => !isOld place }

/-- Begins a block in a column that is deeper than all open ones, before the given
token. -/
def openBlock (r : Reading) (column place : Nat) (token : Token) : Reading :=
  if r.inFlow || column < r.floor then r
  else
    { r with
      tokens := r.tokens.take place ++ #[token] ++ r.tokens.drop place
      floor := column + 1
      floors := r.floor :: r.floors }

def closeFrom (limit : Nat) (tokens : Array Token) (floor : Nat) :
    List Nat → Array Token × Nat × List Nat
  | [] => (tokens, floor, [])
  | lower :: floors =>
    if floor ≤ limit then (tokens, floor, lower :: floors)
    else closeFrom limit (tokens.push .blockEnd) lower floors

def closeBlocks (r : Reading) (limit : Nat) : Reading :=
  if r.inFlow then r
  else
    let (tokens, floor, floors) := closeFrom limit r.tokens r.floor r.floors
    { r with tokens, floor, floors }

/-- Passes over gaps and comments. Where a key is allowed, a tab is no gap. -/
def skipGaps : Nat → Reading → Reading
  | 0, r => r
  | fuel + 1, r =>
    match r.cursor.next? with
    | some c =>
      if c = ' ' || c = '\t' && (r.inFlow || !r.keyAllowed) then
        skipGaps fuel { r with cursor := r.cursor.step }
      else if isBreak c then
        skipGaps fuel
          { r with cursor := r.cursor.skipBreak, keyAllowed := r.keyAllowed || !r.inFlow }
      else if c = '#' then skipGaps fuel { r with cursor := r.cursor.skipComment }
      else r
    | none => r

def closeAll? (r : Reading) : Option Reading :=
  ((r.closeBlocks 0).closeKey?).map (·.allowKey false)

def documentMark? (r : Reading) (token : Token) : Option Reading :=
  r.closeAll?.map (·.take 3 token)

/-- Brackets lie in each other at most 255 deep. -/
def openFlow? (r : Reading) (token : Token) : Option Reading := do
  let r ← r.openKey?
  if 255 < r.keys.length then none
  else some (({ r with keys := none :: r.keys }.allowKey true).take 1 token)

def closeFlow? (r : Reading) (token : Token) : Option Reading := do
  let r ← r.closeKey?
  let r := if r.inFlow then { r with keys := r.keys.tail } else r
  return (r.allowKey false).take 1 token

def comma? (r : Reading) : Option Reading := do
  return ((← r.closeKey?).allowKey true).take 1 .comma

/-- Begins a block here unless one is open in this column. Only where a key is allowed may
a block begin. -/
def blockHere? (r : Reading) (token : Token) : Option Reading :=
  if r.inFlow then some r
  else if r.keyAllowed then some (r.openBlock r.cursor.column r.tokens.size token)
  else none

def item? (r : Reading) : Option Reading := do
  if r.inFlow then none
  else
    let r ← (← r.blockHere? .itemsStart).closeKey?
    return (r.allowKey true).take 1 .item

def key? (r : Reading) : Option Reading := do
  let r ← (← r.blockHere? .entriesStart).closeKey?
  return (r.allowKey (!r.inFlow)).take 1 .key

/-- A colon, which tells that there was a key at the latest place for one. -/
def value? (r : Reading) : Option Reading :=
  match r.keys with
  | some place :: keys =>
    let tokens := r.tokens.take place.tokens ++ #[.key] ++ r.tokens.drop place.tokens
    let r := { r with tokens, keys := none :: keys }
    let r := r.openBlock place.cursor.column place.tokens .entriesStart
    some ((r.allowKey false).take 1 .value)
  | _ => do
    let r ← r.blockHere? .entriesStart
    return (r.allowKey (!r.inFlow)).take 1 .value

/-- A name for a node, or a reference to it, after its mark. -/
def name? (r : Reading) (token : String → Token) : Option Reading := do
  let r := (← r.openKey?).allowKey false
  let (name, cursor) := r.cursor.step.takeWhile isNameChar
  let ends := endsWord cursor.next? ||
    cursor.next?.any fun c => c ∈ ['?', ':', ',', ']', '\x7d', '%', '@', '\x60']
  if name = [] || !ends then none
  else some ({ r with cursor }.push (token (String.ofList name)))

def quoted? (r : Reading) (quote : Char) : Option Reading := do
  let r := (← r.openKey?).allowKey false
  let scalar ← Yaml.quoted? quote (r.cursor.rest.length + 1) r.cursor.step
  let r := { r with cursor := scalar.next, quoteEnd := scalar.next.index }
  return r.push (.scalar false (String.ofList scalar.text))

def block? (r : Reading) (folds : Bool) : Option Reading := do
  let r := (← r.openKey?).allowKey true
  let scalar ← Yaml.block? folds r.floor r.cursor.step
  return { r with cursor := scalar.next }.push (.scalar false (String.ofList scalar.text))

def plain? (r : Reading) : Option Reading := do
  let r := (← r.openKey?).allowKey false
  let scalar ← Yaml.plain? r.inFlow r.floor (r.cursor.rest.length + 1) [] r.cursor
  let r := if scalar.endsLine then r.allowKey true else r
  return { r with cursor := scalar.next }.push (.scalar true (String.ofList scalar.text))

end Reading

namespace Tag

def octet? : List Char → Option (Nat × List Char)
  | '%' :: a :: b :: rest => (Hex.natOf? 16 [a, b]).map fun n => (n, rest)
  | _ => none

/-- A character by its octets. Of longer forms than one octet only those of two are read,
and their octets are the number of the character. -/
def escape? (text : List Char) : Option (Char × Nat) := do
  let (first, rest) ← octet? text
  if first < 0x80 then some (Char.ofNat first, 3)
  else if first < 0xc0 || 0xdf < first then none
  else
    let (second, _) ← octet? rest
    let n := 256 * first + second
    if 0x80 ≤ second ∧ second < 0xc0 ∧ n.isValidChar then some (Char.ofNat n, 6) else none

def isPlainChar (c : Char) : Bool :=
  isNameChar c ||
    c ∈ [';', '/', '?', ':', '@', '&', '=', '+', '$', ',', '.', '!', '~', '*', '\'', '(', ')',
      '[', ']']

def chars? : Nat → Cursor → Option (List Char × Cursor)
  | 0, _ => none
  | fuel + 1, c =>
    match c.next? with
    | some '%' =>
      (escape? c.rest).bind fun (char, length) =>
        (chars? fuel (c.steps length)).map fun (chars, c) => (char :: chars, c)
    | some char =>
      if isPlainChar char then (chars? fuel c.step).map fun (chars, c) => (char :: chars, c)
      else some ([], c)
    | none => some ([], c)

/-- The rest of a tag, of which the head has been read and loses its mark. -/
def suffix? (head : List Char) (c : Cursor) : Option (List Char × Cursor) :=
  (chars? (c.rest.length + 1) c).bind fun (chars, c) =>
    if head = [] ∧ chars = [] then none else some (head.drop 1 ++ chars, c)

/-- An exclamation mark, and a name with another one after it. Where a handle has to
stand, there is no name without the second mark. -/
def handle? (strict : Bool) (c : Cursor) : Option (List Char × Cursor) :=
  if c.next? ≠ some '!' then none
  else
    let (name, c) := c.step.takeWhile isNameChar
    if c.next? = some '!' then some ('!' :: name ++ ['!'], c.step)
    else if strict && name ≠ [] then none
    else some ('!' :: name, c)

def take? (c : Cursor) : Option (List Char × List Char × Cursor) := do
  if c.rest[1]? = some '<' then
    let (suffix, c) ← suffix? [] (c.steps 2)
    if c.next? = some '>' then some ([], suffix, c.step) else none
  else
    let (handle, c) ← handle? false c
    if 2 ≤ handle.length ∧ handle.getLast? = some '!' then
      let (suffix, c) ← suffix? [] c
      return (handle, suffix, c)
    else
      let (suffix, c) ← suffix? handle c
      return if suffix = [] then ([], ['!'], c) else (['!'], suffix, c)

end Tag

namespace Reading

def tag? (r : Reading) : Option Reading := do
  let r := (← r.openKey?).allowKey false
  let (handle, suffix, cursor) ← Tag.take? r.cursor
  if endsWord cursor.next? then
    some ({ r with cursor }.push (.tag (String.ofList handle) (String.ofList suffix)))
  else none

/-- A number of a version, of at most nine digits. -/
def skipVersion? (c : Cursor) : Option Cursor :=
  let (digits, c) := c.takeWhile Decimal.isDigit
  if digits = [] ∨ 9 < digits.length then none else some c

/-- What a directive says, after its name. Those of unknown names say anything. -/
def skipDirective? (name : String) (c : Cursor) : Option Cursor :=
  if name = "YAML" then do
    let c ← skipVersion? (c.skipWhile isBlank)
    if c.next? = some '.' then skipVersion? c.step else none
  else if name = "TAG" then do
    let (_, c) ← Tag.handle? true (c.skipWhile isBlank)
    let (_, c) ← Tag.suffix? [] (c.skipWhile isBlank)
    if endsWord c.next? then some c else none
  else some (c.skipWhile fun ch => !isBreak ch)

def directive? (r : Reading) : Option Reading := do
  let r ← r.closeAll?
  let (name, c) := r.cursor.step.takeWhile isNameChar
  if name = [] || !endsWord c.next? then none
  else
    let c ← skipDirective? (String.ofList name) c
    return { r with cursor := ← c.skipLineEnd? }.push .directive

/-- Reads the token that begins with a character. -/
def token? (r : Reading) (c : Char) (rest : List Char) : Option Reading :=
  let ends := endsWord rest.head?
  let atLineStart := r.cursor.column = 0
  if atLineStart && c = '%' then r.directive?
  else if atLineStart && r.cursor.isMark '-' then r.documentMark? .documentStart
  else if atLineStart && r.cursor.isMark '.' then r.documentMark? .documentEnd
  else if c = '[' then r.openFlow? .listStart
  else if c = '\x7b' then r.openFlow? .tableStart
  else if c = ']' then r.closeFlow? .listEnd
  else if c = '\x7d' then r.closeFlow? .tableEnd
  else if c = ',' then r.comma?
  else if c = '-' && ends then r.item?
  else if c = '?' && ends then r.key?
  else if c = ':' && (ends ||
      r.inFlow && (rest.head?.any isFlowMark || r.cursor.index = r.quoteEnd)) then
    r.value?
  else if c = '*' then r.name? .reference
  else if c = '&' then r.name? .anchor
  else if c = '!' then r.tag?
  else if c = '|' && !r.inFlow then r.block? false
  else if c = '>' && !r.inFlow then r.block? true
  else if c = '\'' || c = '"' then r.quoted? c
  else if c = '%' || c = '@' || c = '\x60' then none
  else r.plain?

def finish? : Nat → Reading → Option (List Token)
  | 0, _ => none
  | fuel + 1, r => do
    let r ← (skipGaps (r.cursor.rest.length + 1) r).closeOldKeys?
    let r := r.closeBlocks (r.cursor.column + 1)
    match r.cursor.rest with
    | [] => return ((← r.closeAll?).push .textEnd).tokens.toList
    | c :: rest => finish? fuel (← r.token? c rest)

end Reading

/-- The tokens of a text, which ends before its first NUL character. -/
def Token.ofText? (text : List Char) : Option (List Token) :=
  let text := text.takeWhile (· != '\x00')
  Reading.finish? (text.length + 2) { cursor := ⟨text, 0, 0, 0⟩ }

end BlockTree.Yaml
