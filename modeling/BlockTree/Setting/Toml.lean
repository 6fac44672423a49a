import BlockTree.Hex
import BlockTree.Setting.Conversion
import BlockTree.Setting.Moment

/-! Settings from TOML text. Statements are read one after another and entered into
a tree that remembers how each table came about, for that decides whether a later
statement may add to it. -/

namespace BlockTree.Toml

inductive Origin where
  | implied
  | header
  | dotted
  | braces
deriving DecidableEq

inductive Node where
  | leaf (value : Setting)
  | moment (moment : Moment)
  | list (items : List Node)
  | table (origin : Origin) (entries : List (String × Node))
  /-- Tables with one header each, the latest first. -/
  | array (tables : List (List (String × Node)))
deriving Inhabited

abbrev Entries := List (String × Node)

/-- A table that begins with this key stands for the moment in its text. Its other
entries do not count. -/
def momentKey : String :=
  "$__toml_private_datetime"

def standsForMoment (entries : Entries) : Bool :=
  entries.head?.any fun entry => entry.1 = momentKey

def momentOf? : Node → Option Setting
  | .leaf (.text text) =>
    (Moment.ofText? text.toList).map fun moment => .text (String.ofList moment.chars)
  | _ => none

/-- No key is written twice. -/
def addField? (key : String) (setting : Setting) (settings : List (String × Setting)) :
    Option (List (String × Setting)) :=
  if (settings.lookup key).isSome then none else some ((key, setting) :: settings)

mutual

def Node.setting? : Node → Option Setting
  | .leaf value => some value
  | .moment moment => some (.text (String.ofList moment.chars))
  | .list items => (itemsSettings? items).map .list
  | .table _ entries => tableSetting? entries
  | .array tables => (tablesSettings? tables).map fun settings => .list settings.reverse

def itemsSettings? : List Node → Option (List Setting)
  | [] => some []
  | node :: nodes =>
    match node.setting?, itemsSettings? nodes with
    | some setting, some settings => some (setting :: settings)
    | _, _ => none

def tableSetting? : List (String × Node) → Option Setting
  | [] => some (.table [])
  | (key, node) :: entries =>
    if key = momentKey then momentOf? node
    else
      match node.setting?, entriesSettings? entries with
      | some setting, some settings => (addField? key setting settings).map .table
      | _, _ => none

def entriesSettings? : List (String × Node) → Option (List (String × Setting))
  | [] => some []
  | (key, node) :: entries =>
    match node.setting?, entriesSettings? entries with
    | some setting, some settings => addField? key setting settings
    | _, _ => none

def tablesSettings? : List (List (String × Node)) → Option (List Setting)
  | [] => some []
  | entries :: tables =>
    match tableSetting? entries, tablesSettings? tables with
    | some setting, some settings => some (setting :: settings)
    | _, _ => none

end

def replace (key : String) (node : Node) (entries : Entries) : Entries :=
  if (entries.lookup key).isSome then
    entries.map fun entry => if entry.1 = key then (key, node) else entry
  else entries ++ [(key, node)]

/-- Enters the value of a statement below a key, even if one stands there. Only tables
of keys with points are added to. -/
def enterValue : List String → Node → Entries → Option Entries
  | [], _, _ => none
  | [key], value, entries => some (entries ++ [(key, value)])
  | key :: keys, value, entries =>
    match entries.lookup key with
    | none => (enterValue keys value []).map fun below => replace key (.table .dotted below) entries
    | some (.table .dotted old) =>
      (enterValue keys value old).map fun below => replace key (.table .dotted below) entries
    | some _ => none

/-- Works on the table that a header names, through the latest of each array. Tables
that are complete where they stand have no part with a header. -/
def within (change : Entries → Option Entries) : List String → Entries → Option Entries
  | [], entries => change entries
  | key :: keys, entries =>
    if standsForMoment entries then none
    else
      match entries.lookup key with
      | none => (within change keys []).map fun below => replace key (.table .implied below) entries
      | some (.table .dotted _) => none
      | some (.table .braces _) => none
      | some (.table origin old) =>
        (within change keys old).map fun below => replace key (.table origin below) entries
      | some (.array (old :: older)) =>
        (within change keys old).map fun below => replace key (.array (below :: older)) entries
      | some _ => none

def openTable (key : String) (entries : Entries) : Option Entries :=
  if standsForMoment entries then none
  else
    match entries.lookup key with
    | none => some (replace key (.table .header []) entries)
    | some (.table .implied old) => some (replace key (.table .header old) entries)
    | some _ => none

def openElement (key : String) (entries : Entries) : Option Entries :=
  if standsForMoment entries then none
  else
    match entries.lookup key with
    | none => some (replace key (.array [[]]) entries)
    | some (.array tables) => some (replace key (.array ([] :: tables)) entries)
    | some _ => none

def skipSpaces (text : List Char) : List Char :=
  text.dropWhile fun c => c == ' ' || c == '\t'

/-- Neither comments nor strings hold control characters, but only strings count the
last one of ASCII among them. -/
def isCommentChar (c : Char) : Bool :=
  c == '\t' || 32 ≤ c.toNat

def isStringChar (c : Char) : Bool :=
  isCommentChar c && c.toNat ≠ 127

def endOfLine (text : List Char) : Option (List Char) :=
  let text := skipSpaces text
  let text :=
    match text with
    | '#' :: rest => rest.dropWhile isCommentChar
    | _ => text
  match text with
  | [] => some []
  | '\n' :: rest => some rest
  | '\r' :: '\n' :: rest => some rest
  | _ => none

def skipLines : Nat → List Char → List Char
  | 0, text => text
  | lines + 1, text =>
    match skipSpaces text with
    | [] => []
    | text =>
      match endOfLine text with
      | some rest => skipLines lines rest
      | none => text

def escape? (c : Char) : Option Char :=
  if c = '"' ∨ c = '\\' then some c
  else if c = 'b' then some '\x08'
  else if c = 'f' then some '\x0c'
  else if c = 'n' then some '\n'
  else if c = 'r' then some '\r'
  else if c = 't' then some '\t'
  else none

def push (c : Char) : Option (List Char × List Char) → Option (List Char × List Char) :=
  Option.map fun (text, rest) => (c :: text, rest)

def skipGap : List Char → List Char
  | '\r' :: '\n' :: rest => skipGap rest
  | c :: rest => if c = ' ' ∨ c = '\t' ∨ c = '\n' then skipGap rest else c :: rest
  | [] => []

/-- What follows a backslash at the end of a line, less the blanks and line breaks
that it swallows. -/
def afterBreak? (text : List Char) : Option (List Char) :=
  match skipSpaces text with
  | '\n' :: rest => some (skipGap rest)
  | '\r' :: '\n' :: rest => some (skipGap rest)
  | _ => none

/-- The quotes that end a string over several lines, after the first three. Up to two
more belong to the string. -/
def closing (quote : Char) : List Char → List Char × List Char
  | c :: d :: rest =>
    if c = quote then
      if d = quote then ([quote, quote], rest) else ([quote], d :: rest)
    else ([], c :: d :: rest)
  | [c] => if c = quote then ([quote], []) else ([], [c])
  | [] => ([], [])

/-- A quoted string after its opening quotes. With `lines` it may go on over
several lines and ends with three quotes. -/
def basic (lines : Bool) : Nat → List Char → Option (List Char × List Char)
  | 0, _ => none
  | fuel + 1, text =>
    match text with
    | '"' :: '"' :: '"' :: rest =>
      if lines then some (closing '"' rest) else some ([], '"' :: '"' :: rest)
    | '"' :: rest => if lines then push '"' (basic lines fuel rest) else some ([], rest)
    | '\\' :: 'u' :: a :: b :: c :: d :: rest =>
      (Hex.char? [a, b, c, d]).bind fun char => push char (basic lines fuel rest)
    | '\\' :: 'U' :: a :: b :: c :: d :: e :: f :: g :: h :: rest =>
      (Hex.char? [a, b, c, d, e, f, g, h]).bind fun char => push char (basic lines fuel rest)
    | '\\' :: c :: rest =>
      match escape? c with
      | some char => push char (basic lines fuel rest)
      | none => if lines then (afterBreak? (c :: rest)).bind (basic lines fuel) else none
    | '\r' :: '\n' :: rest => if lines then push '\n' (basic lines fuel rest) else none
    | '\n' :: rest => if lines then push '\n' (basic lines fuel rest) else none
    | c :: rest => if isStringChar c then push c (basic lines fuel rest) else none
    | [] => none

def literal (lines : Bool) : List Char → Option (List Char × List Char)
  | [] => none
  | '\'' :: rest =>
    if lines then
      match rest with
      | '\'' :: '\'' :: rest => some (closing '\'' rest)
      | _ => push '\'' (literal lines rest)
    else some ([], rest)
  | '\r' :: '\n' :: rest => if lines then push '\n' (literal lines rest) else none
  | '\n' :: rest => if lines then push '\n' (literal lines rest) else none
  | c :: rest => if isStringChar c then push c (literal lines rest) else none

/-- A line break right after the opening quotes is no part of the string. -/
def skipBreak : List Char → List Char
  | '\n' :: rest => rest
  | '\r' :: '\n' :: rest => rest
  | text => text

def isBareChar (c : Char) : Bool :=
  c.isAlphanum || c == '_' || c == '-'

def keyPart (text : List Char) : Option (String × List Char) :=
  match text with
  | '"' :: rest =>
    (basic false (text.length + 1) rest).map fun (key, rest) => (String.ofList key, rest)
  | '\'' :: rest => (literal false rest).map fun (key, rest) => (String.ofList key, rest)
  | _ =>
    match text.span isBareChar with
    | ([], _) => none
    | (key, rest) => some (String.ofList key, rest)

def key : Nat → List Char → Option (List String × List Char)
  | 0, _ => none
  | parts + 1, text =>
    match keyPart (skipSpaces text) with
    | none => none
    | some (part, rest) =>
      match skipSpaces rest with
      | '.' :: rest => (key parts rest).map fun (parts, rest) => (part :: parts, rest)
      | rest => some ([part], rest)

/-- Digits with single underscores between them, which are left out. -/
def digitRun (isDigit : Char → Bool) (text : List Char) : Option (List Char × List Char) :=
  match text.span fun c => isDigit c || c == '_' with
  | (part, rest) =>
    let digits := part.splitOn '_'
    if digits.any List.isEmpty then none else some (digits.flatten, rest)

def wholePart (text : List Char) : Option (Bool × List Char × List Char) :=
  let (negative, text) :=
    match text with
    | '-' :: rest => (true, rest)
    | _ => (false, text)
  match digitRun Decimal.isDigit text with
  | some ('0' :: _ :: _, _) => none
  | some (digits, rest) => some (negative, digits, rest)
  | none => none

def radixInt? (radix : Nat) (word : List Char) : Option Int :=
  match digitRun (Hex.isDigitOf radix) word with
  | some (digits, []) => (Hex.natOf? radix digits).map Int.ofNat
  | _ => none

def int? (word : List Char) : Option Node :=
  let n? : Option Int :=
    match word with
    | '0' :: 'x' :: rest => radixInt? 16 rest
    | '0' :: 'o' :: rest => radixInt? 8 rest
    | '0' :: 'b' :: rest => radixInt? 2 rest
    | _ =>
      match wholePart word with
      | some (negative, digits, []) =>
        let n : Int := Decimal.natOf digits
        some (if negative then -n else n)
      | _ => none
  (n?.bind (Setting.within? (-2 ^ 63) (2 ^ 63 - 1))).map fun n => .leaf (.int n)

/-- The exponent of a number, given what follows the last digit of its mantissa in
the same word, and what follows the word. A plus sign ends the word. -/
def exponent? : List Char → List Char → Option (Int × List Char)
  | [], rest => some (0, rest)
  | [_], rest =>
    let rest :=
      match rest with
      | '+' :: rest => rest
      | _ => rest
    match digitRun Decimal.isDigit rest with
    | some (digits, rest) => some (Decimal.natOf digits, rest)
    | none => none
  | _ :: '-' :: word, rest =>
    match digitRun Decimal.isDigit word with
    | some (digits, []) => some (-(Decimal.natOf digits : Int), rest)
    | _ => none
  | _ :: word, rest =>
    match digitRun Decimal.isDigit word with
    | some (digits, []) => some (Decimal.natOf digits, rest)
    | _ => none

def isExponentMark (c : Char) : Bool :=
  c == 'e' || c == 'E'

/-- A finite number with a fraction or an exponent, from its first word and what
follows it. -/
def real? (word rest : List Char) : Option (Node × List Char) := do
  let (negative, whole, tail) ← wholePart word
  let (fraction, tail, rest) ←
    match tail, rest with
    | [], '.' :: rest =>
      let (word, rest) := rest.span isBareChar
      let (fraction, tail) ← digitRun Decimal.isDigit word
      pure (fraction, tail, rest)
    | [], _ => none
    | _, _ => pure ([], tail, rest)
  if !(tail.head?.all isExponentMark) then
    none
  let (exponent, rest) ← exponent? tail rest
  let x := (Decimal.Numeral.mk negative whole fraction exponent).nearest
  if x.isFinite then some (.leaf (.real x), rest) else none

def infinite? (word : List Char) : Option Node :=
  if word = ['i', 'n', 'f'] then some (.leaf (.real (1 / 0)))
  else if word = ['-', 'i', 'n', 'f'] then some (.leaf (.real (-1 / 0)))
  else if word = ['n', 'a', 'n'] ∨ word = ['-', 'n', 'a', 'n'] then some (.leaf (.real (0 / 0)))
  else none

def number? (text : List Char) : Option (Node × List Char) :=
  let (word, rest) := text.span isBareChar
  match int? word, infinite? word with
  | some n, _ => if rest.head? = some '.' then real? word rest else some (n, rest)
  | none, some x => some (x, rest)
  | none, none => real? word rest

/-- A value without quotes or brackets. A plus sign stands before any number, even
before one with a minus sign. -/
def scalar? (text : List Char) : Option (Node × List Char) :=
  match text with
  | '+' :: rest => number? rest
  | _ =>
    match Moment.take? text with
    | some (moment, rest) => some (.moment moment, rest)
    | none =>
      match text.span isBareChar with
      | (['t', 'r', 'u', 'e'], rest) => some (.leaf (.bool true), rest)
      | (['f', 'a', 'l', 's', 'e'], rest) => some (.leaf (.bool false), rest)
      | _ => number? text

mutual

def value (fuel : Nat) (text : List Char) : Option (Node × List Char) :=
  match fuel with
  | 0 => none
  | fuel + 1 =>
    let quoted : Option (List Char × List Char) → Option (Node × List Char) :=
      Option.map fun (s, rest) => (.leaf (.text (String.ofList s)), rest)
    match text with
    | '"' :: '"' :: '"' :: rest => quoted (basic true (text.length + 1) (skipBreak rest))
    | '"' :: rest => quoted (basic false (text.length + 1) rest)
    | '\'' :: '\'' :: '\'' :: rest => quoted (literal true (skipBreak rest))
    | '\'' :: rest => quoted (literal false rest)
    | '[' :: rest => (items fuel rest).map fun (vs, rest) => (.list vs, rest)
    | '\x7b' :: rest =>
      match skipSpaces rest with
      | '\x7d' :: rest => some (.table .braces [], rest)
      | rest =>
        (fields fuel [] rest).map fun (entries, rest) => (.table .braces entries, rest)
    | _ => scalar? text

/-- The items of an array up to its bracket. A comma may follow the last one. -/
def items (fuel : Nat) (text : List Char) : Option (List Node × List Char) :=
  match fuel with
  | 0 => none
  | fuel + 1 =>
    match skipLines (text.length + 1) text with
    | ']' :: rest => some ([], rest)
    | text =>
      match value fuel text with
      | none => none
      | some (v, rest) =>
        match skipLines (rest.length + 1) rest with
        | ',' :: rest => (items fuel rest).map fun (vs, rest) => (v :: vs, rest)
        | ']' :: rest => some ([v], rest)
        | _ => none

def fields (fuel : Nat) (entries : Entries) (text : List Char) :
    Option (Entries × List Char) :=
  match fuel with
  | 0 => none
  | fuel + 1 =>
    match key (text.length + 1) text with
    | some (keys, '=' :: rest) =>
      match value fuel (skipSpaces rest) with
      | none => none
      | some (v, rest) =>
        match enterValue keys v entries with
        | none => none
        | some entries =>
          match skipSpaces rest with
          | ',' :: rest => fields fuel entries rest
          | '\x7d' :: rest => some (entries, rest)
          | _ => none
    | _ => none

end

/-- What is read so far: the tree, and the header that statements stand under. -/
structure Document where
  root : Entries := []
  place : List String := []

/-- The tree after a change below a header, which no longer counts once the whole text
stands for a moment. -/
def Document.changed (d : Document) (change : Entries → Option Entries) (place : List String) :
    Option Entries :=
  if standsForMoment d.root then some d.root else within change place d.root

def header (d : Document) (isElement : Bool) (text : List Char) :
    Option (Document × List Char) := do
  let (keys, rest) ← key (text.length + 1) text
  let rest ←
    match isElement, rest with
    | true, ']' :: ']' :: rest => some rest
    | false, ']' :: rest => some rest
    | _, _ => none
  let last ← keys.getLast?
  let change := if isElement then openElement last else openTable last
  return (⟨← d.changed change keys.dropLast, keys⟩, ← endOfLine rest)

def assignment (d : Document) (text : List Char) : Option (Document × List Char) := do
  match key (text.length + 1) text with
  | some (keys, '=' :: rest) =>
    let (v, rest) ← value (2 * rest.length + 2) (skipSpaces rest)
    let enter := enterValue keys v
    let root ← if d.place.isEmpty then enter d.root else d.changed enter d.place
    return ({ d with root := root }, ← endOfLine rest)
  | _ => none

def statements : Nat → Document → List Char → Option Document
  | 0, _, _ => none
  | fuel + 1, d, text =>
    match skipLines (text.length + 1) text with
    | [] => some d
    | '[' :: '[' :: rest =>
      (header d true rest).bind fun (d, rest) => statements fuel d rest
    | '[' :: rest => (header d false rest).bind fun (d, rest) => statements fuel d rest
    | text => (assignment d text).bind fun (d, rest) => statements fuel d rest

/-- The settings of a whole text. A mark of byte order at its start is skipped. -/
def parse (text : List Char) : Option Setting :=
  let text :=
    match text with
    | '\ufeff' :: rest => rest
    | _ => text
  (statements (text.length + 1) {} text).bind fun d => tableSetting? d.root

end BlockTree.Toml
