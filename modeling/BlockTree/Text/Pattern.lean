import BlockTree.Text.Alphanumeric
import BlockTree.Text.Blank
import BlockTree.Decimal.Digits
import BlockTree.Hex

/-! Which texts are search patterns: characters, classes of characters in brackets and
groups in parentheses, with marks for repetition and alternatives between bars. The
classes that need tables of all scripts are not there. The parts of a pattern lie in
each other at most 250 deep. -/

namespace BlockTree.Text.Pattern

structure Mode where
  /-- Patterns are about characters, and not about bytes. -/
  wide : Bool := true
  ignoreCase : Bool := false
  /-- Blanks and comments between the parts are passed over. -/
  spaced : Bool := false

/-- What stands for itself. Letter case is known for bytes only. -/
def Mode.allowsLetters (m : Mode) : Bool :=
  !(m.wide && m.ignoreCase)

def skipBlanks (inComment : Bool) : List Char → List Char
  | [] => []
  | c :: text =>
    if inComment then skipBlanks (c != '\n') text
    else if isBlank c then skipBlanks false text
    else if c = '#' then skipBlanks true text
    else c :: text

def Mode.gap (m : Mode) (text : List Char) : List Char :=
  if m.spaced then skipBlanks false text else text

/-- The first character that is neither a blank nor the first mark of a comment. -/
def peekBeyond (inComment : Bool) : List Char → Option Char
  | [] => none
  | c :: text =>
    if isBlank c then peekBeyond inComment text
    else if c = '#' ∧ !inComment then peekBeyond true text
    else some c

/-- A look at what follows. Where there are only blanks, these are seen. -/
def Mode.peek (m : Mode) (text : List Char) : Option Char :=
  if m.spaced then peekBeyond false text <|> text.head? else text.head?

/-- The depth of parts in a row. A single one lies in nothing. -/
def joined : List Nat → Nat
  | [] => 0
  | [depth] => depth
  | depths => 1 + depths.foldl max 0

inductive Escape where
  | char (n : Nat)
  | charClass
  | position

/-- The number of exactly `count` digits, after `n` of the digits before them. -/
def takeHex? (m : Mode) : Nat → Nat → List Char → Option (Nat × List Char)
  | 0, n, text => some (n, m.gap text)
  | count + 1, n, text =>
    match m.gap text with
    | [] => none
    | c :: text => (Hex.digitValue? c).bind fun digit => takeHex? m count (16 * n + digit) text

/-- A character by its number. Bytes that are no characters cannot be matched. -/
def charByNumber? (m : Mode) (count : Nat) (text : List Char) : Option (Escape × List Char) :=
  match takeHex? m count 0 text with
  | some (n, rest) =>
    if n.isValidChar ∧ (m.wide ∨ count ≠ 2 ∨ n < 128) then some (.char n, rest) else none
  | none => none

def escape? (m : Mode) : List Char → Option (Escape × List Char)
  | [] => none
  | c :: rest =>
    if c = 'x' then charByNumber? m 2 rest
    else if c = 'u' then charByNumber? m 4 rest
    else if c = 'U' then charByNumber? m 8 rest
    else if c = 'd' ∨ c = 's' ∨ c = 'w' then if m.wide then none else some (.charClass, rest)
    else if c = 'b' ∨ c = 'B' ∨ c = '<' ∨ c = '>' then
      if m.wide then none else some (.position, rest)
    else if c = 'A' ∨ c = 'z' then some (.position, rest)
    else if c = 'a' then some (.char 7, rest)
    else if c = 'f' then some (.char 12, rest)
    else if c = 'n' then some (.char 10, rest)
    else if c = 'r' then some (.char 13, rest)
    else if c = 't' then some (.char 9, rest)
    else if c = 'v' then some (.char 11, rest)
    else if c.toNat < 128 ∧ !c.isAlphanum then some (.char c.toNat, rest)
    else none

/-- Classes of bytes hold only those of ASCII. -/
def Mode.allowsInClass (m : Mode) : Escape → Bool
  | .char n => m.allowsLetters && (m.wide || n < 128)
  | .charClass => true
  | .position => false

def classItem? (m : Mode) (text : List Char) : Option (Escape × List Char) :=
  let item? :=
    match text with
    | '\\' :: rest => escape? m rest
    | c :: rest => some (.char c.toNat, rest)
    | [] => none
  item?.filter fun item => m.allowsInClass item.1

def classNames : List (List Char) :=
  ["alnum", "alpha", "ascii", "blank", "cntrl", "digit", "graph", "lower", "print", "punct",
    "space", "upper", "word", "xdigit"].map String.toList

/-- A class that is given by its name between colons, after its bracket: whether it is
the complement of the named one, and what follows. -/
def namedClass? : List Char → Option (Bool × List Char)
  | ':' :: text =>
    let (negated, text) :=
      match text with
      | '^' :: rest => (true, rest)
      | _ => (false, text)
    match text.span (· != ':') with
    | (name, ':' :: ']' :: rest) => if name ∈ classNames then some (negated, rest) else none
    | _ => none
  | _ => none

/-- One item or a range of a class. A dash before another one or before the closing
bracket makes no range. -/
def afterRange? (m : Mode) (text : List Char) : Option (List Char) :=
  match classItem? m text with
  | none => none
  | some (first, rest) =>
    match m.gap rest with
    | [] => none
    | '-' :: rest =>
      if m.peek rest = some ']' ∨ m.peek rest = some '-' then some ('-' :: rest)
      else
        match first, classItem? m (m.gap rest) with
        | .char low, some (.char high, rest) => if low ≤ high then some rest else none
        | _, _ => none
    | rest => some rest

/-- Literal dashes at the start of a class. -/
def skipDashes (m : Mode) : Nat → List Nat → List Char → List Nat × List Char
  | 0, items, text => (items, text)
  | fuel + 1, items, text =>
    match text with
    | '-' :: rest => skipDashes m fuel (0 :: items) (m.gap rest)
    | _ => (items, text)

/-- The items right after the opening of a class, which are dashes or a bracket. Without
its complement, bytes beyond ASCII stay out of a class of bytes. -/
def classStart? (m : Mode) (text : List Char) : Option (List Nat × List Char) :=
  let text := m.gap text
  let (negated, text) :=
    match text with
    | '^' :: rest => (true, m.gap rest)
    | _ => (false, text)
  if negated && !m.wide then none
  else
    let (items, rest) :=
      match text with
      | ']' :: rest => ([0], m.gap rest)
      | _ => skipDashes m text.length [] text
    if items = [] ∨ m.allowsLetters then some (items, rest) else none

/-- The depth of a class and what follows its closing bracket. Classes may lie in each
other, and two equal marks combine what stands before and after them. -/
def afterClass? (m : Mode) : Nat → Option Nat → List Nat → List Char → Option (Nat × List Char)
  | 0, _, _, _ => none
  | fuel + 1, left?, items, text =>
    let depth :=
      match left? with
      | none => joined items
      | some left => 1 + max left (joined items)
    match m.gap text with
    | [] => none
    | ']' :: rest => some (1 + depth, rest)
    | '&' :: '&' :: rest => afterClass? m fuel (some depth) [] rest
    | '-' :: '-' :: rest => afterClass? m fuel (some depth) [] rest
    | '~' :: '~' :: rest => afterClass? m fuel (some depth) [] rest
    | '[' :: rest =>
      match namedClass? rest with
      | some (negated, rest) =>
        if m.allowsLetters && (m.wide || !negated) then
          afterClass? m fuel left? (0 :: items) rest
        else none
      | none => do
        let (inner, rest) ← classStart? m rest
        let (depth, rest) ← afterClass? m fuel none inner rest
        afterClass? m fuel left? (depth :: items) rest
    | text => (afterRange? m text).bind (afterClass? m fuel left? (0 :: items))

/-- The letters of a mode change, up to the colon or parenthesis that ends it. Each
stands once, and those after the dash are switched off. -/
def changeMode? (m : Mode) (seen : List Char) : List Char → Option (Mode × List Char)
  | [] => none
  | c :: rest =>
    if c = ':' ∨ c = ')' then if seen.head? = some '-' then none else some (m, c :: rest)
    else if c ∈ seen then none
    else
      let on := '-' ∉ seen
      if c = 'i' then changeMode? { m with ignoreCase := on } (c :: seen) rest
      else if c = 'u' then changeMode? { m with wide := on } (c :: seen) rest
      else if c = 'x' then changeMode? { m with spaced := on } (c :: seen) rest
      else if c ∈ ['-', 'm', 's', 'R', 'U'] then changeMode? m (c :: seen) rest
      else none

def isNameStart (c : Char) : Bool :=
  c == '_' || isAlphabetic c

def isNameChar (c : Char) : Bool :=
  isAlphanumeric c || c ∈ ['_', '.', '[', ']']

def groupName? (text : List Char) : Option (List Char × List Char) :=
  match text.span (· != '>') with
  | (c :: name, _ :: rest) =>
    if isNameStart c && name.all isNameChar then some (c :: name, rest) else none
  | _ => none

structure Sequence where
  /-- The depths of the items since the last bar, the latest first. -/
  items : List Nat := []
  /-- The last item matches something, or a position. -/
  repeatable : Bool := false
  /-- The depths of what stands between earlier bars. -/
  alternatives : List Nat := []

namespace Sequence

def push (s : Sequence) (depth : Nat) : Sequence :=
  { s with items := depth :: s.items, repeatable := true }

/-- A mode change stands among the items. -/
def pushChange (s : Sequence) : Sequence :=
  { s with items := 0 :: s.items, repeatable := false }

def bar (s : Sequence) : Sequence :=
  { alternatives := joined s.items :: s.alternatives }

def again? (s : Sequence) : Option Sequence :=
  match s.items with
  | depth :: items => if s.repeatable then some { s with items := (depth + 1) :: items } else none
  | [] => none

def depth (s : Sequence) : Nat :=
  joined (joined s.items :: s.alternatives)

end Sequence

/-- The depth of a sequence of items, which ends with the text or before a closing
parenthesis, and what follows it. The names of groups are gathered, for none stands
twice. -/
def afterItems? (m : Mode) (names : List (List Char)) (s : Sequence) :
    Nat → List Char → Option (List (List Char) × Nat × List Char)
  | 0, _ => none
  | fuel + 1, text =>
    /- What follows a group whose items are given. -/
    let group (m' : Mode) (names : List (List Char)) (items : List Char) :=
      match afterItems? m' names {} fuel items with
      | some (names, depth, ')' :: rest) => afterItems? m names (s.push (1 + depth)) fuel rest
      | _ => none
    let named (text : List Char) :=
      match groupName? text with
      | some (name, items) => if name ∈ names then none else group m (name :: names) items
      | none => none
    let next (rest : List Char) := afterItems? m names (s.push 0) fuel rest
    match m.gap text with
    | [] => some (names, s.depth, [])
    | ')' :: rest => some (names, s.depth, ')' :: rest)
    | '|' :: rest => afterItems? m names s.bar fuel rest
    | '(' :: rest =>
      match m.gap rest with
      | '?' :: 'P' :: '<' :: rest => named rest
      | '?' :: '<' :: rest => named rest
      | '?' :: rest =>
        match changeMode? m [] rest with
        | some (m', ')' :: after) =>
          if rest.head? = some ')' then none else afterItems? m' names s.pushChange fuel after
        | some (m', _ :: items) => group m' names items
        | _ => none
      | items => group m names items
    | '[' :: rest => do
      let (items, rest) ← classStart? m rest
      let (depth, rest) ← afterClass? m fuel none items rest
      afterItems? m names (s.push depth) fuel rest
    | '\\' :: rest =>
      match escape? m rest with
      | some (.char _, rest) => if m.allowsLetters then next rest else none
      | some (_, rest) => next rest
      | none => none
    | '\x7b' :: _ => none
    | c :: rest =>
      if c = '*' ∨ c = '+' ∨ c = '?' then
        let rest := if rest.head? = some '?' then rest.drop 1 else rest
        s.again?.bind fun s => afterItems? m names s fuel rest
      else if c = '.' then if m.wide then next rest else none
      else if c = '^' ∨ c = '$' ∨ m.allowsLetters then next rest
      else none

def isValid (text : List Char) : Bool :=
  match afterItems? {} [] {} (text.length + 1) text with
  | some (_, depth, []) => depth ≤ 250
  | _ => false

end BlockTree.Text.Pattern
