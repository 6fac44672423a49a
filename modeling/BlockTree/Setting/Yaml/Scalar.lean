import BlockTree.Decimal.Digits
import BlockTree.Hex
import BlockTree.Setting.Yaml.Cursor

/-! The texts of scalars in YAML: plain ones, those in quotes, and those that are
blocks of lines. -/

namespace BlockTree.Yaml

def breakCount : List Char → Nat
  | '\r' :: '\n' :: rest => breakCount rest + 1
  | c :: rest => breakCount rest + if isBreak c then 1 else 0
  | [] => 0

/-- What a gap between words stands for. A line break is a space, but of several ones
all but the first remain. -/
def folded (gap : List Char) : List Char :=
  match breakCount gap with
  | 0 => gap
  | 1 => [' ']
  | breaks + 2 => List.replicate (breaks + 1) '\n'

/-- A plain word ends before a colon that ends a word itself. In brackets it also ends
before their marks. -/
def plainWord (inFlow : Bool) : List Char → List Char
  | [] => []
  | c :: rest =>
    if isGap c || inFlow && isFlowMark c then []
    else if c = ':' && (endsWord rest.head? || inFlow && rest.head?.any isFlowMark) then []
    else c :: plainWord inFlow rest

/-- Whether one of the next characters is a tab at the start of a line, before the
column where scalars may go on. -/
def hasEarlyTab (floor : Nat) : Nat → Bool → Cursor → Bool
  | 0, _, _ => false
  | length + 1, afterBreak, c =>
    afterBreak && c.next? = some '\t' && c.column < floor ||
      hasEarlyTab floor length (afterBreak || c.next?.any isBreak) c.step

structure Scalar where
  text : List Char
  /-- A line break was passed over behind the last word. -/
  endsLine : Bool
  next : Cursor

/-- The words of a plain scalar with the gaps between them, after a gap. Outside of
brackets it goes on in the next line only from the column `floor` on. -/
def plain? (inFlow : Bool) (floor : Nat) : Nat → List Char → Cursor → Option Scalar
  | 0, _, _ => none
  | fuel + 1, gap, c =>
    let word := if c.endsDocument || c.next? = some '#' then [] else plainWord inFlow c.rest
    let after := c.steps word.length
    let text := if word = [] then [] else folded gap ++ word
    let (newGap, next) := after.takeWhile isGap
    if newGap = [] then
      some ⟨text, word = [] && gap.any isBreak, after⟩
    else if hasEarlyTab floor newGap.length false after then none
    else if !inFlow && next.column < floor then some ⟨text, newGap.any isBreak, next⟩
    else
      (plain? inFlow floor fuel newGap next).map fun scalar =>
        { scalar with text := text ++ scalar.text }

def escaped? (c : Char) : Option Char :=
  [('0', '\x00'), ('a', '\x07'), ('b', '\x08'), ('t', '\t'), ('\t', '\t'), ('n', '\n'),
    ('v', '\x0b'), ('f', '\x0c'), ('r', '\r'), ('e', '\x1b'), (' ', ' '), ('"', '"'),
    ('\'', '\''), ('\\', '\\'), ('N', '\u0085'), ('_', '\u00a0'), ('L', '\u2028'),
    ('P', '\u2029')].lookup c

/-- How many digits of a character's number follow a letter after a backslash. -/
def escapeLength (c : Char) : Nat :=
  if c = 'x' then 2 else if c = 'u' then 4 else if c = 'U' then 8 else 0

/-- The character of an escape, and how many characters it takes after the backslash. -/
def escape? (c : Char) (rest : List Char) : Option (Char × Nat) :=
  match escaped? c with
  | some char => some (char, 1)
  | none =>
    let digits := rest.take (escapeLength c)
    if digits.length < escapeLength c then none
    else (Hex.char? digits).map fun char => (char, 1 + escapeLength c)

/-- A part of a quoted scalar, and whether a line break ends it that a backslash
hides. -/
structure QuotedWord where
  text : List Char
  hidesBreak : Bool
  next : Cursor

def QuotedWord.push (c : Char) (word : QuotedWord) : QuotedWord :=
  { word with text := c :: word.text }

def quotedWord? (quote : Char) : Nat → Cursor → Option QuotedWord
  | 0, _ => none
  | fuel + 1, c =>
    match c.rest with
    | [] => some ⟨[], false, c⟩
    | ch :: rest =>
      if isGap ch then some ⟨[], false, c⟩
      else if ch = quote then
        if quote = '\'' && rest.head? = some quote then
          (quotedWord? quote fuel (c.steps 2)).map (.push quote)
        else some ⟨[], false, c⟩
      else if ch = '\\' && quote = '"' then
        match rest with
        | [] => none
        | d :: rest =>
          if isBreak d then some ⟨[], true, c.step.skipBreak⟩
          else
            (escape? d rest).bind fun (char, length) =>
              (quotedWord? quote fuel (c.steps (1 + length))).map (.push char)
      else (quotedWord? quote fuel c.step).map (.push ch)

def quoted? (quote : Char) : Nat → Cursor → Option Scalar
  | 0, _ => none
  | fuel + 1, c =>
    if c.endsDocument || c.rest.isEmpty then none
    else
      (quotedWord? quote (c.rest.length + 1) c).bind fun word =>
        if word.next.next? = some quote then some ⟨word.text, false, word.next.step⟩
        else
          let (gap, next) := word.next.takeWhile isGap
          let gap := if word.hidesBreak then List.replicate (breakCount gap) '\n' else folded gap
          (quoted? quote fuel next).map fun scalar =>
            { scalar with text := word.text ++ gap ++ scalar.text }

inductive Chomping where
  | strip
  | clip
  | keep
deriving DecidableEq

def takeChomping (c : Cursor) : Chomping × Cursor :=
  if c.next? = some '+' then (.keep, c.step)
  else if c.next? = some '-' then (.strip, c.step)
  else (.clip, c)

/-- By how much a block is indented, where a digit tells it. -/
def takeIncrement? (c : Cursor) : Option (Nat × Cursor) :=
  match c.next? with
  | some '0' => none
  | some d => some (if Decimal.isDigit d then (Decimal.digitValue d, c.step) else (0, c))
  | none => some (0, c)

/-- The two may come in either order. -/
def takeBlockHeader? (c : Cursor) : Option (Chomping × Nat × Cursor) :=
  match takeChomping c with
  | (.clip, c) =>
    (takeIncrement? c).map fun (increment, c) =>
      let (chomping, c) := takeChomping c
      (chomping, increment, c)
  | (chomping, c) => (takeIncrement? c).map fun (increment, c) => (chomping, increment, c)

/-- Empty lines, up to a line of the given indentation. -/
structure EmptyLines where
  count : Nat
  /-- The widest indentation among them and of the line after them. -/
  width : Nat
  next : Cursor

/-- While the indentation is not known, which the number zero says, all spaces belong to
it. -/
def emptyLines? (indent : Nat) : Nat → Cursor → Option EmptyLines
  | 0, _ => none
  | fuel + 1, c =>
    let spaces := (c.rest.takeWhile (· == ' ')).length
    let c := c.steps (if indent = 0 then spaces else min spaces (indent - c.column))
    if (indent = 0 || c.column < indent) && c.next? = some '\t' then none
    else if c.next?.any isBreak then
      (emptyLines? indent fuel c.skipBreak).map fun lines =>
        { lines with count := lines.count + 1, width := max lines.width c.column }
    else some ⟨0, c.column, c⟩

/-- What a block has been read to: its text, whether a line break ended its last line,
and how many empty lines followed that. -/
structure BlockLines where
  text : List Char
  ended : Bool
  empty : Nat
  next : Cursor

/-- The lines of a block. Where line breaks fold, one between two lines is a space unless
one of them begins with a blank. -/
def blockLines? (folds : Bool) (indent : Nat) :
    Nat → Bool → Bool → Nat → Cursor → Option BlockLines
  | 0, _, _, _, _ => none
  | fuel + 1, ended, afterBlank, empty, c =>
    if c.column ≠ indent || c.rest.isEmpty then some ⟨[], ended, empty, c⟩
    else
      let blank := c.next?.any isBlank
      let joint :=
        if !ended then []
        else if folds && !afterBlank && !blank then (if empty = 0 then [' '] else [])
        else ['\n']
      let (line, c) := c.takeWhile fun ch => !isBreak ch
      let text := joint ++ List.replicate empty '\n' ++ line
      if c.rest.isEmpty then some ⟨text, false, 0, c⟩
      else
        (emptyLines? indent (c.rest.length + 1) c.skipBreak).bind fun lines =>
          (blockLines? folds indent fuel true blank lines.count lines.next).map fun block =>
            { block with text := text ++ block.text }

/-- A block of lines after its mark. Lines that are not indented up to `floor` end it. -/
def block? (folds : Bool) (floor : Nat) (c : Cursor) : Option Scalar := do
  let (chomping, increment, c) ← takeBlockHeader? c
  let c ← c.skipLineEnd?
  let indent := if increment = 0 then 0 else floor - 1 + increment
  let fuel := c.rest.length + 1
  let lines ← emptyLines? indent fuel c
  let indent := if indent = 0 then max 1 (max lines.width floor) else indent
  let block ← blockLines? folds indent fuel false false lines.count lines.next
  let lastBreak := if block.ended && chomping ≠ .strip then ['\n'] else []
  let others := if chomping = .keep then List.replicate block.empty '\n' else []
  return ⟨block.text ++ lastBreak ++ others, false, block.next⟩

end BlockTree.Yaml
