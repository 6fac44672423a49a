/-! Places in YAML text, and the characters that part its words. -/

namespace BlockTree.Yaml

def isBreak (c : Char) : Bool :=
  c == '\n' || c == '\r'

def isBlank (c : Char) : Bool :=
  c == ' ' || c == '\t'

def isGap (c : Char) : Bool :=
  isBlank c || isBreak c

/-- A word ends before a gap, and at the end of the text. -/
def endsWord (next? : Option Char) : Bool :=
  next?.all isGap

def isFlowMark (c : Char) : Bool :=
  c == ',' || c == '[' || c == ']' || c == '\x7b' || c == '\x7d'

def isNameChar (c : Char) : Bool :=
  c.isAlphanum || c == '_' || c == '-'

structure Cursor where
  rest : List Char
  index : Nat := 0
  line : Nat := 0
  column : Nat := 0

namespace Cursor

/-- Only a line feed begins a line. -/
def step (c : Cursor) : Cursor :=
  match c.rest with
  | [] => c
  | '\n' :: rest => ⟨rest, c.index + 1, c.line + 1, 0⟩
  | _ :: rest => ⟨rest, c.index + 1, c.line, c.column + 1⟩

def steps : Nat → Cursor → Cursor
  | 0, c => c
  | n + 1, c => steps n c.step

def next? (c : Cursor) : Option Char :=
  c.rest.head?

def takeWhile (p : Char → Bool) (c : Cursor) : List Char × Cursor :=
  let part := c.rest.takeWhile p
  (part, c.steps part.length)

def skipWhile (p : Char → Bool) (c : Cursor) : Cursor :=
  (c.takeWhile p).2

/-- Passes over one line break, which may be two characters. -/
def skipBreak (c : Cursor) : Cursor :=
  match c.rest with
  | '\r' :: '\n' :: _ => c.steps 2
  | ch :: _ => if isBreak ch then c.step else c
  | [] => c

def skipComment (c : Cursor) : Cursor :=
  if c.next? = some '#' then c.skipWhile fun ch => !isBreak ch else c

/-- What follows blanks, a comment and a line break, if nothing else comes before it. -/
def skipLineEnd? (c : Cursor) : Option Cursor :=
  let c := (c.skipWhile isBlank).skipComment
  if c.next?.all isBreak then some c.skipBreak else none

/-- Three equal characters that stand as a word. -/
def isMark (mark : Char) (c : Cursor) : Bool :=
  [mark, mark, mark].isPrefixOf c.rest && endsWord c.rest[3]?

/-- Scalars end where a document seems to. Hyphens need a new line for that, but no gap
after them, and points need a gap but no new line. -/
def endsDocument (c : Cursor) : Bool :=
  c.column = 0 && ['-', '-', '-'].isPrefixOf c.rest || c.isMark '.'

end Cursor

end BlockTree.Yaml
