import BlockTree.Text.Blank
import BlockTree.Text.Pattern

/-! The texts that select what is logged. They are lists of directives, and a
directive is a level, a target, or a target and a span with a level.

Blanks around a directive are passed over while its marks are looked for. The parts
between the marks are then cut out of the whole text, at the places in bytes that they
have in the trimmed one. -/

namespace BlockTree.LogFilter

open Text (trim isAlphanumeric)
open Hex (byteLength)

def dropBytes? : Nat → List Char → Option (List Char)
  | 0, text => some text
  | _, [] => none
  | bytes, c :: text => if c.utf8Size ≤ bytes then dropBytes? (bytes - c.utf8Size) text else none

def takeBytes? : Nat → List Char → Option (List Char)
  | 0, _ => some []
  | _, [] => none
  | bytes, c :: text =>
    if c.utf8Size ≤ bytes then (takeBytes? (bytes - c.utf8Size) text).map (c :: ·) else none

def levelNames : List String :=
  ["trace", "debug", "info", "warn", "error", "off"]

/-- A level is a name in any letter case, or a number up to five. -/
def isLevel (text : List Char) : Bool :=
  levelNames.any (fun name => text.map Char.toLower = name.toList) ||
    (text.head? ≠ some '-' && (Decimal.intOf? text).any fun n => n ≤ 5)

/-- A number may have a sign in front. Its other texts are patterns as well. -/
def isSignedNumber : List Char → Bool
  | '+' :: text =>
    Decimal.Numeral.isText text && text.head? ≠ some '+' && text.head? ≠ some '-' ||
      ["inf", "infinity", "nan"].any fun name => text.map Char.toLower = name.toList
  | _ => false

/-- A field is a name, or a name and a number or pattern after the first sign of
equality. A second sign ends it. -/
def isField (text : List Char) : Bool :=
  match text.dropWhile (· != '=') with
  | [] => true
  | _ :: rest =>
    let value := rest.takeWhile (· != '=')
    isSignedNumber value || Text.Pattern.isValid value

inductive Fault where
  | malformed
  /-- A part would begin or end inside of a character. -/
  | torn
deriving DecidableEq

def Fault.message : Fault → String
  | malformed => "Invalid log filter"
  | torn => "Invalid log filter: a character is torn"

def part (whole : List Char) (start length : Nat) : Except Fault (List Char) :=
  match (dropBytes? start whole).bind (takeBytes? length) with
  | some text => .ok text
  | none => .error .torn

def lastPart (whole : List Char) (start : Nat) : Except Fault (List Char) :=
  match dropBytes? start whole with
  | some text => .ok text
  | none => .error .torn

def demand (condition : Bool) : Except Fault Unit :=
  if condition then .ok () else .error .malformed

/-- What may stand at the end of a directive, from a byte on. After the sign the level
may be missing. -/
def checkEnd (whole : List Char) (start : Nat) : List Char → Except Fault Unit
  | [] => .ok ()
  | '=' :: _ => do
    let level ← lastPart whole (start + 1)
    demand (level.isEmpty || isLevel level)
  | _ => .error .malformed

/-- The rest of a directive after the bracket that opens a span, from a byte on. The
field of a span stands in braces. -/
def checkSpan (whole : List Char) (start : Nat) (text : List Char) : Except Fault Unit :=
  match text.span fun c => c != ']' && c != '\x7b' with
  | (name, ']' :: rest) => do
    let _ ← part whole start (byteLength name)
    checkEnd whole (start + byteLength name + 1) rest
  | (name, '\x7b' :: rest) => do
    let _ ← part whole start (byteLength name)
    let start := start + byteLength name + 1
    match rest.span (· != '\x7d') with
    | (field, '\x7d' :: rest) =>
      let text ← part whole start (byteLength field)
      demand (text ≠ [] && isField text)
      match rest with
      | ']' :: rest => checkEnd whole (start + byteLength field + 2) rest
      | _ => .error .malformed
    | _ => .error .malformed
  | _ => .error .malformed

def startsTarget (c : Char) : Bool :=
  isAlphanumeric c || c == '-' || c == ':' || c == '_'

def checkDirective (whole : List Char) : Except Fault Unit :=
  match trim whole with
  | [] => .error .malformed
  | '[' :: rest => checkSpan whole 1 rest
  | c :: text => do
    demand (startsTarget c)
    match (c :: text).span fun c => c != '=' && c != '[' with
    | (_, []) => return ()
    | (target, mark :: rest) =>
      let _ ← part whole 0 (byteLength target)
      if mark = '[' then checkSpan whole (byteLength target + 1) rest
      else checkEnd whole (byteLength target) (mark :: rest)

/-- A filter is a list of directives between commas. Empty ones are passed over. -/
def check (filter : String) : Except Fault Unit :=
  (filter.toList.splitOn ',').forM fun text =>
    if text.isEmpty then return () else checkDirective text

/-- The filter of the settings, with that of the environment after it. -/
def combined (level : String) (extra? : Option String) : String :=
  match extra? with
  | none => level
  | some extra => if extra.isEmpty then level else s!"{level},{extra}"

end BlockTree.LogFilter
