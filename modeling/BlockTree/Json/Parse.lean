import BlockTree.Decimal.Digits
import BlockTree.Json.Value

/-! Reading JSON text. A value may be surrounded by blanks and nothing else. -/

namespace BlockTree.Json

open Decimal (isDigit natOf)

def isBlank (c : Char) : Bool :=
  c == ' ' || c == '\n' || c == '\r' || c == '\t'

def skipBlanks (text : List Char) : List Char :=
  text.dropWhile isBlank

def takeDigits (text : List Char) : Option (List Char × List Char) :=
  match text.span isDigit with
  | ([], _) => none
  | digits => some digits

def takeFraction (text : List Char) : Option (List Char × List Char) :=
  match text with
  | '.' :: rest => (takeDigits rest).map fun (digits, rest) => ('.' :: digits, rest)
  | _ => some ([], text)

def takeExponent (text : List Char) : Option (List Char × List Char) :=
  match text with
  | c :: rest =>
    if c = 'e' ∨ c = 'E' then
      match rest with
      | d :: rest' =>
        if d = '+' ∨ d = '-' then
          (takeDigits rest').map fun (digits, rest) => (c :: d :: digits, rest)
        else (takeDigits rest).map fun (digits, rest) => (c :: digits, rest)
      | [] => none
    else some ([], text)
  | [] => some ([], text)

/-- A whole number is kept if it fits in 64 bits, signed or not. Minus zero is
no whole number. -/
def classify (negative : Bool) (whole rest : List Char) : Value :=
  let n := natOf whole
  let sign := if negative then ['-'] else []
  if rest = [] ∧ negative = false ∧ n < 2 ^ 64 then .int n
  else if rest = [] ∧ negative = true ∧ n ≠ 0 ∧ n ≤ 2 ^ 63 then .int (-n)
  else .real (sign ++ whole ++ rest)

/-- A number without its sign. The whole part has no leading zero. -/
def unsigned (negative : Bool) (text : List Char) : Option (Value × List Char) :=
  match takeDigits text with
  | none => none
  | some (whole, rest) =>
    if whole.head? = some '0' ∧ whole ≠ ['0'] then none
    else
      match takeFraction rest with
      | none => none
      | some (fraction, rest) =>
        match takeExponent rest with
        | none => none
        | some (exponent, rest) => some (classify negative whole (fraction ++ exponent), rest)

def number : List Char → Option (Value × List Char)
  | '-' :: rest => unsigned true rest
  | text => unsigned false text

/-- A character of a string, or the number of a `\u` escape. -/
inductive Piece where
  | char (c : Char)
  | code (unit : Nat)

def hexUnit? (a b c d : Char) : Option Nat :=
  match Hex.digitValue? a, Hex.digitValue? b, Hex.digitValue? c, Hex.digitValue? d with
  | some a, some b, some c, some d => some (((a * 16 + b) * 16 + c) * 16 + d)
  | _, _, _, _ => none

def shortEscape? (c : Char) : Option Char :=
  if c = '"' ∨ c = '\\' ∨ c = '/' then some c
  else if c = 'b' then some '\x08'
  else if c = 'f' then some '\x0c'
  else if c = 'n' then some '\n'
  else if c = 'r' then some '\r'
  else if c = 't' then some '\t'
  else none

def pieces : List Char → Option (List Piece × List Char)
  | [] => none
  | '"' :: rest => some ([], rest)
  | '\\' :: 'u' :: a :: b :: c :: d :: rest =>
    match hexUnit? a b c d, pieces rest with
    | some unit, some (ps, rest) => some (.code unit :: ps, rest)
    | _, _ => none
  | '\\' :: e :: rest =>
    match shortEscape? e, pieces rest with
    | some c, some (ps, rest) => some (.char c :: ps, rest)
    | _, _ => none
  | c :: rest =>
    if c.toNat < 32 ∨ c = '\\' then none
    else (pieces rest).map fun (ps, rest) => (.char c :: ps, rest)

def isHighSurrogate (unit : Nat) : Bool :=
  0xd800 ≤ unit && unit < 0xdc00

def isLowSurrogate (unit : Nat) : Bool :=
  0xdc00 ≤ unit && unit < 0xe000

/-- Joins surrogate pairs. There is no text when half of a pair stands alone. -/
def join : List Piece → Option (List Char)
  | [] => some []
  | .char c :: rest => (join rest).map (c :: ·)
  | .code high :: .code low :: rest =>
    if isHighSurrogate high then
      if isLowSurrogate low then
        (join rest).map
          (Char.ofNat (0x10000 + (high - 0xd800) * 0x400 + (low - 0xdc00)) :: ·)
      else none
    else if isLowSurrogate high then none
    else (join (.code low :: rest)).map (Char.ofNat high :: ·)
  | .code unit :: rest =>
    if isHighSurrogate unit || isLowSurrogate unit then none
    else (join rest).map (Char.ofNat unit :: ·)

def stringBody (text : List Char) : Option (Option (List Char) × List Char) :=
  (pieces text).map fun (ps, rest) => (join ps, rest)

def fieldName (text : List Char) : Option (Option (List Char) × List Char) :=
  match skipBlanks text with
  | '"' :: rest =>
    match stringBody rest with
    | none => none
    | some (name, rest) =>
      match skipBlanks rest with
      | ':' :: rest => some (name, rest)
      | _ => none
  | _ => none

mutual

/-- A value from the front of the text. Each step spends one unit of `fuel`. -/
def value (fuel : Nat) (text : List Char) : Option (Value × List Char) :=
  match fuel with
  | 0 => none
  | fuel + 1 =>
    match skipBlanks text with
    | 'n' :: 'u' :: 'l' :: 'l' :: rest => some (.null, rest)
    | 't' :: 'r' :: 'u' :: 'e' :: rest => some (.bool true, rest)
    | 'f' :: 'a' :: 'l' :: 's' :: 'e' :: rest => some (.bool false, rest)
    | '"' :: rest => (stringBody rest).map fun (s, rest) => (.text s, rest)
    | '[' :: rest =>
      match skipBlanks rest with
      | ']' :: rest => some (.list [], rest)
      | _ => (items fuel rest).map fun (vs, rest) => (.list vs, rest)
    | '\x7b' :: rest =>
      match skipBlanks rest with
      | '\x7d' :: rest => some (.object [], rest)
      | _ => (fields fuel rest).map fun (fs, rest) => (.object fs, rest)
    | text => number text

def items (fuel : Nat) (text : List Char) : Option (List Value × List Char) :=
  match fuel with
  | 0 => none
  | fuel + 1 =>
    match value fuel text with
    | none => none
    | some (v, rest) =>
      match skipBlanks rest with
      | ']' :: rest => some ([v], rest)
      | ',' :: rest => (items fuel rest).map fun (vs, rest) => (v :: vs, rest)
      | _ => none

def fields (fuel : Nat) (text : List Char) :
    Option (List (Option (List Char) × Value) × List Char) :=
  match fuel with
  | 0 => none
  | fuel + 1 =>
    match fieldName text with
    | none => none
    | some (name, rest) =>
      match value fuel rest with
      | none => none
      | some (v, rest) =>
        match skipBlanks rest with
        | '\x7d' :: rest => some ([(name, v)], rest)
        | ',' :: rest => (fields fuel rest).map fun (fs, rest) => ((name, v) :: fs, rest)
        | _ => none

end

/-- Reads a whole text. Of every two steps one consumes a character. -/
def parse (text : List Char) : Option Value :=
  match value (2 * text.length + 2) text with
  | some (v, rest) => if skipBlanks rest = [] then some v else none
  | none => none

end BlockTree.Json
