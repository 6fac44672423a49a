import BlockTree.Bytes
import BlockTree.Text.Quoted

/-! Hexadecimal text. Two lower-case digits are written per byte, and digits of
either case are read. A fault names the first byte that is no digit. -/

namespace BlockTree.Hex

def digit (value : Nat) : Char :=
  if value < 10 then Char.ofNat (48 + value) else Char.ofNat (87 + value)

def digitValue? (c : Char) : Option Nat :=
  if '0' ≤ c ∧ c ≤ '9' then some (c.toNat - 48)
  else if 'a' ≤ c ∧ c ≤ 'f' then some (c.toNat - 87)
  else if 'A' ≤ c ∧ c ≤ 'F' then some (c.toNat - 55)
  else none

def isDigitOf (radix : Nat) (c : Char) : Bool :=
  (digitValue? c).any (· < radix)

def natOf? (radix : Nat) (digits : List Char) : Option Nat :=
  if digits ≠ [] ∧ digits.all (isDigitOf radix) then
    some (digits.foldl (fun n c => radix * n + (digitValue? c).getD 0) 0)
  else none

def char? (digits : List Char) : Option Char :=
  (natOf? 16 digits).bind fun n => if h : n.isValidChar then some (Char.ofNatAux n h) else none

def encode : Bytes → List Char
  | [] => []
  | b :: bs => digit (b.toNat / 16) :: digit (b.toNat % 16) :: encode bs

def text (bs : Bytes) : String :=
  String.ofList (encode bs)

inductive Fault where
  | oddLength
  | badDigit (byte : UInt8) (position : Nat)
deriving DecidableEq

/-- A byte that is no digit is shown as the character of its number. -/
def showByte (byte : UInt8) : String :=
  Text.quotedChar (Char.ofNat byte.toNat)

def Fault.message : Fault → String
  | oddLength => "Odd number of digits"
  | badDigit byte position => s!"Invalid character {showByte byte} at position {position}"

def leadByte (c : Char) : UInt8 :=
  (String.utf8EncodeChar c).headD 0

def byteLength : List Char → Nat
  | [] => 0
  | c :: text => c.utf8Size + byteLength text

/-- Reads pairs of digits. Everything before `position` was a digit, hence one
byte long, so a character's place in the text is its place among the bytes. -/
def decodeFrom (position : Nat) : List Char → Except Fault Bytes
  | [] => .ok []
  | [c] =>
    match digitValue? c with
    | none => .error (.badDigit (leadByte c) position)
    | some _ => .error .oddLength
  | c :: d :: rest =>
    match digitValue? c, digitValue? d with
    | none, _ => .error (.badDigit (leadByte c) position)
    | some _, none => .error (.badDigit (leadByte d) (position + 1))
    | some high, some low =>
      match decodeFrom (position + 2) rest with
      | .error fault => .error fault
      | .ok bs => .ok (UInt8.ofNat (16 * high + low) :: bs)

/-- An odd number of bytes is reported before any bad digit. -/
def decode (text : List Char) : Except Fault Bytes :=
  if byteLength text % 2 = 1 then .error .oddLength
  else decodeFrom 0 text

end BlockTree.Hex
