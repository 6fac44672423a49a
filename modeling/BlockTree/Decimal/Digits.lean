import BlockTree.Power

/-! Decimal digits and the numbers they write. -/

namespace BlockTree.Decimal

def isDigit (c : Char) : Bool :=
  '0' ≤ c && c ≤ '9'

def digitValue (c : Char) : Nat :=
  c.toNat - 48

def natOf (digits : List Char) : Nat :=
  digits.foldl (fun n c => 10 * n + digitValue c) 0

def natOf? (text : List Char) : Option Nat :=
  if text ≠ [] ∧ text.all isDigit then some (natOf text) else none

def intOf? : List Char → Option Int
  | '-' :: digits => (natOf? digits).map fun n => -n
  | '+' :: digits => (natOf? digits).map fun n => n
  | digits => (natOf? digits).map fun n => n

/-- A number in decimal notation: the digits before and after the point, and the
power of ten that multiplies it. -/
structure Numeral where
  negative : Bool := false
  whole : List Char := []
  fraction : List Char := []
  exponent : Int := 0

namespace Numeral

def exponentOf : List Char → Int
  | '-' :: digits => -(natOf digits : Int)
  | '+' :: digits => natOf digits
  | digits => natOf digits

def ofText (text : List Char) : Numeral :=
  let (negative, text) :=
    match text with
    | '-' :: rest => (true, rest)
    | '+' :: rest => (false, rest)
    | _ => (false, text)
  let (whole, rest) := text.span isDigit
  let (fraction, rest) :=
    match rest with
    | '.' :: rest => rest.span isDigit
    | _ => ([], rest)
  ⟨negative, whole, fraction, exponentOf (rest.drop 1)⟩

/-- Without the sign, the number is `digits * 10 ^ scale`. -/
def digits (n : Numeral) : Nat :=
  natOf (n.whole ++ n.fraction)

def scale (n : Numeral) : Int :=
  n.exponent - n.fraction.length

/-- A sign, digits with at most one point among them, and an exponent. There is at
least one digit before or after the point. -/
def isText (text : List Char) : Bool :=
  let text :=
    match text with
    | '-' :: rest => rest
    | '+' :: rest => rest
    | _ => text
  let (whole, rest) := text.span isDigit
  let (fraction, rest) :=
    match rest with
    | '.' :: rest => rest.span isDigit
    | _ => ([], rest)
  let exponentDigits :=
    match rest with
    | _ :: '-' :: digits => digits
    | _ :: '+' :: digits => digits
    | rest => rest.drop 1
  (whole ≠ [] || fraction ≠ []) &&
    (rest = [] ||
      (rest.head? = some 'e' || rest.head? = some 'E') && exponentDigits ≠ [] &&
        exponentDigits.all isDigit)

end Numeral

end BlockTree.Decimal
