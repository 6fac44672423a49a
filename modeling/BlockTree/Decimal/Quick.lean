import BlockTree.Decimal.Nearest

/-! A quick reading of decimal numbers. It keeps the digits that fit in a 64-bit
word and scales by powers of ten that are rounded themselves, so the result may
differ from the nearest number in its last digits. -/

namespace BlockTree.Decimal

def absorb (n : Nat) : List Char → Nat × List Char
  | [] => (n, [])
  | c :: rest =>
    let next := 10 * n + digitValue c
    if next < 2 ^ 64 then absorb next rest else (n, c :: rest)

/-- Scales by a power of ten. Powers beyond 308 have no place in the floating-point
numbers, so lower ones take more than one step, and higher ones overflow. Two steps
leave nothing of any 64-bit number, and one more has nothing to do. -/
def scaleBy : Nat → Float → Int → Option Float
  | 0, _, _ => some 0
  | steps + 1, x, exponent =>
    if exponent.natAbs ≤ 308 then
      let power := nearest 1 exponent.natAbs
      let y := if 0 ≤ exponent then x * power else x / power
      if y.isInf then none else some y
    else if x == 0 then some x
    else if 0 ≤ exponent then none
    else scaleBy steps (x / nearest 1 308) (exponent + 308)

/-- There is none for numbers beyond the greatest floating-point number. -/
def Numeral.quick? (n : Numeral) : Option Float :=
  let (significand, left) := absorb 0 n.whole
  let (significand, unread) := absorb significand n.fraction
  let shift : Int := left.length - (n.fraction.length - unread.length : Nat)
  (scaleBy 4 (UInt64.ofNat significand).toFloat (n.exponent + shift)).map fun x =>
    if n.negative then -x else x

end BlockTree.Decimal
