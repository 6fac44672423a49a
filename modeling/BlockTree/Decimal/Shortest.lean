import BlockTree.Power

/-! Decimal text of floating-point numbers: the fewest digits that read back, in
positional notation. -/

namespace BlockTree.Decimal

structure Binary where
  mantissa : Nat
  exponent : Int

def magnitude (x : Float) : Binary :=
  let bits := x.toBits.toNat
  let fraction : Nat := bits % 2 ^ 52
  let biased : Nat := bits / 2 ^ 52 % 2 ^ 11
  if biased = 0 then ⟨fraction, -1074⟩ else ⟨2 ^ 52 + fraction, (biased : Int) - 1075⟩

/-- A positive number with the ends of the interval that rounds to it, all three
as multiples of `1 / scale`. -/
structure Interval where
  low : Nat
  value : Nat
  high : Nat
  scale : Nat
  /-- The ends round to the number as well. -/
  closed : Bool

/-- Below a power of two the neighbours are twice as dense. -/
def Binary.interval (b : Binary) : Interval :=
  let below := if b.mantissa = 2 ^ 52 ∧ b.exponent ≠ -1074 then 1 else 2
  let unit := 2 ^ (b.exponent - 2).toNat
  { low := (4 * b.mantissa - below) * unit
    value := 4 * b.mantissa * unit
    high := (4 * b.mantissa + 2) * unit
    scale := 2 ^ (2 - b.exponent).toNat
    closed := b.mantissa % 2 = 0 }

def Interval.holds (i : Interval) (digits : Nat) (exponent : Int) : Bool :=
  let number := digits * 10 ^ exponent.toNat * i.scale
  let unit := 10 ^ (-exponent).toNat
  if i.closed then i.low * unit ≤ number && number ≤ i.high * unit
  else i.low * unit < number && number < i.high * unit

/-- The neighbours of the number on the grid of multiples of `10 ^ exponent`, if
they round to it. Of two the nearer is taken, and the upper one of a tie. -/
def Interval.onGrid? (i : Interval) (exponent : Int) : Option Nat :=
  let num := i.value * 10 ^ (-exponent).toNat
  let den := i.scale * 10 ^ exponent.toNat
  let floor := num / den
  let nearer := if den ≤ 2 * (num % den) then floor + 1 else floor
  let farther := if den ≤ 2 * (num % den) then floor else floor + 1
  if i.holds nearer exponent then some nearer
  else if i.holds farther exponent then some farther
  else none

/-- Tries finer and finer grids. Seventeen digits always suffice. -/
def Interval.refine (i : Interval) : Nat → Int → Nat × Int
  | 0, exponent => ((i.onGrid? exponent).getD 0, exponent)
  | grids + 1, exponent =>
    match i.onGrid? exponent with
    | some digits => (digits, exponent)
    | none => i.refine grids (exponent - 1)

def Interval.leading (i : Interval) : Int :=
  if i.scale ≤ i.value then (Nat.toDigits 10 (i.value / i.scale)).length - 1
  else
    let places := (Nat.toDigits 10 (i.scale / i.value)).length
    if i.scale ≤ i.value * 10 ^ (places - 1) then 1 - (places : Int) else -(places : Int)

def shortest (b : Binary) : Nat × Int :=
  b.interval.refine 17 b.interval.leading

def positional (digits : Nat) (exponent : Int) : List Char :=
  let ds := Nat.toDigits 10 digits
  if 0 ≤ exponent then ds ++ List.replicate exponent.toNat '0'
  else
    let places := (-exponent).toNat
    let padded := List.replicate (places + 1 - ds.length) '0' ++ ds
    let fraction := padded.drop (padded.length - places)
    let shown := fraction.reverse.dropWhile (· == '0') |>.reverse
    let whole := padded.take (padded.length - places)
    if shown = [] then whole else whole ++ '.' :: shown

def text (x : Float) : String :=
  if x.isNaN then "NaN"
  else
    let sign := if x.toBits.toNat / 2 ^ 63 = 1 then "-" else ""
    if x.isInf then sign ++ "inf"
    else
      let b := magnitude x
      if b.mantissa = 0 then sign ++ "0"
      else
        let (digits, exponent) := shortest b
        sign ++ String.ofList (positional digits exponent)

end BlockTree.Decimal
