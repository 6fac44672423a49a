import BlockTree.Decimal.Digits

/-! The floating-point number that is nearest to a decimal one. Of two that are as
near, the one with the even mantissa is taken. -/

namespace BlockTree.Decimal

/-- A quotient rounded to the nearest whole number, and to the even one of a tie. -/
def roundDiv (num den : Nat) : Nat :=
  let floor := num / den
  let twice := 2 * (num % den)
  if twice < den ∨ twice = den ∧ floor % 2 = 0 then floor else floor + 1

/-- The exponent of the unit in which `num / den` has 53 binary digits. The least
exponent is the unit of all numbers that are smaller still. -/
def unitExponent (num den : Nat) : Int :=
  let lead : Int := (num.log2 : Int) - den.log2
  let lead := if den * 2 ^ lead.toNat ≤ num * 2 ^ (-lead).toNat then lead else lead - 1
  max (-1074) (lead - 52)

/-- The bit pattern of a positive quotient. The mantissa that is rounded up to the
next power of two carries into the exponent. -/
def patternOf (num den : Nat) : Nat :=
  let unit := unitExponent num den
  let mantissa := roundDiv (num * 2 ^ (-unit).toNat) (den * 2 ^ unit.toNat)
  min ((unit + 1074).toNat * 2 ^ 52 + mantissa) (2047 * 2 ^ 52)

/-- The number nearest to `digits * 10 ^ exponent`. Beyond 310 places all numbers are
infinite, and none is left before the place 330 after the point. -/
def nearest (digits : Nat) (exponent : Int) : Float :=
  let lead : Int := (Nat.toDigits 10 digits).length + exponent
  if digits = 0 ∨ lead < -330 then 0
  else if 310 < lead then 1 / 0
  else
    Float.ofBits (.ofNat
      (patternOf (digits * 10 ^ exponent.toNat) (10 ^ (-exponent).toNat)))

def Numeral.nearest (n : Numeral) : Float :=
  let x := Decimal.nearest n.digits n.scale
  if n.negative then -x else x

end BlockTree.Decimal
