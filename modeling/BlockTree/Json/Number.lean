import BlockTree.Decimal.Quick
import BlockTree.Json.Value

/-! JSON numbers as floating-point numbers. -/

namespace BlockTree.Json

/-- Whole numbers of 64 bits are rounded to the nearest, and all others are read
quickly. Nothing is beyond the greatest floating-point number. -/
def Value.real? : Value → Option Float
  | .int n => some (if n < 0 then -(Decimal.nearest n.natAbs 0) else Decimal.nearest n.natAbs 0)
  | .real digits => (Decimal.Numeral.ofText digits).quick?
  | _ => none

end BlockTree.Json
