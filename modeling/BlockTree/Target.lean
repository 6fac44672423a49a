import BlockTree.Hash

/-! Difficulty targets in compact form, and the work that meeting one stands
for. Targets and work are unbounded naturals, so sums never overflow. -/

namespace BlockTree

abbrev Work := Nat

inductive TargetFault where
  | negative
  | zero
  | overflow
deriving DecidableEq

namespace Target

def exponent (bits : UInt32) : Nat :=
  bits.toNat / 2 ^ 24

def mantissa (bits : UInt32) : Nat :=
  bits.toNat % 2 ^ 23

def signed (bits : UInt32) : Bool :=
  bits.toNat / 2 ^ 23 % 2 = 1

/-- The mantissa shifted to its place, which cuts digits off a short target. -/
def magnitude (bits : UInt32) : Nat :=
  if exponent bits ≤ 3 then mantissa bits / 256 ^ (3 - exponent bits)
  else mantissa bits * 256 ^ (exponent bits - 3)

def expand (bits : UInt32) : Except TargetFault Nat :=
  if signed bits ∧ mantissa bits ≠ 0 then .error .negative
  else if magnitude bits = 0 then .error .zero
  else if 2 ^ 256 ≤ magnitude bits then .error .overflow
  else .ok (magnitude bits)

/-- A hash meets a target that it does not exceed. -/
def isMetBy (bits : UInt32) (h : Hash) : Except TargetFault Bool :=
  match expand bits with
  | .error fault => .error fault
  | .ok target => .ok (decide (h.toNat ≤ target))

end Target

namespace Work

/-- The number of hashes tried on average before one meets the target. -/
def ofTarget (target : Nat) : Work :=
  2 ^ 256 / (target + 1)

def ofBits (bits : UInt32) : Except TargetFault Work :=
  match Target.expand bits with
  | .error fault => .error fault
  | .ok target => .ok (ofTarget target)

def digitsUpTo : Nat → Nat → List UInt32
  | 0, _ => []
  | places + 1, n => if n = 0 then [] else UInt32.ofNat n :: digitsUpTo places (n / 2 ^ 32)

/-- The base 2^32 digits of a work value, least significant first and without
zeros at the end. -/
def digits (work : Work) : List UInt32 :=
  digitsUpTo (Nat.log2 work + 1) work

def ofDigits : List UInt32 → Work
  | [] => 0
  | d :: ds => d.toNat + 2 ^ 32 * ofDigits ds

end Work

end BlockTree
