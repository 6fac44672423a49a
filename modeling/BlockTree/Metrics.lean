import BlockTree.Power

/-! What an engine counts. -/

namespace BlockTree

/-- Observations sorted into buckets. Bounds and counts go side by side, and a
count does not include those of lower buckets. -/
structure Histogram where
  bounds : List Float
  counts : List Nat
  sum : Float := 0
  count : Nat := 0

namespace Histogram

def ofBounds (bounds : List Float) : Histogram where
  bounds := bounds
  counts := bounds.map fun _ => 0

def tally (value : Float) : List Float → List Nat → List Nat
  | bound :: bounds, n :: counts =>
    if value ≤ bound then (n + 1) :: counts else n :: tally value bounds counts
  | _, counts => counts

def observe (h : Histogram) (value : Float) : Histogram :=
  { h with
    counts := tally value h.bounds h.counts
    sum := h.sum + value
    count := h.count + 1 }

end Histogram

/-- A counter is an unsigned 64-bit number, and starts again after the greatest. -/
def counter (n : Nat) : Nat :=
  n % 2 ^ 64

/-- A gauge is a signed 64-bit number, and greater ones wrap around. -/
def gauge (n : Nat) : Int :=
  (n : Int).bmod (2 ^ 64)

structure Metrics where
  accepted : Nat := 0
  orphaned : Nat := 0
  promoted : Nat := 0
  rejected : Nat := 0
  duplicate : Nat := 0
  evicted : Nat := 0
  reorgs : Nat := 0
  tipHeight : Int := 0
  orphanCount : Int := 0
  processing : Histogram :=
    .ofBounds [0.005, 0.01, 0.025, 0.05, 0.1, 0.25, 0.5, 1, 2.5, 5, 10]

instance : Inhabited Metrics := ⟨{}⟩

end BlockTree
