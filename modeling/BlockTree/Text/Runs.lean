/-! Classes of characters as runs of character numbers. -/

namespace BlockTree.Text

/-- Whether a number lies in one of the runs that have a property. Runs without it
and runs with it take turns, and each is given by its length. Nothing after the last
run has the property. -/
def inRuns (inside : Bool) : List Nat → Nat → Bool
  | [], _ => false
  | length :: runs, n => if n < length then inside else inRuns (!inside) runs (n - length)

end BlockTree.Text
