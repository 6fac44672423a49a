import BlockTree.Link

/-! Moves of the active tip. -/

namespace BlockTree

structure BranchChange where
  /-- Nothing when the first tip is established. -/
  old? : Option Link
  new : Link
  /-- The highest link on both branches, when there was an old tip. -/
  common? : Option Link
deriving DecidableEq, Inhabited

/-- The new tip does not extend the old one. -/
def BranchChange.isReorg (change : BranchChange) : Bool :=
  match change.old?, change.common? with
  | some old, some common => old.hash ≠ common.hash
  | _, _ => false

end BlockTree
