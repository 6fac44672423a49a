import BlockTree.Ancestry

/-! The links between two tips: those to undo, from the old tip down, and those
to apply, up to the new tip. Both sides stop short of the common ancestor. -/

namespace BlockTree

structure Delta where
  ancestor : Link
  /-- The old tip first. -/
  undo : List Link
  /-- The new tip last. -/
  apply : List Link

namespace Delta

variable {σ : Type} [Store σ]

def heightOf (link : Link) : StoreM σ Nat :=
  match link.height? with
  | some height => return height
  | none => throw (.invariant (.orphanAncestor link.hash))

def stepDown (link : Link) : StoreM σ Link := do
  match ← parentOf link with
  | some parent => return parent
  | none => throw (.invariant (.noCommonAncestor link.hash))

/-- Brings the higher side down to the height of the other, then both, until they
meet. The links left behind are collected in the order they were met. -/
def meet : Nat → Link → Link → List Link → List Link → StoreM σ Delta
  | 0, _, _, _, _ => throw (.invariant .endlessAncestry)
  | steps + 1, old, new, undo, apply => do
    if old.hash = new.hash then
      return ⟨old, undo.reverse, apply⟩
    let oldHeight ← heightOf old
    let newHeight ← heightOf new
    if newHeight < oldHeight then
      meet steps (← stepDown old) new (old :: undo) apply
    else if oldHeight < newHeight then
      meet steps old (← stepDown new) undo (new :: apply)
    else
      let below ← stepDown old
      meet steps below (← stepDown new) (old :: undo) (new :: apply)

/-- The links between two resolved links. Every round takes one side a step down,
and each side has no more steps than a walk. -/
def between (old new : Link) : StoreM σ Delta := do
  meet (2 * (← stride) + 1) old new [] []

def isExtension (d : Delta) : Bool :=
  d.undo.isEmpty

def replay {m : Type → Type} [Monad m] (d : Delta) (undo apply : Link → m Unit) : m Unit := do
  d.undo.forM undo
  d.apply.forM apply

end Delta

def commonAncestor {σ : Type} [Store σ] (a b : Link) : StoreM σ Link :=
  return (← Delta.between a b).ancestor

end BlockTree
