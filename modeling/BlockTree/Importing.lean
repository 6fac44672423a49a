import BlockTree.Engine

/-! Filing blocks one after another, with a count of what became of them. -/

namespace BlockTree

/-- A block, and the time at which it is handed in. -/
structure Delivery where
  now : Int
  block : Block

structure Tally where
  accepted : Nat := 0
  orphaned : Nat := 0
  promoted : Nat := 0
  duplicate : Nat := 0
  rejected : Nat := 0
deriving DecidableEq

namespace Tally

def text (t : Tally) : String :=
  s!"accepted={t.accepted} orphaned={t.orphaned} promoted={t.promoted}" ++
    s!" duplicate={t.duplicate} rejected={t.rejected}"

def note (t : Tally) (outcome : Outcome) : Tally :=
  let promoted := t.promoted + outcome.promoted.length
  if outcome.status.isOrphan then
    { t with orphaned := t.orphaned + 1, promoted := promoted }
  else { t with accepted := t.accepted + 1, promoted := promoted }

def noteDuplicate (t : Tally) : Tally :=
  { t with duplicate := t.duplicate + 1 }

def noteRejected (t : Tally) : Tally :=
  { t with rejected := t.rejected + 1 }

end Tally

namespace Node

variable {σ : Type} [Store σ]

/-- Files a block that was checked on its own before. Only an error that says
nothing on the block itself stops the import. -/
def importBlock (t : Tally) : Delivery × Except Error Work → NodeM σ Tally
  | (_, .error _) => return t.noteRejected
  | (d, .ok _) => do
    match ← attempt (submit d.now d.block) with
    | .ok outcome => return t.note outcome
    | .error (.duplicateLink _) => return t.noteDuplicate
    | .error e => if e.isRecoverable then return t.noteRejected else throw e

/-- Checks all blocks at one time, and files each at its own. -/
def importAll (now : Int) (ds : List Delivery) : NodeM σ Tally := do
  let checks := (← get).engine.validateBatch now (ds.map Delivery.block)
  (ds.zip checks).foldlM importBlock {}

def importBlocks (now : Int) (blocks : List Block) : NodeM σ Tally :=
  importAll now (blocks.map fun block => ⟨now, block⟩)

end Node

end BlockTree
