import BlockTree.Ancestry

/-! Checks of what a block spends, against the branch that ends at its parent. An
output that another branch claims is still free here. -/

namespace BlockTree.Spending

variable {σ : Type} [Store σ]

/-- Decides whether an input may spend the output it claims. -/
abbrev Verifier := TxInput → TxOutput → Bool

def reject (index : Nat) (fault : TransactionFault) : Error :=
  .validation (.invalidTransaction index fault)

def branchHead (block : Block) : StoreM σ (Option Link) := do
  if block.prevHash.isZero then
    return none
  match ← ask (.getLink block.prevHash) with
  | none => throw (.notFound (.parent block.prevHash))
  | some parent =>
    if parent.isResolved then return some parent
    else throw (.notFound (.resolvedParent block.prevHash))

def claimedOutput (index : Nat) (tx : Transaction) (input : TxInput) : Except Error TxOutput :=
  match tx.outputs[input.claimed.index.toNat]? with
  | some output => .ok output
  | none => .error (reject index (.noSuchOutput input.claimed))

def claimedOnBranch (head? : Option Link) (input : TxInput) : StoreM σ (Option Transaction) := do
  match head? with
  | none => return none
  | some head =>
    match ← claimedLink head input with
    | none => return none
    | some link => return link.block.findTransaction? input.claimed.txHash

/-- The output that `input` claims, if no block of the branch claims it. -/
def freeOutput (index : Nat) (head? : Option Link) (input : TxInput) : StoreM σ TxOutput := do
  match ← claimedOnBranch head? input with
  | none => throw (reject index (.unknownTransaction input.claimed.txHash))
  | some tx =>
    let output ← MonadExcept.ofExcept (claimedOutput index tx input)
    match head? with
    | none => return output
    | some head =>
      match ← claimerLink head input with
      | none => return output
      | some claimer => throw (reject index (.claimedOnBranch input.claimed claimer.hash))

/-- A transaction of the block itself, which goes before the branch. The ones
already seen are kept with their hashes, the latest first. -/
def earlier? (seen : List (Hash × Transaction)) (txHash : Hash) : Option Transaction :=
  (seen.find? fun entry => entry.1 == txHash).map Prod.snd

def checkInputs (verify : Verifier) (index : Nat) (head? : Option Link)
    (seen : List (Hash × Transaction)) : List OutPoint → List TxInput → StoreM σ (List OutPoint)
  | claimed, [] => return claimed
  | claimed, input :: inputs => do
    if input.claimed ∈ claimed then
      throw (reject index (.claimedInBlock input.claimed))
    let output ←
      match earlier? seen input.claimed.txHash with
      | some tx => MonadExcept.ofExcept (claimedOutput index tx input)
      | none => freeOutput index head? input
    if verify input output then
      checkInputs verify index head? seen (input.claimed :: claimed) inputs
    else throw (reject index (.scriptRejected input.claimed))

def checkFrom (verify : Verifier) (head? : Option Link) :
    Nat → List (Hash × Transaction) → List OutPoint → List Transaction → StoreM σ Unit
  | _, _, _, [] => return ()
  | index, seen, claimed, tx :: txs => do
    let claimed ← checkInputs verify index head? seen claimed tx.inputs
    checkFrom verify head? (index + 1) ((tx.hash, tx) :: seen) claimed txs

end Spending

/-- Accepts a block if each of its inputs claims an output that exists on its
branch or earlier in the block, that nothing else there claims, and that the
verifier grants. -/
def checkSpends {σ : Type} [Store σ] (verify : Spending.Verifier) (block : Block) :
    StoreM σ Unit := do
  let head? ← Spending.branchHead block
  Spending.checkFrom verify head? 0 [] [] block.transactions

end BlockTree
