import BlockTree.Error
import BlockTree.Block

/-! Checks that need nothing but the block itself. -/

namespace BlockTree.Validation

def repeatedClaim? (seen : List OutPoint) : List TxInput → Option OutPoint
  | [] => none
  | input :: inputs =>
    if input.claimed ∈ seen then some input.claimed
    else repeatedClaim? (input.claimed :: seen) inputs

def checkTransaction (tx : Transaction) : Except TransactionFault Unit :=
  if tx.outputs = [] then .error .noOutputs
  else
    match repeatedClaim? [] tx.inputs with
    | some claimed => .error (.repeatedClaim claimed)
    | none => .ok ()

def checkTransactionsFrom (index : Nat) : List Transaction → Except ValidationError Unit
  | [] => .ok ()
  | tx :: txs =>
    match checkTransaction tx with
    | .error fault => .error (.invalidTransaction index fault)
    | .ok () => checkTransactionsFrom (index + 1) txs

def checkTransactions (block : Block) : Except ValidationError Unit :=
  if block.transactions = [] then .error .emptyBlock
  else checkTransactionsFrom 0 block.transactions

def checkMerkleRoot (block : Block) : Except ValidationError Unit :=
  let computed := Merkle.root block.transactions
  if computed = block.header.merkleRoot then .ok ()
  else .error (.merkleMismatch block.header.merkleRoot computed)

def checkWork (block : Block) : Except ValidationError Work :=
  let bits := block.header.bits
  match Target.isMetBy bits block.hash with
  | .error fault => .error (.invalidTarget fault bits)
  | .ok false => .error (.insufficientWork block.hash)
  | .ok true =>
    match Work.ofBits bits with
    | .error fault => .error (.invalidTarget fault bits)
    | .ok work => .ok work

/-- The latest time a block may carry, which is no later than a timestamp can
tell and no earlier. -/
def latestTime (now drift : Int) : Int :=
  max (-2 ^ 63) (min (now + drift) (2 ^ 63 - 1))

def checkTimestamp (now drift : Int) (block : Block) : Except ValidationError Unit :=
  let timestamp := block.header.timestamp.toInt
  if latestTime now drift < timestamp then .error (.invalidTimestamp timestamp drift)
  else .ok ()

end Validation

/-- The work that an acceptable block contributes. Times are in seconds. -/
def validate (now drift : Int) (block : Block) : Except ValidationError Work := do
  Validation.checkTransactions block
  Validation.checkMerkleRoot block
  let work ← Validation.checkWork block
  Validation.checkTimestamp now drift block
  return work

end BlockTree
