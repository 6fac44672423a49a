import BlockTree.Hash

/-! Transactions. The hash of a transaction is taken of its `preimage`, in which
every list and script is preceded by its length. -/

namespace BlockTree

structure OutPoint where
  txHash : Hash
  index : UInt32
deriving DecidableEq, Inhabited

def OutPoint.text (p : OutPoint) : String :=
  s!"{p.txHash}:{p.index.toNat}"

instance : ToString OutPoint := ⟨OutPoint.text⟩

/-- Claims an output, with the script that entitles to it. -/
structure TxInput where
  claimed : OutPoint
  scriptSig : Bytes
deriving DecidableEq, Inhabited

structure TxOutput where
  value : UInt64
  scriptPubkey : Bytes
deriving DecidableEq, Inhabited

structure Transaction where
  version : UInt32
  inputs : List TxInput
  outputs : List TxOutput
  lockTime : UInt32
deriving DecidableEq, Inhabited

def sized (bs : Bytes) : Bytes :=
  littleEndian 4 bs.length ++ bs

def TxInput.preimage (input : TxInput) : Bytes :=
  input.claimed.txHash.bytes ++ littleEndian 4 input.claimed.index.toNat ++ sized input.scriptSig

def TxOutput.preimage (output : TxOutput) : Bytes :=
  littleEndian 8 output.value.toNat ++ sized output.scriptPubkey

namespace Transaction

def preimage (tx : Transaction) : Bytes :=
  littleEndian 4 tx.version.toNat ++
    littleEndian 4 tx.inputs.length ++ tx.inputs.flatMap TxInput.preimage ++
    littleEndian 4 tx.outputs.length ++ tx.outputs.flatMap TxOutput.preimage ++
    littleEndian 4 tx.lockTime.toNat

def hash (tx : Transaction) : Hash :=
  Hash.double tx.preimage

/-- A transaction without inputs mints new value. -/
def isCoinbase (tx : Transaction) : Bool :=
  tx.inputs.isEmpty

def claimerOf? (tx : Transaction) (p : OutPoint) : Option TxInput :=
  tx.inputs.find? fun input => input.claimed == p

end Transaction

end BlockTree
