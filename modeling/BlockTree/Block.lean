import BlockTree.Merkle

/-! Blocks. A block is known by the hash of its header, which commits to its
transactions through their Merkle root. -/

namespace BlockTree

structure Header where
  version : UInt32
  prevHash : Hash
  merkleRoot : Hash
  timestamp : Int64
  /-- The compact form of the difficulty target. -/
  bits : UInt32
  nonce : UInt32
deriving DecidableEq, Inhabited

namespace Header

def preimage (h : Header) : Bytes :=
  littleEndian 4 h.version.toNat ++ h.prevHash.bytes ++ h.merkleRoot.bytes ++
    littleEndian 8 h.timestamp.toUInt64.toNat ++ littleEndian 4 h.bits.toNat ++
    littleEndian 4 h.nonce.toNat

def hash (h : Header) : Hash :=
  Hash.double h.preimage

end Header

structure Block where
  header : Header
  transactions : List Transaction
deriving DecidableEq, Inhabited

namespace Block

def hash (b : Block) : Hash :=
  b.header.hash

def prevHash (b : Block) : Hash :=
  b.header.prevHash

def findTransaction? (b : Block) (txHash : Hash) : Option Transaction :=
  b.transactions.find? fun tx => tx.hash == txHash

def containsTransaction (b : Block) (txHash : Hash) : Bool :=
  (b.findTransaction? txHash).isSome

def claimerOf? (b : Block) (p : OutPoint) : Option TxInput :=
  b.transactions.findSome? fun tx => tx.claimerOf? p

end Block

end BlockTree
