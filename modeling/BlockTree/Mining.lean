import BlockTree.Block
import BlockTree.Target

/-! Making blocks: simple transactions, and the search for a nonce. -/

namespace BlockTree

/-- Mints 50 to a script that tells one such transaction from another. -/
def Transaction.coinbase (tag : UInt32) : Transaction where
  version := 0
  inputs := []
  outputs := [⟨50, littleEndian 4 tag.toNat⟩]
  lockTime := 0

def Transaction.spending (source : Transaction) (index : UInt32) : Transaction where
  version := 0
  inputs := [⟨⟨source.hash, index⟩, [0x51]⟩]
  outputs := [⟨25, [0xac]⟩]
  lockTime := 0

namespace Header

def solveWithin : Nat → Header → Header
  | 0, h => h
  | tries + 1, h =>
    match Target.isMetBy h.bits h.hash with
    | .ok false => solveWithin tries { h with nonce := h.nonce + 1 }
    | _ => h

/-- Raises the nonce until the hash meets the target. A header without a valid
target is left as it is. -/
def solve (h : Header) : Header :=
  solveWithin (2 ^ 32) h

end Header

namespace Block

def mine (prevHash : Hash) (bits : UInt32) (transactions : List Transaction) : Block where
  header := Header.solve ⟨1, prevHash, Merkle.root transactions, 0, bits, 0⟩
  transactions := transactions

def chain (prevHash : Hash) (bits : UInt32) : Nat → UInt32 → List Block
  | 0, _ => []
  | count + 1, tag =>
    let block := mine prevHash bits [.coinbase tag]
    block :: chain block.hash bits count (tag + 1)

end Block

end BlockTree
