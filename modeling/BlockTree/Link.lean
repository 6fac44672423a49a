import BlockTree.Block
import BlockTree.Target

/-! Links: blocks with their place in the block tree. Height and work belong to
the resolved status alone, so neither is ever known without the other. -/

namespace BlockTree

inductive LinkStatus where
  /-- The parent is unknown or an orphan itself. -/
  | orphan
  /-- The whole ancestry down to the genesis block is known. -/
  | resolved (height : Nat) (work : Work)
deriving DecidableEq, Inhabited

namespace LinkStatus

def height? : LinkStatus → Option Nat
  | orphan => none
  | resolved height _ => some height

def work? : LinkStatus → Option Work
  | orphan => none
  | resolved _ work => some work

def isOrphan : LinkStatus → Bool
  | orphan => true
  | resolved .. => false

end LinkStatus

structure Link where
  hash : Hash
  block : Block
  status : LinkStatus
  /-- The place in the order of arrival, given by the store. -/
  seq : Nat
deriving DecidableEq, Inhabited

namespace Link

/-- A block that no store has numbered yet. -/
def make (block : Block) (status : LinkStatus) : Link :=
  ⟨block.hash, block, status, 0⟩

def orphan (block : Block) : Link :=
  make block .orphan

def resolved (block : Block) (height : Nat) (work : Work) : Link :=
  make block (.resolved height work)

/-- The genesis block anchors the tree and carries no work of its own. -/
def genesis (block : Block) : Link :=
  resolved block 0 0

def withSeq (link : Link) (seq : Nat) : Link :=
  { link with seq := seq }

def parentHash (link : Link) : Hash :=
  link.block.prevHash

def height? (link : Link) : Option Nat :=
  link.status.height?

def work? (link : Link) : Option Work :=
  link.status.work?

def isOrphan (link : Link) : Bool :=
  link.status.isOrphan

def isResolved (link : Link) : Bool :=
  !link.isOrphan

def isGenesis (link : Link) : Bool :=
  link.height? == some 0

/-- More work wins, and of equal work the earlier arrival. An orphan never wins. -/
def betterTip (link other : Link) : Bool :=
  match link.status, other.status with
  | .orphan, _ => false
  | .resolved .., .orphan => true
  | .resolved _ mine, .resolved _ theirs =>
    theirs < mine || mine == theirs && link.seq < other.seq

end Link

end BlockTree
