import BlockTree.Target
import BlockTree.Transaction

/-! What can go wrong, by cause, and the text of each cause. -/

namespace BlockTree

inductive TransactionFault where
  | noOutputs
  /-- Two inputs of the transaction claim the same output. -/
  | repeatedClaim (claimed : OutPoint)
  /-- Two transactions of the block claim the same output. -/
  | claimedInBlock (claimed : OutPoint)
  | unknownTransaction (txHash : Hash)
  | noSuchOutput (claimed : OutPoint)
  | claimedOnBranch (claimed : OutPoint) (block : Hash)
  | scriptRejected (claimed : OutPoint)
deriving DecidableEq

inductive GenesisFault where
  | unexpected (expected found : Hash)
  | alreadyStored (existing : Hash)
deriving DecidableEq

inductive ValidationError where
  | merkleMismatch (stated computed : Hash)
  | invalidTarget (fault : TargetFault) (bits : UInt32)
  | insufficientWork (block : Hash)
  | invalidTimestamp (timestamp drift : Int)
  | invalidGenesis (fault : GenesisFault)
  | emptyBlock
  | invalidTransaction (index : Nat) (fault : TransactionFault)
deriving DecidableEq

inductive CodecFault where
  | decoding
  | sequenceCounter (bytes : Nat)
deriving DecidableEq

inductive StorageError where
  | missing (link : Hash)
  | notOrphan (link : Hash)
  | codec (fault : CodecFault)
  | backend (reason : String)
deriving DecidableEq

inductive Absent where
  | link (hash : Hash)
  | pathToOrphan (hash : Hash)
  | activeTip
  | parent (hash : Hash)
  | resolvedParent (hash : Hash)
deriving DecidableEq

/-- What should never be seen in a store that one engine writes. -/
inductive Violation where
  | secondGenesis (link existing : Hash)
  | orphanAncestor (link : Hash)
  | noCommonAncestor (last : Hash)
  | brokenAncestry (links height : Nat)
  | endlessAncestry
  | stopped (reason : String)
deriving DecidableEq

inductive ConfigFault where
  | noRoomForOrphans
  | metricsRegistered
deriving DecidableEq

inductive Error where
  | validation (e : ValidationError)
  | duplicateLink (link : Hash)
  | storage (e : StorageError)
  | notFound (what : Absent)
  | invariant (what : Violation)
  | config (fault : ConfigFault)
deriving DecidableEq

instance : Inhabited Error := ⟨.invariant .endlessAncestry⟩

def TransactionFault.message : TransactionFault → String
  | noOutputs => "no outputs"
  | repeatedClaim claimed => s!"claims {claimed} more than once"
  | claimedInBlock claimed => s!"{claimed} claimed twice in block"
  | unknownTransaction txHash => s!"claims unknown transaction {txHash}"
  | noSuchOutput claimed => s!"output {claimed} does not exist"
  | claimedOnBranch claimed block => s!"{claimed} already claimed in block {block}"
  | scriptRejected claimed => s!"script rejected claim on {claimed}"

def GenesisFault.message : GenesisFault → String
  | unexpected expected found => s!"expected {expected}, got {found}"
  | alreadyStored existing => s!"genesis {existing} already stored"

def TargetFault.name : TargetFault → String
  | negative => "negative target"
  | zero => "zero target"
  | overflow => "target overflow"

def TargetFault.message (fault : TargetFault) (bits : UInt32) : String :=
  s!"{fault.name} 0x{Hex.text (bigEndian 4 bits.toNat)}"

def ValidationError.message : ValidationError → String
  | merkleMismatch stated computed =>
    s!"Merkle root mismatch: header {stated}, computed {computed}"
  | invalidTarget fault bits => s!"Invalid difficulty target: {fault.message bits}"
  | insufficientWork block => s!"Insufficient proof of work for block {block}"
  | invalidTimestamp timestamp drift =>
    s!"Invalid timestamp: {timestamp} is more than {drift}s ahead of local time"
  | invalidGenesis fault => s!"Invalid genesis: {fault.message}"
  | emptyBlock => "Empty block"
  | invalidTransaction index fault => s!"Invalid transaction at index {index}: {fault.message}"

def CodecFault.message : CodecFault → String
  | decoding => "Record decoding failed"
  | sequenceCounter bytes => s!"sequence counter is {bytes} bytes"

def StorageError.message : StorageError → String
  | missing link => s!"Link not found: {link}"
  | notOrphan link => s!"Refusing to remove resolved link: {link}"
  | codec fault => s!"Encoding failed: {fault.message}"
  | backend reason => s!"Backend failure: {reason}"

def Absent.message : Absent → String
  | link hash => s!"link {hash}"
  | pathToOrphan hash => s!"path to orphan link {hash}"
  | activeTip => "active tip"
  | parent hash => s!"parent {hash}"
  | resolvedParent hash => s!"parent {hash} is not resolved"

def Violation.message : Violation → String
  | secondGenesis link existing => s!"second genesis link {link} (existing {existing})"
  | orphanAncestor link => s!"ancestor walk reached orphan link {link}"
  | noCommonAncestor last => s!"no common ancestor: walk ended at {last}"
  | brokenAncestry links height => s!"broken ancestry: {links} links for height {height}"
  | endlessAncestry => "ancestry does not end"
  | stopped reason => reason

def ConfigFault.message : ConfigFault → String
  | noRoomForOrphans => "max_orphans must be at least 1"
  | metricsRegistered => "metrics: already registered"

namespace Error

def message : Error → String
  | validation e => s!"Validation error: {e.message}"
  | duplicateLink link => s!"Duplicate link: {link}"
  | storage e => s!"Storage error: {e.message}"
  | notFound what => s!"Not found: {what.message}"
  | invariant what => s!"Invariant violation: {what.message}"
  | config fault => s!"Configuration error: {fault.message}"

/-- A fault of the block that was handed in, as opposed to one of this node. -/
def isRecoverable : Error → Bool
  | validation _ | duplicateLink _ => true
  | _ => false

end Error

end BlockTree
