import BlockTree.Config
import BlockTree.Link

/-! The binary form in which links and settings are stored. Integers have a fixed
width, least significant byte first, lists and strings follow their length, and
hashes and scripts are stored as hexadecimal text. A reader takes a record from
the front of a byte string and leaves the rest. -/

namespace BlockTree.Record

abbrev Reader := StateT Bytes Option

def fail : Reader α :=
  fun _ => none

def take : Nat → Reader Bytes
  | 0, bs => some ([], bs)
  | _ + 1, [] => none
  | n + 1, b :: bs =>
    match take n bs with
    | none => none
    | some (front, rest) => some (b :: front, rest)

def nat (width : Nat) : Reader Nat :=
  return ofLittleEndian (← take width)

def bool : Reader Bool := do
  match ← nat 1 with
  | 0 => return false
  | 1 => return true
  | _ => fail

def repeated (item : Reader α) : Nat → Reader (List α)
  | 0 => return []
  | n + 1 => do
    let first ← item
    return first :: (← repeated item n)

def list (item : Reader α) : Reader (List α) := do
  repeated item (← nat 8)

def option (item : Reader α) : Reader (Option α) := do
  match ← nat 1 with
  | 0 => return none
  | 1 => return some (← item)
  | _ => fail

def bytes : Reader Bytes := do
  take (← nat 8)

/-- Text of ASCII characters. Any other byte stands for a character that no
reader of digits accepts. -/
def ascii : Reader (List Char) :=
  return (← bytes).map fun b => Char.ofNat b.toNat

def string : Reader String := do
  match String.fromUTF8? ⟨(← bytes).toArray⟩ with
  | some s => return s
  | none => fail

def hash : Reader Hash := do
  match Hash.parse? (← ascii) with
  | some h => return h
  | none => fail

def script : Reader Bytes := do
  match Hex.decode (← ascii) with
  | .ok bs => return bs
  | .error _ => fail

def u32 : Reader UInt32 :=
  return .ofNat (← nat 4)

def u64 : Reader UInt64 :=
  return .ofNat (← nat 8)

def i64 : Reader Int64 :=
  return (← u64).toInt64

def outPoint : Reader OutPoint :=
  return ⟨← hash, ← u32⟩

def txInput : Reader TxInput :=
  return ⟨← outPoint, ← script⟩

def txOutput : Reader TxOutput :=
  return ⟨← u64, ← script⟩

def transaction : Reader Transaction :=
  return ⟨← u32, ← list txInput, ← list txOutput, ← u32⟩

def header : Reader Header :=
  return ⟨← u32, ← hash, ← hash, ← i64, ← u32, ← u32⟩

def block : Reader Block :=
  return ⟨← header, ← list transaction⟩

def work : Reader Work :=
  return Work.ofDigits (← list u32)

def status : Reader LinkStatus := do
  match ← nat 4 with
  | 0 => return .orphan
  | 1 => return .resolved (← nat 8) (← work)
  | _ => fail

def link : Reader Link :=
  return ⟨← hash, ← block, ← status, ← nat 8⟩

def consensusConfig : Reader ConsensusConfig :=
  return ⟨← nat 8, ← nat 8, ← option hash, (← i64).toInt⟩

def loggingConfig : Reader LoggingConfig :=
  return ⟨← string, ← bool, ← string, ← string, ← string, ← bool⟩

def ofBool (b : Bool) : Bytes :=
  [if b then 1 else 0]

def ofList (item : α → Bytes) (items : List α) : Bytes :=
  littleEndian 8 items.length ++ items.flatMap item

def ofOption (item : α → Bytes) : Option α → Bytes
  | none => [0]
  | some x => 1 :: item x

def ofBytes (bs : Bytes) : Bytes :=
  littleEndian 8 bs.length ++ bs

def ofAscii (text : List Char) : Bytes :=
  ofBytes (text.map fun c => UInt8.ofNat c.toNat)

def ofString (s : String) : Bytes :=
  ofBytes s.toUTF8.toList

def ofHash (h : Hash) : Bytes :=
  ofAscii (Hex.encode h.bytes)

def ofScript (bs : Bytes) : Bytes :=
  ofAscii (Hex.encode bs)

def ofU32 (n : UInt32) : Bytes :=
  littleEndian 4 n.toNat

def ofU64 (n : UInt64) : Bytes :=
  littleEndian 8 n.toNat

def ofI64 (n : Int64) : Bytes :=
  ofU64 n.toUInt64

def ofOutPoint (p : OutPoint) : Bytes :=
  ofHash p.txHash ++ ofU32 p.index

def ofTxInput (input : TxInput) : Bytes :=
  ofOutPoint input.claimed ++ ofScript input.scriptSig

def ofTxOutput (output : TxOutput) : Bytes :=
  ofU64 output.value ++ ofScript output.scriptPubkey

def ofTransaction (tx : Transaction) : Bytes :=
  ofU32 tx.version ++ ofList ofTxInput tx.inputs ++ ofList ofTxOutput tx.outputs ++
    ofU32 tx.lockTime

def ofHeader (h : Header) : Bytes :=
  ofU32 h.version ++ ofHash h.prevHash ++ ofHash h.merkleRoot ++ ofI64 h.timestamp ++
    ofU32 h.bits ++ ofU32 h.nonce

def ofBlock (b : Block) : Bytes :=
  ofHeader b.header ++ ofList ofTransaction b.transactions

def ofWork (work : Work) : Bytes :=
  ofList ofU32 (Work.digits work)

def ofStatus : LinkStatus → Bytes
  | .orphan => littleEndian 4 0
  | .resolved height work => littleEndian 4 1 ++ littleEndian 8 height ++ ofWork work

def ofLink (link : Link) : Bytes :=
  ofHash link.hash ++ ofBlock link.block ++ ofStatus link.status ++ littleEndian 8 link.seq

def ofConsensusConfig (c : ConsensusConfig) : Bytes :=
  littleEndian 8 c.maxOrphans ++ littleEndian 8 c.eventCapacity ++
    ofOption ofHash c.genesisHash? ++ ofI64 (.ofInt c.maxFutureDrift)

def ofLoggingConfig (c : LoggingConfig) : Bytes :=
  ofString c.level ++ ofBool c.fileLogging ++ ofString c.logDir ++ ofString c.logFile ++
    ofString c.format ++ ofBool c.includeTarget

/-- The record at the front of a byte string. What follows it is ignored. -/
def decode (reader : Reader α) (bs : Bytes) : Option α :=
  (reader bs).map Prod.fst

end BlockTree.Record
