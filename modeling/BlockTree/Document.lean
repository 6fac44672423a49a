import BlockTree.Config
import BlockTree.Json.Value
import BlockTree.Link

/-! The JSON form of blocks, links and settings. A record is written as an object
and read from an object or from a list of its fields in order. Fields that no
record knows are ignored, and repeated ones are refused. -/

namespace BlockTree

open Json (Value)

namespace Document

def fields? (names : List String) : Value → Option (List (Option Value))
  | .object entries =>
    if entries.any fun entry => entry.1.isNone then none
    else names.mapM fun name =>
      match entries.filter fun entry => entry.1 == some name.toList with
      | [] => some none
      | [(_, value)] => some (some value)
      | _ => none
  | .list items =>
    if items.length ≤ names.length then
      some (items.map some ++ List.replicate (names.length - items.length) none)
    else none
  | _ => none

/-- A field that may be left out, but not spoilt. -/
def orDefault (value : α) (read : Value → Option α) : Option Value → Option α
  | none => some value
  | some v => read v

def natBelow? (bound : Nat) : Value → Option Nat
  | .int (.ofNat n) => if n < bound then some n else none
  | _ => none

def u32? (v : Value) : Option UInt32 :=
  (natBelow? (2 ^ 32) v).map UInt32.ofNat

def u64? (v : Value) : Option Nat :=
  natBelow? (2 ^ 64) v

def i64? : Value → Option Int
  | .int i => if -2 ^ 63 ≤ i ∧ i < 2 ^ 63 then some i else none
  | _ => none

def bool? : Value → Option Bool
  | .bool b => some b
  | _ => none

def chars? : Value → Option (List Char)
  | .text s => s
  | _ => none

def string? (v : Value) : Option String :=
  (chars? v).map String.ofList

def list? (read : Value → Option α) : Value → Option (List α)
  | .list items => items.mapM read
  | _ => none

def hash? (v : Value) : Option Hash :=
  (chars? v).bind Hash.parse?

/-- A script is bare digits, without a mark in front. -/
def script? (v : Value) : Option Bytes :=
  (chars? v).bind fun text => (Hex.decode text).toOption

def outPoint? (v : Value) : Option OutPoint :=
  match fields? ["tx_hash", "index"] v with
  | some [some txHash, some index] => do return ⟨← hash? txHash, ← u32? index⟩
  | _ => none

def txInput? (v : Value) : Option TxInput :=
  match fields? ["claimed", "script_sig"] v with
  | some [some claimed, some script] => do return ⟨← outPoint? claimed, ← script? script⟩
  | _ => none

def txOutput? (v : Value) : Option TxOutput :=
  match fields? ["value", "script_pubkey"] v with
  | some [some value, some script] => do return ⟨.ofNat (← u64? value), ← script? script⟩
  | _ => none

def transaction? (v : Value) : Option Transaction :=
  match fields? ["version", "inputs", "outputs", "lock_time"] v with
  | some [some version, some inputs, some outputs, some lockTime] => do
    return ⟨← u32? version, ← list? txInput? inputs, ← list? txOutput? outputs, ← u32? lockTime⟩
  | _ => none

def header? (v : Value) : Option Header :=
  match fields? ["version", "prev_block_hash", "merkle_root", "timestamp", "bits", "nonce"] v with
  | some [some version, some prevHash, some merkleRoot, some timestamp, some bits, some nonce] => do
    return ⟨← u32? version, ← hash? prevHash, ← hash? merkleRoot,
      .ofInt (← i64? timestamp), ← u32? bits, ← u32? nonce⟩
  | _ => none

def block? (v : Value) : Option Block :=
  match fields? ["header", "transactions"] v with
  | some [some header, some transactions] => do
    return ⟨← header? header, ← list? transaction? transactions⟩
  | _ => none

def work? (v : Value) : Option Work :=
  (list? u32? v).map Work.ofDigits

def status? : Value → Option LinkStatus
  | .text (some name) => if name = "Orphan".toList then some .orphan else none
  | .object [(some name, v)] =>
    if name = "Orphan".toList then
      match v with
      | .null => some .orphan
      | _ => none
    else if name = "Resolved".toList then
      match fields? ["height", "work"] v with
      | some [some height, some work] => do return .resolved (← u64? height) (← work? work)
      | _ => none
    else none
  | _ => none

/-- The hash of a link is read as it stands, and not compared with the block. -/
def link? (v : Value) : Option Link :=
  match fields? ["hash", "block", "status", "seq"] v with
  | some [some hash, some block, some status, some seq] => do
    return ⟨← hash? hash, ← block? block, ← status? status, ← u64? seq⟩
  | _ => none

def optionalHash? : Value → Option (Option Hash)
  | .null => some none
  | v => (hash? v).map some

def consensusConfig? (v : Value) : Option ConsensusConfig :=
  let base : ConsensusConfig := {}
  match fields? ["max_orphans", "event_capacity", "genesis_hash", "max_future_drift_secs"] v with
  | some [maxOrphans, eventCapacity, genesisHash, drift] => do
    return ⟨← orDefault base.maxOrphans u64? maxOrphans,
      ← orDefault base.eventCapacity u64? eventCapacity,
      ← orDefault base.genesisHash? optionalHash? genesisHash,
      ← orDefault base.maxFutureDrift i64? drift⟩
  | _ => none

def loggingConfig? (v : Value) : Option LoggingConfig :=
  let base : LoggingConfig := {}
  match fields? ["level", "file_logging", "log_dir", "log_file", "format", "include_target"] v with
  | some [level, fileLogging, logDir, logFile, format, includeTarget] => do
    return ⟨← orDefault base.level string? level,
      ← orDefault base.fileLogging bool? fileLogging,
      ← orDefault base.logDir string? logDir,
      ← orDefault base.logFile string? logFile,
      ← orDefault base.format string? format,
      ← orDefault base.includeTarget bool? includeTarget⟩
  | _ => none

def ofNat (n : Nat) : Value :=
  .int n

def ofHash (h : Hash) : Value :=
  .text (some (Hex.encode h.bytes))

def ofScript (bs : Bytes) : Value :=
  .text (some (Hex.encode bs))

def ofOutPoint (p : OutPoint) : Value :=
  Json.record [("tx_hash", ofHash p.txHash), ("index", ofNat p.index.toNat)]

def ofTxInput (input : TxInput) : Value :=
  Json.record [("claimed", ofOutPoint input.claimed), ("script_sig", ofScript input.scriptSig)]

def ofTxOutput (output : TxOutput) : Value :=
  Json.record
    [("value", ofNat output.value.toNat), ("script_pubkey", ofScript output.scriptPubkey)]

def ofTransaction (tx : Transaction) : Value :=
  Json.record
    [("version", ofNat tx.version.toNat), ("inputs", .list (tx.inputs.map ofTxInput)),
      ("outputs", .list (tx.outputs.map ofTxOutput)), ("lock_time", ofNat tx.lockTime.toNat)]

def ofHeader (h : Header) : Value :=
  Json.record
    [("version", ofNat h.version.toNat), ("prev_block_hash", ofHash h.prevHash),
      ("merkle_root", ofHash h.merkleRoot), ("timestamp", .int h.timestamp.toInt),
      ("bits", ofNat h.bits.toNat), ("nonce", ofNat h.nonce.toNat)]

def ofBlock (b : Block) : Value :=
  Json.record
    [("header", ofHeader b.header), ("transactions", .list (b.transactions.map ofTransaction))]

def ofWork (work : Work) : Value :=
  .list ((Work.digits work).map fun d => ofNat d.toNat)

def ofStatus : LinkStatus → Value
  | .orphan => Json.string "Orphan"
  | .resolved height work =>
    Json.record [("Resolved", Json.record [("height", ofNat height), ("work", ofWork work)])]

def ofLink (link : Link) : Value :=
  Json.record
    [("hash", ofHash link.hash), ("block", ofBlock link.block), ("status", ofStatus link.status),
      ("seq", ofNat link.seq)]

def ofOptionalHash : Option Hash → Value
  | none => .null
  | some h => ofHash h

def ofConsensusConfig (c : ConsensusConfig) : Value :=
  Json.record
    [("max_orphans", ofNat c.maxOrphans), ("event_capacity", ofNat c.eventCapacity),
      ("genesis_hash", ofOptionalHash c.genesisHash?),
      ("max_future_drift_secs", .int c.maxFutureDrift)]

def ofLoggingConfig (c : LoggingConfig) : Value :=
  Json.record
    [("level", Json.string c.level), ("file_logging", .bool c.fileLogging),
      ("log_dir", Json.string c.logDir), ("log_file", Json.string c.logFile),
      ("format", Json.string c.format), ("include_target", .bool c.includeTarget)]

end Document

end BlockTree
