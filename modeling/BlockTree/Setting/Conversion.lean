import BlockTree.Config
import BlockTree.Decimal.Shortest
import BlockTree.Json.Number
import BlockTree.Json.Parse
import BlockTree.Setting

/-! Converting settings to the types that their places ask for. -/

namespace BlockTree.Setting

/-- A whole number beyond the signed 64-bit integers is kept as a real one. -/
def ofNumber? (v : Json.Value) : Option Setting :=
  match v with
  | .int n => if n < 2 ^ 63 then some (.int n) else v.real?.map .real
  | _ => v.real?.map .real

mutual

def ofJson? : Json.Value → Option Setting
  | .null => some .nil
  | .bool b => some (.bool b)
  | .int n => ofNumber? (.int n)
  | .real digits => ofNumber? (.real digits)
  | .text s => s.map fun s => .text (String.ofList s)
  | .list items => (ofJsonItems? items).map .list
  | .object fields => (ofJsonFields? fields).map .table

def ofJsonItems? : List Json.Value → Option (List Setting)
  | [] => some []
  | item :: items =>
    match ofJson? item, ofJsonItems? items with
    | some item, some items => some (item :: items)
    | _, _ => none

/-- Of fields with one name the last counts. -/
def ofJsonFields? : List (Option (List Char) × Json.Value) → Option (List (String × Setting))
  | [] => some []
  | (none, _) :: _ => none
  | (some name, value) :: fields =>
    let name := String.ofList name
    match ofJson? value, ofJsonFields? fields with
    | some value, some rest =>
      some (if rest.any fun entry => entry.1 = name then rest else (name, value) :: rest)
    | _, _ => none

end

/-- Lists and objects lie in each other at most 127 deep. -/
def ofJsonText? (text : List Char) : Option Setting :=
  (Json.parse text).bind fun v => if v.depth < 128 then ofJson? v else none

def lower (s : String) : List Char :=
  s.toList.map Char.toLower

def isAffirmative (s : String) : Bool :=
  ["true", "on", "yes"].any fun word => lower s = word.toList

def isNegative (s : String) : Bool :=
  ["false", "off", "no"].any fun word => lower s = word.toList

def within? (low high : Int) (n : Int) : Option Int :=
  if low ≤ n ∧ n ≤ high then some n else none

/-- A word for a truth value counts as a number, and so does the text of one. -/
def wordNumber? (low high : Int) (s : String) : Option Int :=
  if isAffirmative s then some 1
  else if isNegative s then some 0
  else (Decimal.intOf? s.toList).bind (within? low high)

def i64? : Setting → Option Int
  | .int n => some n
  | .bool b => some (if b then 1 else 0)
  | .real x => some x.round.toInt64.toInt
  | .text s => wordNumber? (-2 ^ 63) (2 ^ 63 - 1) s
  | _ => none

/-- A minus sign is no part of an unsigned number, not even of zero. -/
def u64? : Setting → Option Nat
  | .int n => if 0 ≤ n then some n.toNat else none
  | .bool b => some (if b then 1 else 0)
  | .real x => some x.round.toUInt64.toNat
  | .text s =>
    if s.toList.head? = some '-' then none
    else (wordNumber? 0 (2 ^ 64 - 1) s).map Int.toNat
  | _ => none

def bool? : Setting → Option Bool
  | .bool b => some b
  | .int n => some (n ≠ 0)
  | .real x => some (x != 0)
  | .text s =>
    if isAffirmative s || s == "1" then some true
    else if isNegative s || s == "0" then some false
    else none
  | _ => none

def string? : Setting → Option String
  | .text s => some s
  | .bool b => some (if b then "true" else "false")
  | .int n => some (String.ofList (Json.intDigits n))
  | .real x => some (Decimal.text x)
  | _ => none

def hash? (s : Setting) : Option Hash :=
  s.string?.bind fun text => Hash.parse? text.toList

def optionalHash? : Setting → Option (Option Hash)
  | .nil => some none
  | s => s.hash?.map some

def fields? (names : List String) : Setting → Option (List (Option Setting))
  | .table entries => some (names.map fun name => entries.lookup name)
  | .list items =>
    let given := items.take names.length
    some (given.map some ++ List.replicate (names.length - given.length) none)
  | _ => none

def orDefault (value : α) (read : Setting → Option α) : Option Setting → Option α
  | none => some value
  | some s => read s

def consensusConfig? (s : Setting) : Option ConsensusConfig :=
  let base : ConsensusConfig := {}
  match fields? ["max_orphans", "event_capacity", "genesis_hash", "max_future_drift_secs"] s with
  | some [maxOrphans, eventCapacity, genesisHash, drift] => do
    return ⟨← orDefault base.maxOrphans u64? maxOrphans,
      ← orDefault base.eventCapacity u64? eventCapacity,
      ← orDefault base.genesisHash? optionalHash? genesisHash,
      ← orDefault base.maxFutureDrift i64? drift⟩
  | _ => none

def loggingConfig? (s : Setting) : Option LoggingConfig :=
  let base : LoggingConfig := {}
  match fields? ["level", "file_logging", "log_dir", "log_file", "format", "include_target"] s with
  | some [level, fileLogging, logDir, logFile, format, includeTarget] => do
    return ⟨← orDefault base.level string? level,
      ← orDefault base.fileLogging bool? fileLogging,
      ← orDefault base.logDir string? logDir,
      ← orDefault base.logFile string? logFile,
      ← orDefault base.format string? format,
      ← orDefault base.includeTarget bool? includeTarget⟩
  | _ => none

def nodeConfig? (s : Setting) : Option NodeConfig :=
  let base : NodeConfig := {}
  match fields? ["data_dir", "consensus", "logging"] s with
  | some [dataDir, consensus, logging] => do
    return ⟨← orDefault base.dataDir string? dataDir,
      ← orDefault base.consensus consensusConfig? consensus,
      ← orDefault base.logging loggingConfig? logging⟩
  | _ => none

end BlockTree.Setting
