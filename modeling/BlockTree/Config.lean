import BlockTree.Hash

/-! Settings of a node. -/

namespace BlockTree

structure ConsensusConfig where
  maxOrphans : Nat := 1024
  eventCapacity : Nat := 256
  /-- When given, the only block that may become the genesis block. -/
  genesisHash? : Option Hash := none
  /-- How many seconds a block may be ahead of the local time. -/
  maxFutureDrift : Int := 7200
deriving DecidableEq, Inhabited

structure LoggingConfig where
  level : String := "info"
  fileLogging : Bool := false
  logDir : String := "logs"
  logFile : String := "ledgerlink.log"
  format : String := "pretty"
  includeTarget : Bool := true
deriving DecidableEq, Inhabited

structure NodeConfig where
  dataDir : String := "data"
  consensus : ConsensusConfig := {}
  logging : LoggingConfig := {}
deriving DecidableEq, Inhabited

inductive LogFormat where
  | json
  | pretty
  | compact
deriving DecidableEq

/-- Letter case does not matter, and every unknown name means `pretty`. The two
names consist of letters that no other character is the capital of. -/
def LogFormat.ofName (name : String) : LogFormat :=
  let lower := name.toList.map Char.toLower
  if lower = "json".toList then .json
  else if lower = "compact".toList then .compact
  else .pretty

end BlockTree
