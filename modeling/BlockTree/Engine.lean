import BlockTree.BranchChange
import BlockTree.Channel
import BlockTree.Config
import BlockTree.Delta
import BlockTree.Metrics
import BlockTree.Path
import BlockTree.Validation

/-! The engine that files blocks in a store. A block is validated, placed below its
parent, and filed in one call together with the orphans that it completes. Then
the tip moves to the best link. Nothing is written before the last check. -/

namespace BlockTree

structure Engine where
  config : ConsensusConfig
  tip? : Option Link
  /-- The hashes of the orphans, the oldest first. -/
  orphans : List Hash
  events : Channel BranchChange
  metrics : Metrics

structure Outcome where
  hash : Hash
  status : LinkStatus
  /-- The orphans that the block completed, parents first. -/
  promoted : List Hash
  change? : Option BranchChange

structure Node (σ : Type) where
  engine : Engine
  store : σ

abbrev NodeM (σ : Type) := EStateM Error (Node σ)

variable {σ : Type} [Store σ]

namespace Engine

def ofStore (config : ConsensusConfig) : StoreM σ Engine := do
  if config.maxOrphans = 0 then
    throw (.config .noRoomForOrphans)
  let tip? ← ask .lastLink
  let orphans := (← ask .orphanLinks).map Link.hash
  return {
    config := config
    tip? := tip?
    orphans := orphans
    events := .ofCapacity config.eventCapacity
    metrics := {
      tipHeight := gauge ((tip?.bind Link.height?).getD 0)
      orphanCount := orphans.length } }

def observe (e : Engine) (seconds : Float) : Engine :=
  { e with metrics := { e.metrics with processing := e.metrics.processing.observe seconds } }

def validateBatch (e : Engine) (now : Int) (blocks : List Block) :
    List (Except Error Work) :=
  blocks.map fun block => (validate now e.config.maxFutureDrift block).mapError .validation

end Engine

namespace Node

def onStore (act : StoreM σ α) : NodeM σ α := fun n =>
  match act n.store with
  | .ok value store => .ok value { n with store := store }
  | .error e store => .error e { n with store := store }

def request (call : Call α) : NodeM σ α :=
  onStore (ask call)

def attempt (act : NodeM σ α) : NodeM σ (Except Error α) := fun n =>
  match act n with
  | .ok value n => .ok (.ok value) n
  | .error e n => .ok (.error e) n

def modifyMetrics (change : Metrics → Metrics) : NodeM σ Unit :=
  modify fun n => { n with engine := { n.engine with metrics := change n.engine.metrics } }

def setOrphans (orphans : List Hash) : NodeM σ Unit :=
  modify fun n => { n with engine := { n.engine with orphans := orphans } }

def reject (e : ValidationError) : NodeM σ α := do
  modifyMetrics fun m => { m with rejected := m.rejected + 1 }
  throw (.validation e)

/-- A block without a parent may only be the first one, and the expected one if
there is one. -/
def checkGenesis (hash : Hash) : NodeM σ Unit := do
  if let some expected := (← get).engine.config.genesisHash? then
    if expected ≠ hash then
      reject (.invalidGenesis (.unexpected expected hash))
  match ← request .genesisLink with
  | some existing => reject (.invalidGenesis (.alreadyStored existing.hash))
  | none => return ()

def position (block : Block) (work : Work) : NodeM σ LinkStatus := do
  if block.prevHash.isZero then
    checkGenesis block.hash
    return .resolved 0 0
  match (← request (.getLink block.prevHash)).map Link.status with
  | some (.resolved height parentWork) => return .resolved (height + 1) (parentWork + work)
  | _ => return .orphan

/-- Drops the oldest orphans until there is room for one more. Those that are no
orphans in the store, or not stored, are only forgotten. -/
def evictFrom : List Hash → NodeM σ Unit
  | [] => return ()
  | oldest :: rest => do
    if rest.length + 1 < (← get).engine.config.maxOrphans then
      return ()
    match ← attempt (request (.removeOrphan oldest)) with
    | .ok _ =>
      setOrphans rest
      modifyMetrics fun m => { m with evicted := m.evicted + 1 }
    | .error (.storage (.missing _)) => setOrphans rest
    | .error (.storage (.notOrphan _)) => setOrphans rest
    | .error e => throw e
    evictFrom rest

/-- The orphans among the children of one link, resolved. -/
def resolveChildren (height : Nat) (work : Work) : List Link → Except Error (List Link)
  | [] => .ok []
  | child :: children => do
    if child.isResolved then
      resolveChildren height work children
    else
      match Work.ofBits child.block.header.bits with
      | .error fault => throw (.validation (.invalidTarget fault child.block.header.bits))
      | .ok own =>
        let resolved := (Link.resolved child.block (height + 1) (work + own)).withSeq child.seq
        return resolved :: (← resolveChildren height work children)

/-- A link whose children are looked for, with its height and work. -/
structure Anchor where
  hash : Hash
  height : Nat
  work : Work

def Anchor.ofLink (link : Link) : Anchor :=
  ⟨link.hash, link.height?.getD 0, link.work?.getD 0⟩

def planGeneration : List Anchor → NodeM σ (List Link)
  | [] => return []
  | anchor :: anchors => do
    let children ← request (.nextLinks anchor.hash)
    let resolved ← MonadExcept.ofExcept (resolveChildren anchor.height anchor.work children)
    return resolved ++ (← planGeneration anchors)

def planGenerations : Nat → List Anchor → NodeM σ (List Link)
  | _, [] => return []
  | 0, _ :: _ => throw (.invariant .endlessAncestry)
  | generations + 1, anchors => do
    let next ← planGeneration anchors
    return next ++ (← planGenerations generations (next.map .ofLink))

/-- The orphans that wait below a link, resolved generation by generation. There
are no more generations than stored links, unless parents go round in a circle. -/
def planPromotions (root : Anchor) : NodeM σ (List Link) := do
  planGenerations (Store.reach (← get).store + 1) [root]

def updateTip : NodeM σ (Option BranchChange) := do
  match ← request .lastLink with
  | none => return none
  | some new =>
    let old? := (← get).engine.tip?
    if old?.map Link.hash = some new.hash then
      return none
    let common? ←
      match old? with
      | none => pure none
      | some old => some <$> onStore (commonAncestor old new)
    let change : BranchChange := ⟨old?, new, common?⟩
    modifyMetrics fun m =>
      { m with
        reorgs := if change.isReorg then m.reorgs + 1 else m.reorgs
        tipHeight := gauge (new.height?.getD 0) }
    modify fun n =>
      { n with engine := { n.engine with
          tip? := some new
          events := n.engine.events.publish change } }
    return some change

def recordFiled (stored : Link) (promoted : List Hash) : NodeM σ Unit := do
  let orphans := (← get).engine.orphans
  if stored.isOrphan then
    setOrphans (orphans ++ [stored.hash])
    modifyMetrics fun m => { m with orphaned := m.orphaned + 1 }
  else
    setOrphans (orphans.filter fun hash => hash ∉ promoted)
    modifyMetrics fun m =>
      { m with accepted := m.accepted + 1, promoted := m.promoted + promoted.length }
  let waiting := (← get).engine.orphans.length
  modifyMetrics fun m => { m with orphanCount := waiting }

/-- The orphans to promote with a block. For one that is an orphan itself there
are none, and room is made for it instead. -/
def prepare (hash : Hash) : LinkStatus → NodeM σ (List Link)
  | .resolved height work => planPromotions ⟨hash, height, work⟩
  | .orphan => do
    evictFrom (← get).engine.orphans
    return []

def submit (now : Int) (block : Block) : NodeM σ Outcome := do
  let hash := block.hash
  let work ←
    match validate now (← get).engine.config.maxFutureDrift block with
    | .ok work => pure work
    | .error e => reject e
  if (← request (.getLink hash)).isSome then
    modifyMetrics fun m => { m with duplicate := m.duplicate + 1 }
    throw (.duplicateLink hash)
  let status ← position block work
  let promotions ← prepare hash status
  let promoted := promotions.map Link.hash
  let link := Link.make block status
  let stored ←
    if link.isOrphan then request (.addLink link)
    else request (.addAndPromote link promotions)
  recordFiled stored promoted
  let change? ← updateTip
  return ⟨hash, stored.status, promoted, change?⟩

def activePath : StoreM σ Path := do
  match ← ask .lastLink with
  | none => throw (.notFound .activeTip)
  | some tip => Path.toLink tip

end Node

end BlockTree
