import BlockTree.Store
import Std.Data.ExtTreeMap

/-! A store in memory: a map of the links by their hashes, an index from each hash to the
links that stand on it, and pointers to the genesis link and to the best link. A call writes
to the pool one change at a time and takes none back, so it has to check all it wants to
check before its first change. -/

namespace BlockTree

structure Pool where
  /-- The links by the bytes of their hash. -/
  links : Std.ExtTreeMap Bytes Link := ∅
  /-- The hashes of the links by the bytes of their parent's hash, in order of arrival. -/
  children : Std.ExtTreeMap Bytes (List Hash) := ∅
  genesis? : Option Hash := none
  best? : Option Hash := none
  nextSeq : Nat := 0
deriving Inhabited

namespace Pool

def find? (p : Pool) (hash : Hash) : Option Link :=
  p.links[hash.bytes]?

def childHashes (p : Pool) (parent : Hash) : List Hash :=
  (p.children[parent.bytes]?).getD []

def checkGenesis (p : Pool) (link : Link) : Except Error Unit :=
  match p.genesis? with
  | none => .ok ()
  | some existing =>
    if link.isGenesis ∧ existing ≠ link.hash then
      .error (.invariant (.secondGenesis link.hash existing))
    else .ok ()

def notice (p : Pool) (link : Link) : Pool :=
  let genesis? := if link.isGenesis then some link.hash else p.genesis?
  let better :=
    match p.best?.bind p.find? with
    | some current => link.betterTip current
    | none => link.isResolved
  { p with genesis? := genesis?, best? := if better then some link.hash else p.best? }

def noticeResolved (p : Pool) (link : Link) : Pool :=
  if link.isResolved then p.notice link else p

def put (p : Pool) (link : Link) : Pool :=
  { p with links := p.links.insert link.hash.bytes link }

def addChild (p : Pool) (link : Link) : Pool :=
  { p with
    children := p.children.insert link.parentHash.bytes
      (p.childHashes link.parentHash ++ [link.hash]) }

/-- The record that is to replace an orphan, which keeps its place in the order
of arrival. There is none if the stored record is final. -/
def planUpdate (p : Pool) (link : Link) : Except Error (Option Link) :=
  match p.find? link.hash with
  | none => .error (.storage (.missing link.hash))
  | some stored =>
    if stored.isResolved then .ok none
    else
      match p.checkGenesis link with
      | .error e => .error e
      | .ok () => .ok (some (link.withSeq stored.seq))

/-- The children of `parent` without one of them. Where none are left, none are listed. -/
def forgetChild (p : Pool) (parent hash : Hash) : Std.ExtTreeMap Bytes (List Hash) :=
  match p.children[parent.bytes]? with
  | none => p.children
  | some hashes =>
    let rest := hashes.filter fun h => h ≠ hash
    if rest.isEmpty then p.children.erase parent.bytes
    else p.children.insert parent.bytes rest

/-- Hashes without a link are passed over. -/
def childrenOf (p : Pool) (parent : Hash) : List Link :=
  (p.childHashes parent).filterMap p.find?

def orphans (p : Pool) : List Link :=
  (p.links.values.filter Link.isOrphan).mergeSort fun a b => a.seq ≤ b.seq

def addLink (link : Link) : StoreM Pool Link := do
  if ((← get).find? link.hash).isSome then
    throw (.duplicateLink link.hash)
  MonadExcept.ofExcept ((← get).checkGenesis link)
  let stored := link.withSeq (← get).nextSeq
  modify fun p => { p with nextSeq := p.nextSeq + 1 }
  modify fun p => p.addChild stored
  modify fun p => p.put stored
  modify fun p => p.noticeResolved stored
  return stored

def plan (link : Link) : StoreM Pool (Option Link) := do
  MonadExcept.ofExcept ((← get).planUpdate link)

def write (updated : Link) : StoreM Pool Unit := do
  modify fun p => p.put updated
  modify fun p => p.noticeResolved updated

def updateLink (link : Link) : StoreM Pool Unit := do
  match ← plan link with
  | none => return ()
  | some updated => write updated

/-- All replacements are planned before anything is filed. -/
def addAndPromote (link : Link) (promoted : List Link) : StoreM Pool Link := do
  let planned ← promoted.mapM plan
  let stored ← addLink link
  (planned.filterMap id).forM write
  return stored

def takeOrphan (hash : Hash) : StoreM Pool Link := do
  match (← get).find? hash with
  | none => throw (.storage (.missing hash))
  | some link =>
    if link.isResolved then
      throw (.storage (.notOrphan hash))
    modify fun p => { p with links := p.links.erase hash.bytes }
    modify fun p => { p with children := p.forgetChild link.parentHash hash }
    return link

def answer : Call α → StoreM Pool α
  | .addLink link => addLink link
  | .getLink hash => return (← get).find? hash
  | .genesisLink => do
    let p ← get
    return p.genesis?.bind p.find?
  | .lastLink => do
    let p ← get
    return p.best?.bind p.find?
  | .nextLinks parent => return (← get).childrenOf parent
  | .updateLink link => updateLink link
  | .addAndPromote link promoted => addAndPromote link promoted
  | .removeOrphan hash => takeOrphan hash
  | .orphanLinks => return (← get).orphans
  | .linkCount => return (← get).links.size

instance : Store Pool where
  answer := answer
  reach p := p.links.size

end Pool

end BlockTree
