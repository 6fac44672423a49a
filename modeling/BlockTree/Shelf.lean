import BlockTree.Record
import BlockTree.Store
import Std.Data.ExtTreeMap

/-! A store on ordered trees of byte strings. One tree holds the records of the
links, one the pairs of parent and child, one the orphans by their place in the
order of arrival, and one the pointers. A change to the trees happens whole or
not at all. Resolved records that were met are kept at hand, for they are final. -/

namespace BlockTree

abbrev Tree := Std.ExtTreeMap Bytes Bytes

structure Trees where
  links : Tree := ∅
  children : Tree := ∅
  /-- Hashes of orphans by their place in the order of arrival. -/
  orphans : Tree := ∅
  /-- The hashes of the genesis link and the best link, and the next place. -/
  pointers : Tree := ∅
deriving Inhabited

namespace Key

def link (hash : Hash) : Bytes :=
  hash.bytes

/-- All children of one parent share the first 32 bytes of their keys. -/
def child (parent child : Hash) : Bytes :=
  parent.bytes ++ child.bytes

def childOf (key : Bytes) : Hash :=
  Hash.ofBytes (key.drop (key.length - 32))

/-- Most significant byte first, so that keys are ordered as numbers are. -/
def seq (place : Nat) : Bytes :=
  bigEndian 8 place

def genesis : Bytes :=
  "genesis".toUTF8.toList

def best : Bytes :=
  "best".toUTF8.toList

def counter : Bytes :=
  "seq".toUTF8.toList

end Key

namespace Trees

def decodeLink (bs : Bytes) : Except Error Link :=
  match Record.decode Record.link bs with
  | some link => .ok link
  | none => .error (.storage (.codec .decoding))

def find? (t : Trees) (key : Bytes) : Except Error (Option Link) :=
  match t.links[key]? with
  | none => .ok none
  | some bs => (decodeLink bs).map some

/-- Points to a new genesis link, unless another one is known. -/
def noticeGenesis (t : Trees) (link : Link) : Except Error Trees :=
  let pointed := { t with pointers := t.pointers.insert Key.genesis (Key.link link.hash) }
  if link.isGenesis then
    match t.pointers[Key.genesis]? with
    | none => .ok pointed
    | some bs =>
      if Hash.ofBytes bs = link.hash then .ok pointed
      else .error (.invariant (.secondGenesis link.hash (Hash.ofBytes bs)))
  else .ok t

def best? (t : Trees) : Except Error (Option Link) :=
  match t.pointers[Key.best]? with
  | none => .ok none
  | some key => t.find? key

/-- Moves the pointers after the resolved `link` was filed. -/
def notice (t : Trees) (link : Link) : Except Error Trees := do
  let t ← t.noticeGenesis link
  let better :=
    match ← t.best? with
    | some current => link.betterTip current
    | none => true
  if better then
    return { t with pointers := t.pointers.insert Key.best (Key.link link.hash) }
  else return t

def nextSeq (t : Trees) : Except Error Nat :=
  match t.pointers[Key.counter]? with
  | none => .ok 0
  | some bs =>
    if bs.length = 8 then .ok (ofBigEndian bs)
    else .error (.storage (.codec (.sequenceCounter bs.length)))

def insert (t : Trees) (link : Link) : Except Error (Link × Trees) := do
  let key := Key.link link.hash
  if t.links[key]?.isSome then
    throw (.duplicateLink link.hash)
  let seq ← t.nextSeq
  let stored := link.withSeq seq
  let filed := { t with
    links := t.links.insert key (Record.ofLink stored)
    children := t.children.insert (Key.child stored.parentHash link.hash) []
    pointers := t.pointers.insert Key.counter (Key.seq (seq + 1)) }
  if stored.isOrphan then
    return (stored, { filed with orphans := filed.orphans.insert (Key.seq seq) key })
  else return (stored, ← filed.notice stored)

/-- Replaces the record of an orphan, which keeps its place in the order of
arrival. Nothing is written if the stored record is final. -/
def promote (t : Trees) (link : Link) : Except Error (Option Link × Trees) := do
  let key := Key.link link.hash
  match ← t.find? key with
  | none => throw (.storage (.missing link.hash))
  | some stored =>
    if stored.isResolved then
      return (none, t)
    else
      let updated := link.withSeq stored.seq
      let filed := { t with links := t.links.insert key (Record.ofLink updated) }
      if updated.isResolved then
        let freed := { filed with orphans := filed.orphans.erase (Key.seq updated.seq) }
        return (some updated, ← freed.notice updated)
      else return (some updated, filed)

def promoteAll : List Link → Trees → Except Error (List Link × Trees)
  | [], t => .ok ([], t)
  | link :: links, t => do
    let (updated?, t) ← t.promote link
    let (updated, t) ← promoteAll links t
    return (updated?.toList ++ updated, t)

def insertAndPromote (t : Trees) (link : Link) (promoted : List Link) :
    Except Error ((Link × List Link) × Trees) := do
  let (stored, t) ← t.insert link
  let (updated, t) ← promoteAll promoted t
  return ((stored, updated), t)

def removeOrphan (t : Trees) (hash : Hash) : Except Error (Link × Trees) := do
  let key := Key.link hash
  match ← t.find? key with
  | none => throw (.storage (.missing hash))
  | some stored =>
    if stored.isResolved then
      throw (.storage (.notOrphan hash))
    return (stored, { t with
      links := t.links.erase key
      children := t.children.erase (Key.child stored.parentHash hash)
      orphans := t.orphans.erase (Key.seq stored.seq) })

/-- The children named by the keys that begin with `parent`, in key order. -/
def childHashes (t : Trees) (parent : Hash) : List Hash :=
  (t.children.keys.filter fun key => (Key.link parent).isPrefixOf key).map Key.childOf

def orphanHashes (t : Trees) : List Hash :=
  t.orphans.values.map Hash.ofBytes

end Trees

structure Shelf where
  trees : Trees := {}
  /-- Resolved links met since the store was opened, by the bytes of their hash. -/
  cache : Std.ExtTreeMap Bytes Link := ∅
deriving Inhabited

namespace Shelf

def remember (s : Shelf) (link : Link) : Shelf :=
  if link.isResolved then { s with cache := s.cache.insert link.hash.bytes link } else s

/-- Runs a change of the trees that happens whole or not at all. -/
def attempt (change : Trees → Except Error (α × Trees)) : StoreM Shelf α := fun s =>
  match change s.trees with
  | .ok (value, changed) => .ok value { s with trees := changed }
  | .error e => .error e s

def load (hash : Hash) : StoreM Shelf (Option Link) := fun s =>
  match s.cache[hash.bytes]? with
  | some link => .ok (some link) s
  | none =>
    match s.trees.find? (Key.link hash) with
    | .error e => .error e s
    | .ok none => .ok none s
    | .ok (some link) =>
      .ok (some link)
        (if link.isResolved then { s with cache := s.cache.insert hash.bytes link } else s)

def loadPointer (key : Bytes) : StoreM Shelf (Option Link) := do
  match (← get).trees.pointers[key]? with
  | none => return none
  | some bs => load (Hash.ofBytes bs)

def loadChildren : List Hash → StoreM Shelf (List Link)
  | [] => return []
  | hash :: hashes => do
    match ← load hash with
    | none => throw (.storage (.missing hash))
    | some link => return link :: (← loadChildren hashes)

/-- Hashes without a link are passed over. -/
def loadPresent : List Hash → StoreM Shelf (List Link)
  | [] => return []
  | hash :: hashes => do
    let link? ← load hash
    return link?.toList ++ (← loadPresent hashes)

def answer : Call α → StoreM Shelf α
  | .addLink link => do
    let stored ← attempt fun t => t.insert link
    modify fun s => s.remember stored
    return stored
  | .getLink hash => load hash
  | .genesisLink => loadPointer Key.genesis
  | .lastLink => loadPointer Key.best
  | .nextLinks parent => do
    let links ← loadChildren ((← get).trees.childHashes parent)
    return links.mergeSort fun a b => a.seq ≤ b.seq
  | .updateLink link => do
    let updated? ← attempt fun t => t.promote link
    modify fun s => updated?.toList.foldl remember s
  | .addAndPromote link promoted => do
    let (stored, updated) ← attempt fun t => t.insertAndPromote link promoted
    modify fun s => (updated ++ [stored]).foldl remember s
    return stored
  | .removeOrphan hash => do
    let removed ← attempt fun t => t.removeOrphan hash
    modify fun s => { s with cache := s.cache.erase hash.bytes }
    return removed
  | .orphanLinks => do loadPresent (← get).trees.orphanHashes
  | .linkCount => return (← get).trees.links.size

instance : Store Shelf where
  answer := answer
  reach s := s.trees.links.size + s.cache.size

def reopen (s : Shelf) : Shelf :=
  { s with cache := ∅ }

end Shelf

end BlockTree
