import BlockTree.Store

/-! The plainest store: the links in their order of arrival, with pointers to the
genesis link and to the best link. Every check comes before the first change, so
a call that fails leaves the arena as it was. What other stores do is told by what
an arena does. -/

namespace BlockTree

structure Arena where
  links : List Link := []
  genesis? : Option Hash := none
  best? : Option Hash := none
  nextSeq : Nat := 0
deriving Inhabited

namespace Arena

def find? (a : Arena) (hash : Hash) : Option Link :=
  a.links.find? fun link => link.hash == hash

def checkGenesis (a : Arena) (link : Link) : Except Error Unit :=
  match a.genesis? with
  | none => .ok ()
  | some existing =>
    if link.isGenesis ∧ existing ≠ link.hash then
      .error (.invariant (.secondGenesis link.hash existing))
    else .ok ()

def notice (a : Arena) (link : Link) : Arena :=
  let genesis? := if link.isGenesis then some link.hash else a.genesis?
  let better :=
    match a.best?.bind a.find? with
    | some current => link.betterTip current
    | none => link.isResolved
  { a with genesis? := genesis?, best? := if better then some link.hash else a.best? }

def noticeResolved (a : Arena) (link : Link) : Arena :=
  if link.isResolved then a.notice link else a

def insert (a : Arena) (link : Link) : Except Error (Link × Arena) := do
  if (a.find? link.hash).isSome then
    throw (.duplicateLink link.hash)
  a.checkGenesis link
  let stored := link.withSeq a.nextSeq
  let filed := { a with links := a.links ++ [stored], nextSeq := a.nextSeq + 1 }
  return (stored, filed.noticeResolved stored)

/-- The record that is to replace an orphan, which keeps its place in the order
of arrival. There is none if the stored record is final. -/
def planUpdate (a : Arena) (link : Link) : Except Error (Option Link) :=
  match a.find? link.hash with
  | none => .error (.storage (.missing link.hash))
  | some stored =>
    if stored.isResolved then .ok none
    else
      match a.checkGenesis link with
      | .error e => .error e
      | .ok () => .ok (some (link.withSeq stored.seq))

def replace (a : Arena) (updated : Link) : Arena :=
  let links := a.links.map fun link => if link.hash = updated.hash then updated else link
  { a with links := links }.noticeResolved updated

def update (a : Arena) (link : Link) : Except Error (Unit × Arena) := do
  match ← a.planUpdate link with
  | none => return ((), a)
  | some updated => return ((), a.replace updated)

/-- All replacements are planned before anything is filed. -/
def insertAndPromote (a : Arena) (link : Link) (promoted : List Link) :
    Except Error (Link × Arena) := do
  let planned ← promoted.mapM a.planUpdate
  let (stored, filed) ← a.insert link
  return (stored, (planned.filterMap id).foldl replace filed)

def removeOrphan (a : Arena) (hash : Hash) : Except Error (Link × Arena) :=
  match a.find? hash with
  | none => .error (.storage (.missing hash))
  | some link =>
    if link.isResolved then .error (.storage (.notOrphan hash))
    else .ok (link, { a with links := a.links.filter fun l => l.hash ≠ hash })

def children (a : Arena) (parent : Hash) : List Link :=
  a.links.filter fun link => link.parentHash == parent

def orphans (a : Arena) : List Link :=
  a.links.filter Link.isOrphan

def attempt (change : Arena → Except Error (α × Arena)) : StoreM Arena α := fun a =>
  match change a with
  | .ok (value, changed) => .ok value changed
  | .error e => .error e a

def answer : Call α → StoreM Arena α
  | .addLink link => attempt fun a => a.insert link
  | .getLink hash => return (← get).find? hash
  | .genesisLink => do
    let a ← get
    return a.genesis?.bind a.find?
  | .lastLink => do
    let a ← get
    return a.best?.bind a.find?
  | .nextLinks parent => return (← get).children parent
  | .updateLink link => attempt fun a => a.update link
  | .addAndPromote link promoted => attempt fun a => a.insertAndPromote link promoted
  | .removeOrphan hash => attempt fun a => a.removeOrphan hash
  | .orphanLinks => return (← get).orphans
  | .linkCount => return (← get).links.length

instance : Store Arena where
  answer := answer
  reach a := a.links.length

end Arena

end BlockTree
