import BlockTree.Store

/-! Walks from a link towards the genesis link, along parent hashes. A walk meets
no stored link twice, unless parents go round in a circle, and ends after at most
as many steps as the store has links. -/

namespace BlockTree

variable {σ : Type} [Store σ]

/-- The parent of a link, or none for the genesis link or when it is not stored. -/
def parentOf (link : Link) : StoreM σ (Option Link) :=
  if link.isGenesis || link.parentHash.isZero then return none
  else ask (.getLink link.parentHash)

/-- How many links a walk meets at most: the first one need not be stored. -/
def stride : StoreM σ Nat :=
  return Store.reach (← get) + 1

def firstWithin (wanted : Link → Bool) : Nat → Link → StoreM σ (Option Link)
  | 0, _ => throw (.invariant .endlessAncestry)
  | steps + 1, link => do
    if wanted link then
      return some link
    match ← parentOf link with
    | none => return none
    | some parent => firstWithin wanted steps parent

/-- The first wanted link on the way from `link`, itself included, to the root. -/
def firstOnBranch (wanted : Link → Bool) (link : Link) : StoreM σ (Option Link) := do
  firstWithin wanted (← stride) link

def claimedLink (link : Link) (input : TxInput) : StoreM σ (Option Link) :=
  firstOnBranch (fun l => l.block.containsTransaction input.claimed.txHash) link

def claimerLink (link : Link) (input : TxInput) : StoreM σ (Option Link) :=
  firstOnBranch (fun l => (l.block.claimerOf? input.claimed).isSome) link

def ancestryWithin : Nat → Link → StoreM σ (List Link)
  | 0, _ => throw (.invariant .endlessAncestry)
  | steps + 1, link => do
    match ← parentOf link with
    | none => return [link]
    | some parent => return link :: (← ancestryWithin steps parent)

def ancestry (link : Link) : StoreM σ (List Link) := do
  ancestryWithin (← stride) link

end BlockTree
