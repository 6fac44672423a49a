import BlockTree.Ancestry

/-! The links from the genesis link to one tip, each at the place of its height.
A path is read once and stays as it is while the store grows. -/

namespace BlockTree

structure Path where
  links : List Link
  links_ne_nil : links ≠ []

namespace Path

variable {σ : Type} [Store σ]

def genesis (p : Path) : Link :=
  p.links.head p.links_ne_nil

def tip (p : Path) : Link :=
  p.links.getLast p.links_ne_nil

/-- Links in rising order make a path if they start at a genesis link and are as
many as the height of their tip asks for. -/
def ofLinks (links : List Link) (height : Nat) : Except Error Path :=
  if h : links ≠ [] ∧ (links.head?.any Link.isGenesis) ∧ links.length = height + 1 then
    .ok ⟨links, h.1⟩
  else .error (.invariant (.brokenAncestry links.length height))

def toLink (link : Link) : StoreM σ Path := do
  match link.height? with
  | none => throw (.notFound (.pathToOrphan link.hash))
  | some height =>
    match ofLinks (← ancestry link).reverse height with
    | .ok path => return path
    | .error e => throw e

def toTip (tip : Hash) : StoreM σ Path := do
  match ← ask (.getLink tip) with
  | none => throw (.notFound (.link tip))
  | some link => toLink link

def blocks (p : Path) : List Block :=
  p.links.map Link.block

def blockAt? (p : Path) (height : Nat) : Option Block :=
  p.links[height]?.map Link.block

def link? (p : Path) (hash : Hash) : Option Link :=
  p.links.reverse.find? fun link => link.hash == hash

def contains (p : Path) (hash : Hash) : Bool :=
  (p.link? hash).isSome

def claimerInput? (p : Path) (claimed : OutPoint) : Option TxInput :=
  p.blocks.findSome? fun block => block.claimerOf? claimed

end Path

end BlockTree
