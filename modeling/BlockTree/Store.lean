import BlockTree.Error
import BlockTree.Link

/-! What an engine asks of a store of links. Calls are data, so a store is one
function, and whatever stands in front of a store sees every call. -/

namespace BlockTree

inductive Call : Type → Type where
  /-- Files a new link and answers it with its place in the order of arrival. -/
  | addLink (link : Link) : Call Link
  | getLink (hash : Hash) : Call (Option Link)
  | genesisLink : Call (Option Link)
  /-- The resolved link with the most work, the earliest of equals. -/
  | lastLink : Call (Option Link)
  /-- The links whose parent is `parent`, in order of arrival. -/
  | nextLinks (parent : Hash) : Call (List Link)
  /-- Replaces the record of an orphan. A resolved record is final. -/
  | updateLink (link : Link) : Call Unit
  /-- Files a new link and replaces the records of orphans, all or nothing. -/
  | addAndPromote (link : Link) (promoted : List Link) : Call Link
  | removeOrphan (hash : Hash) : Call Link
  | orphanLinks : Call (List Link)
  | linkCount : Call Nat

inductive Method where
  | addLink
  | getLink
  | genesisLink
  | lastLink
  | nextLinks
  | updateLink
  | addAndPromote
  | removeOrphan
  | orphanLinks
  | linkCount
deriving DecidableEq

def Call.method : Call α → Method
  | addLink _ => .addLink
  | getLink _ => .getLink
  | genesisLink => .genesisLink
  | lastLink => .lastLink
  | nextLinks _ => .nextLinks
  | updateLink _ => .updateLink
  | addAndPromote .. => .addAndPromote
  | removeOrphan _ => .removeOrphan
  | orphanLinks => .orphanLinks
  | linkCount => .linkCount

class Store (σ : Type) where
  /-- Even a call that fails leaves a store behind. -/
  answer : Call α → EStateM Error σ α
  /-- No walk along parents meets more stored links than this. -/
  reach : σ → Nat

abbrev StoreM (σ : Type) := EStateM Error σ

def ask {σ : Type} [Store σ] (call : Call α) : StoreM σ α :=
  Store.answer call

end BlockTree
