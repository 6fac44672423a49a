import BlockTree.Proofs.History
import BlockTree.Proofs.Pooling
import BlockTree.Mining

/-! What can be seen of a node from outside: the answers of the store behind the calls
that fail. -/

namespace BlockTree

inductive Backing where
  | arena
  | pool
  | shelf

/-- Calls that change nothing. -/
def Call.onlyReads : {α : Type} → Call α → Bool
  | _, .getLink _ | _, .genesisLink | _, .lastLink | _, .nextLinks _ | _, .orphanLinks
  | _, .linkCount => true
  | _, _ => false

theorem Arena.answer_of_onlyReads (a : Arena) (fits : Nat → Block → Prop) {α : Type}
    {call : Call α} (h : call.onlyReads) :
    a.Promised fits call ∧ ∃ v, Arena.answer call a = .ok v a := by
  cases call with
  | getLink => exact ⟨trivial, _, rfl⟩
  | genesisLink => exact ⟨trivial, _, rfl⟩
  | lastLink => exact ⟨trivial, _, rfl⟩
  | nextLinks => exact ⟨trivial, _, rfl⟩
  | orphanLinks => exact ⟨trivial, _, rfl⟩
  | linkCount => exact ⟨trivial, _, rfl⟩
  | addLink => cases h
  | updateLink => cases h
  | addAndPromote => cases h
  | removeOrphan => cases h

namespace Backing

def Contents : Backing → Type
  | arena => Arena
  | pool => Pool
  | shelf => Shelf

instance (b : Backing) : Medium b.Contents :=
  match b with
  | arena => inferInstanceAs (Medium Arena)
  | pool => inferInstanceAs (Medium Pool)
  | shelf => inferInstanceAs (Medium Shelf)

instance (b : Backing) : Faithful b.Contents :=
  match b with
  | arena => inferInstanceAs (Faithful Arena)
  | pool => inferInstanceAs (Faithful Pool)
  | shelf => inferInstanceAs (Faithful Shelf)

theorem untroubled {b : Backing} (s : b.Contents) : ¬ Faithful.troubled s := by
  cases b with
  | arena => exact id
  | pool => exact id
  | shelf => exact id

/-- A node on a store whose calls may fail at any moments. -/
abbrev Ledger (b : Backing) := Node (Unreliable b.Contents)

/-- The place that the next new link gets. -/
def nextSeq : (b : Backing) → b.Contents → Except Error Nat
  | .arena, a => .ok (Arena.nextSeq a)
  | .pool, p => .ok (Pool.nextSeq p)
  | .shelf, s => (Shelf.trees s).nextSeq

end Backing

namespace Node

variable {b : Backing} {permitted : ConsensusConfig → Prop} {n m : b.Ledger} {x : Node Arena}

/-- The store answers a call when it is not made to fail. -/
def Tells (n : b.Ledger) {α : Type} (call : Call α) (v : α) : Prop :=
  ∃ s, Store.answer call n.store.store = .ok v s

def Stores (n : b.Ledger) (link : Link) : Prop :=
  n.Tells (.getLink link.hash) (some link)

def Lacks (n : b.Ledger) (hash : Hash) : Prop :=
  n.Tells (.getLink hash) none

/-- The node when no call is made to fail any more. -/
def mended (n : b.Ledger) : b.Ledger :=
  { n with store := { n.store with outages := [] } }

theorem Shows.tells {F : Prop} (h : Node.Shows F n x) (hx : x.store.Sound) {α : Type}
    (call : Call α) {v w : α} (hp : x.store.Promised (Faithful.fits b.Contents) call)
    (he : Arena.answer call x.store = .ok v x.store) : n.Tells call w ↔ w = v := by
  have hs : Faithful.holds n.store.store x.store := h.2.1
  rcases Faithful.answers hs hx hp he with ⟨t, ht, -, -⟩ | ⟨htrouble, -⟩
  · constructor
    · intro hw
      obtain ⟨t', ht'⟩ := hw
      rw [ht] at ht'
      cases ht'
      rfl
    · intro hw
      exact ⟨t, hw ▸ ht⟩
  · exact absurd htrouble (Backing.untroubled _)

theorem Shows.stores {F : Prop} (h : Node.Shows F n x) (hx : x.store.Sound) {l : Link} :
    n.Stores l ↔ l ∈ x.store.links := by
  have hanswer : Arena.answer (.getLink l.hash) x.store =
      .ok (x.store.find? l.hash) x.store := rfl
  rw [Stores, h.tells hx (.getLink l.hash) trivial hanswer, eq_comm,
    hx.ordered.find?_eq_some, and_iff_left rfl]

theorem Shows.stores_eq {F : Prop} (h : Node.Shows F n x) (hx : x.store.Sound) :
    n.Stores = (· ∈ x.store.links) :=
  funext fun _ => propext (h.stores hx)

theorem Shows.lacks {F : Prop} (h : Node.Shows F n x) (hx : x.store.Sound) {hash : Hash} :
    n.Lacks hash ↔ x.store.find? hash = none := by
  have hanswer : Arena.answer (.getLink hash) x.store =
      .ok (x.store.find? hash) x.store := rfl
  rw [Lacks, h.tells hx (.getLink hash) trivial hanswer, eq_comm]

theorem Shows.nextSeq {F : Prop} (h : Node.Shows F n x) :
    b.nextSeq n.store.store = .ok x.store.nextSeq := by
  have hs : Faithful.holds n.store.store x.store := h.2.1
  cases b with
  | arena =>
    have he : n.store.store = x.store := hs
    rw [he]
    rfl
  | pool =>
    have hholds : Pool.Holds n.store.store x.store := hs
    exact congrArg Except.ok hholds.nextSeq
  | shelf =>
    have hholds : Shelf.Holds n.store.store x.store := hs
    exact hholds.trees.counter

theorem Shows.backed {F : Prop} {x : Node Arena} (h : Node.Shows F n x) :
    Backed False n.store.store x.store :=
  ⟨h.2.1, fun ht => Backing.untroubled _ ht⟩

theorem Shows.exists_read {F : Prop} {x : Node Arena} (h : Node.Shows F n x) {α : Type}
    {act : StoreM b.Contents α} {ok : α → Prop} (hread : BlockTree.Reads False act x.store ok) :
    ∃ v s, act n.store.store = .ok v s ∧ ok v := by
  cases hrun : act n.store.store with
  | ok v s =>
    obtain ⟨-, -, -, hv⟩ := Ends.of_ok hread h.backed hrun
    exact ⟨v, s, rfl, hv⟩
  | error e s =>
    obtain ⟨-, -, -, hF, -⟩ := Ends.of_error hread h.backed hrun
    exact hF.elim

theorem Shows.mended {F : Prop} (h : Node.Shows F n x) : Node.Shows False n.mended x := by
  refine ⟨h.1, h.2.1, ?_⟩
  intro htrouble
  rcases htrouble with htrouble | ⟨o, ho, -⟩
  · exact Backing.untroubled _ htrouble
  · exact absurd ho List.not_mem_nil

theorem Shows.of_calm {F : Prop} (h : Node.Shows F n x) (hcalm : n.store.outages = []) :
    Node.Shows False n x := by
  have hsame : n.mended = n := by rw [Node.mended, ← hcalm]
  exact hsame ▸ h.mended

def fault? {σ α : Type} (act : NodeM σ α) (n : Node σ) : Option Error :=
  match act n with
  | .ok .. => none
  | .error e _ => some e

theorem eq_ok_of_fault? {σ α : Type} {act : NodeM σ α} {n : Node σ} (h : n.fault? act = none) :
    ∃ v, act n = .ok v (n.after act) := by
  unfold fault? at h
  unfold after
  cases he : act n with
  | ok v m => exact ⟨v, rfl⟩
  | error e m => simp [he] at h

theorem eq_error_of_fault? {σ α : Type} {act : NodeM σ α} {n : Node σ} {e : Error}
    (h : n.fault? act = some e) : act n = .error e (n.after act) := by
  unfold fault? at h
  unfold after
  cases he : act n with
  | ok v m => simp [he] at h
  | error e' m =>
    simp only [he, Option.some.injEq] at h
    rw [h]

section Sessions

variable {config : ConsensusConfig}

def started (config : ConsensusConfig) (outages : List Outage) : Backing.arena.Ledger :=
  ⟨.ofArena config {}, ⟨({} : Arena), outages⟩⟩

theorem opened_started (hc : permitted config)
    (hcap : config.maxOrphans ≠ 0) : Opened permitted (started config []) := by
  refine ⟨config, ⟨({} : Arena), []⟩, hc, rfl, ?_⟩
  exact Engine.ofStore_eq hcap rfl rfl

theorem reachable_planned (hc : permitted config) (hcap : config.maxOrphans ≠ 0)
    (outages : List Outage) : Reachable permitted (started config outages) := by
  refine ⟨started config [], opened_started hc hcap, .single ?_⟩
  exact Step.drift (n := started config []) rfl

theorem lacks_of_find? {n : Backing.arena.Ledger} {hash : Hash}
    (h : Arena.find? n.store.store hash = none) : n.Lacks hash :=
  ⟨n.store.store, congrArg (EStateM.Result.ok · n.store.store) h⟩

theorem stores_of_find? {n : Backing.arena.Ledger} {l : Link}
    (h : Arena.find? n.store.store l.hash = some l) : n.Stores l :=
  ⟨n.store.store, congrArg (EStateM.Result.ok · n.store.store) h⟩

theorem mem_of_stores {n : Backing.arena.Ledger} {l : Link} (h : n.Stores l) :
    l ∈ Arena.links n.store.store := by
  obtain ⟨s, hs⟩ := h
  have hfind : Arena.find? n.store.store l.hash = some l := (EStateM.Result.ok.inj hs).1
  exact (Arena.mem_of_find? hfind).1

theorem later_submit (n : Backing.arena.Ledger) (now : Int) (block : Block) :
    Later permitted n (n.after (submit now block)) :=
  .single (.submit now block trivial)

end Sessions

end Node

namespace Block

/-- A block that almost any nonce solves. -/
def easy (prevHash : Hash) (transactions : List Transaction) : Block where
  header := ⟨1, prevHash, Merkle.root transactions, 0, 0x2100ffff, 0⟩
  transactions := transactions

def first : Block :=
  easy .zero [.coinbase 0]

def second : Block :=
  easy first.hash [.coinbase 1]

/-- Stands on the first block, as the second does. -/
def rival : Block :=
  easy first.hash [.coinbase 2]

def third : Block :=
  easy rival.hash [.coinbase 3]

theorem writable_easy (prevHash : Hash) (tag : UInt32) :
    (easy prevHash [.coinbase tag]).Writable := by
  refine ⟨by simp [easy], ?_⟩
  simp only [easy, List.mem_singleton, forall_eq]
  constructor <;> simp [Transaction.coinbase]

end Block

theorem Link.writable_make {block : Block} {status : LinkStatus} (hblock : block.Writable)
    (hstatus : ∀ h w : Nat, status = .resolved h w → h < 2 ^ 64 ∧ w < 2 ^ 64) :
    (Link.make block status).Writable := by
  refine ⟨hblock, Nat.two_pow_pos 64, fun h w hs => ?_⟩
  obtain ⟨hh, hw⟩ := hstatus h w hs
  have hlen := Work.length_digits_le (m := 64) (n := 0) (by omega : w < 2 ^ 64 * 2 ^ 0)
  exact ⟨hh, by omega⟩

end BlockTree
