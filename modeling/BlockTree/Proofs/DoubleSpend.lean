import BlockTree.Proofs.Observation
import BlockTree.Proofs.SpendCheck

/-! Claims along a branch all of whose blocks had their spends accepted. The check lets a
transaction claim an output of its own block without a look at the branch, and that is
the only way in which an output is claimed twice. -/

namespace BlockTree

/-- No transaction claims an output of its own block that an earlier block has claimed. -/
def NoReclaims (blocks : List Block) : Prop :=
  ∀ before block after, blocks = before ++ block :: after →
    ∀ p ∈ block.inward, p ∉ before.flatMap Block.claims

theorem Block.inwardFrom_subset (seen : List Hash) (txs : List Transaction) :
    inwardFrom seen txs ⊆ txs.flatMap Transaction.claims := by
  induction txs generalizing seen with
  | nil => exact List.Subset.refl _
  | cons tx txs ih =>
    intro p hp
    rw [inwardFrom, List.mem_append] at hp
    rw [List.flatMap_cons, List.mem_append]
    exact hp.imp List.mem_of_mem_filter fun hp => ih _ hp

theorem NoReclaims.of_append {blocks more : List Block} (h : NoReclaims (blocks ++ more)) :
    NoReclaims blocks := by
  intro before block after he
  exact h before block (after ++ more) (by simp [he])

theorem NoReclaims.of_nodup {blocks : List Block} (h : (blocks.flatMap Block.claims).Nodup) :
    NoReclaims blocks := by
  intro before block after he p hp hbefore
  rw [he, List.flatMap_append, List.flatMap_cons, List.nodup_append] at h
  have hclaims : p ∈ block.claims := Block.inwardFrom_subset [] block.transactions hp
  exact h.2.2 p hbefore p (List.mem_append_left _ hclaims) rfl

variable {a c : Arena} {l : Link} {path : List Link} {block : Block}

theorem Spending.Accepted.mono (h : Accepted a block path)
    (hkeep : ∀ m ∈ a.links, m.isResolved → m ∈ c.links) : Accepted c block path := by
  refine ⟨⟨h.below.root, fun hz => ?_⟩, h.nodup, h.free⟩
  obtain ⟨p, hp, hhash, hpath⟩ := h.below.parent hz
  exact ⟨p, hkeep p hp hpath.isResolved, hhash,
    hpath.mono fun m hm => hkeep m (hpath.subset m hm).1 (hpath.subset m hm).2⟩

/-- Each block adds claims that are new, for those that reach back were looked up on the
branch and those that do not are excluded. -/
theorem Arena.Lineage.nodup_claims (ha : a.Sound) (h : a.Lineage l path)
    (haccepted : ∀ m ∈ path, ∃ below, Spending.Accepted a m.block below)
    (hre : NoReclaims (path.map Link.block).reverse) :
    ((path.map Link.block).reverse.flatMap Block.claims).Nodup := by
  induction h with
  | @root l hl hz hs =>
    obtain ⟨below, hl⟩ := haccepted l (by simp)
    simpa using hl.nodup
  | @child l p path hl hz habove hpath ih =>
    obtain ⟨below, hblock⟩ := haccepted l (by simp)
    obtain ⟨p', hp', hhash, hbelow⟩ := hblock.below.parent hz
    have hsame : p' = p := ha.ordered.eq_of_hash hp' hpath.mem_links
      (hhash.trans habove.hash_eq.symm)
    rw [hsame] at hbelow
    have hpaths : path = below := hpath.unique ha.ordered hbelow
    rw [List.map_cons, List.reverse_cons] at hre ⊢
    have hrest := ih (fun m hm => haccepted m (by simp [hm])) hre.of_append
    rw [List.flatMap_append, List.nodup_append]
    refine ⟨hrest, by simpa using hblock.nodup, ?_⟩
    intro q hq r hr he
    subst he
    have hr : q ∈ l.block.claims := by simpa using hr
    by_cases hinward : q ∈ l.block.inward
    · exact hre _ l.block [] (by simp) q hinward hq
    · obtain ⟨earlier, hmem, hclaims⟩ := List.mem_flatMap.mp hq
      obtain ⟨m, hm, hmb⟩ := List.mem_map.mp (List.mem_reverse.mp hmem)
      rw [hpaths] at hm
      exact hblock.free q hr hinward m hm (hmb ▸ hclaims)

def Path.claims (p : Path) : List OutPoint :=
  p.blocks.flatMap Block.claims

namespace Node

variable {b : Backing} {permitted : ConsensusConfig → Prop} {n m : b.Ledger} {x y : Node Arena}

/-- The spends of a block were accepted on the branch of its parent at some time. -/
def Vetted (permitted : ConsensusConfig → Prop) (n : b.Ledger) (block : Block) : Prop :=
  ∃ (m : b.Ledger) (verify : Spending.Verifier) (s : Unreliable b.Contents),
    Reachable permitted m ∧ Later permitted m n ∧ checkSpends verify block m.store = .ok () s

theorem Vetted.later (h : Vetted permitted n block) (hlater : Later permitted n m) :
    Vetted permitted m block := by
  obtain ⟨k, verify, s, hk, hkn, hcheck⟩ := h
  exact ⟨k, verify, s, hk, hkn.trans hlater, hcheck⟩

theorem Vetted.accepted (h : Vetted permitted n block) (hy : Mirrors permitted n y) :
    ∃ path, Spending.Accepted y.store block path := by
  obtain ⟨m, verify, s, hm, hlater, hcheck⟩ := h
  obtain ⟨x, hx⟩ := hm.exists_mirror
  obtain ⟨path, haccepted⟩ :=
    Spending.accepted_of_checkSpends hx.sound.arena hx.shows.2 hcheck
  obtain ⟨z, hz, hkeeps⟩ := Later.exists_mirror hlater hx
  refine ⟨path, haccepted.mono fun l hl hr => ?_⟩
  have hstored : n.Stores l := (hz.shows.stores hz.sound.arena).mpr (hkeeps l hl hr)
  exact (hy.shows.stores hy.sound.arena).mp hstored

/-- If the spends of all resolved blocks were accepted, no output is claimed twice on the
path to a resolved link, unless it was funded again in the block that claims it. -/
theorem nodup_claims_iff_of_reachable (h : Reachable permitted n)
    (hvetted : ∀ l, n.Stores l → l.isResolved → Vetted permitted n l.block)
    (hl : n.Stores l) (hr : l.isResolved) :
    ∃ p s, Path.toLink l n.store.store = .ok p s ∧ p.links.getLast? = some l ∧
      (p.claims.Nodup ↔ NoReclaims p.blocks) := by
  obtain ⟨y, hy⟩ := h.exists_mirror
  have hstores : ∀ {l : Link}, n.Stores l ↔ l ∈ y.store.links := hy.shows.stores hy.sound.arena
  obtain ⟨path, hpath⟩ := hy.sound.arena.chained.exists_lineage (hstores.mp hl) hr
  have hread := hy.sound.arena.reads_toLink (σ := b.Contents) (F := False) hpath
  have hback : Backed False n.store.store y.store :=
    ⟨hy.shows.2.1, fun ht => Backing.untroubled _ ht⟩
  cases hrun : Path.toLink l n.store.store with
  | error e s =>
    obtain ⟨-, -, -, hF, -⟩ := Ends.of_error hread hback hrun
    exact hF.elim
  | ok p s =>
    obtain ⟨-, -, -, hlinks⟩ := Ends.of_ok hread hback hrun
    have hblocks : p.blocks = (path.map Link.block).reverse := by
      rw [Path.blocks, hlinks, List.map_reverse]
    refine ⟨p, s, rfl, ?_, ?_, ?_⟩
    · obtain ⟨rest, hhead⟩ := hpath.head_eq
      simp [hlinks, hhead]
    · intro hnodup
      exact .of_nodup hnodup
    · intro hre
      rw [Path.claims, hblocks]
      rw [hblocks] at hre
      refine hpath.nodup_claims hy.sound.arena (fun m hm => ?_) hre
      obtain ⟨hmem, hresolved⟩ := hpath.subset m hm
      exact (hvetted m (hstores.mpr hmem) hresolved).accepted hy

def permits (n : Backing.arena.Ledger) (block : Block) : Bool :=
  match checkSpends (fun _ _ => true) block n.store with
  | .ok .. => true
  | .error .. => false

theorem vetted_of_permits {n m : Backing.arena.Ledger} (hm : Reachable permitted m)
    (hlater : Later permitted m n) (h : m.permits block = true) : Vetted permitted n block := by
  unfold permits at h
  cases hcheck : checkSpends (fun _ _ => true) block m.store with
  | error e s => simp [hcheck] at h
  | ok u s => exact ⟨m, fun _ _ => true, s, hm, hlater, hcheck⟩

/-- Claims the output of the first block. -/
def spendingBlock : Block :=
  .easy Block.first.hash [.spending (.coinbase 0) 0]

/-- Mints that output again, and claims it again. -/
def respendingBlock : Block :=
  .easy spendingBlock.hash [.coinbase 0, .spending (.coinbase 0) 0]

def unspent : Backing.arena.Ledger :=
  (started {} []).after (submit 0 .first)

def spent : Backing.arena.Ledger :=
  unspent.after (submit 0 spendingBlock)

def respent : Backing.arena.Ledger :=
  spent.after (submit 0 respendingBlock)

theorem reachable_started : Reachable (fun _ => True) (started {} []) :=
  reachable_planned trivial (by decide) []

theorem later_unspent : Later (fun _ => True) (started {} []) unspent :=
  later_submit _ 0 .first

theorem later_spent : Later (fun _ => True) unspent spent :=
  later_submit unspent 0 spendingBlock

theorem later_respent : Later (fun _ => True) spent respent :=
  later_submit spent 0 respendingBlock

theorem reachable_unspent : Reachable (fun _ => True) unspent :=
  reachable_started.later later_unspent

theorem reachable_spent : Reachable (fun _ => True) spent :=
  reachable_unspent.later later_spent

def spendingLink : Link where
  hash := spendingBlock.hash
  block := spendingBlock
  status := .resolved 1 1
  seq := 1

def respendingLink : Link where
  hash := respendingBlock.hash
  block := respendingBlock
  status := .resolved 2 2
  seq := 2

-- What is computed about one node is one theorem, since each computation starts anew.
theorem spent_computed : (started {} []).permits .first = true ∧
    unspent.permits spendingBlock = true ∧
    (Arena.links spent.store.store).map Link.block = [.first, spendingBlock] ∧
    Arena.find? spent.store.store spendingLink.hash = some spendingLink := by
  decide +kernel

theorem vetted_first : Vetted (fun _ => True) spent .first :=
  (vetted_of_permits reachable_started later_unspent spent_computed.1).later later_spent

theorem vetted_spendingBlock : Vetted (fun _ => True) spent spendingBlock :=
  vetted_of_permits reachable_unspent later_spent spent_computed.2.1

theorem nodup_claims_iff_spent : spent.Stores spendingLink ∧
    ∃ p s, Path.toLink spendingLink spent.store.store = .ok p s ∧
      p.links.getLast? = some spendingLink ∧ (p.claims.Nodup ↔ NoReclaims p.blocks) := by
  obtain ⟨-, -, hblocks, hfind⟩ := spent_computed
  have hvetted : ∀ l, spent.Stores l → l.isResolved → Vetted (fun _ => True) spent l.block := by
    intro l hl _
    have hmem := List.mem_map_of_mem (f := Link.block) (mem_of_stores hl)
    rw [hblocks, List.mem_cons, List.mem_singleton] at hmem
    rcases hmem with he | he
    · exact he ▸ vetted_first
    · exact he ▸ vetted_spendingBlock
  have hstored : spent.Stores spendingLink := stores_of_find? hfind
  exact ⟨hstored, nodup_claims_iff_of_reachable reachable_spent hvetted hstored rfl⟩

theorem respent_computed : spent.permits respendingBlock = true ∧
    (Arena.links respent.store.store).map Link.block =
      [.first, spendingBlock, respendingBlock] ∧
    Arena.find? respent.store.store respendingLink.hash = some respendingLink ∧
    (said (Path.toLink respendingLink respent.store.store)).map Path.claims =
      .ok [⟨(Transaction.coinbase 0).hash, 0⟩, ⟨(Transaction.coinbase 0).hash, 0⟩] := by
  decide +kernel

/-- An output is claimed by two blocks of one branch, though the spends of each were
accepted right before it was handed in. -/
theorem not_nodup_claims_respent :
    ¬ ∀ (n : Backing.arena.Ledger) (l : Link), Reachable (fun _ => True) n →
      (∀ l, n.Stores l → l.isResolved → Vetted (fun _ => True) n l.block) →
      n.Stores l → l.isResolved →
      ∀ p s, Path.toLink l n.store.store = .ok p s → p.claims.Nodup := by
  intro h
  obtain ⟨hpermits, hblocks, hfind, hclaims⟩ := respent_computed
  have hvetted : ∀ l, respent.Stores l → l.isResolved →
      Vetted (fun _ => True) respent l.block := by
    intro l hl _
    have hmem := List.mem_map_of_mem (f := Link.block) (mem_of_stores hl)
    rw [hblocks, List.mem_cons, List.mem_cons, List.mem_singleton] at hmem
    rcases hmem with he | he | he
    · exact he ▸ vetted_first.later later_respent
    · exact he ▸ vetted_spendingBlock.later later_respent
    · exact he ▸ vetted_of_permits reachable_spent later_respent hpermits
  have hreachable : Reachable (fun _ => True) respent := reachable_spent.later later_respent
  have hstored : respent.Stores respendingLink := stores_of_find? hfind
  obtain ⟨p, hrun, hp⟩ := exists_of_map_said hclaims
  have hnodup := h respent respendingLink hreachable hvetted hstored rfl p _ hrun
  rw [hp] at hnodup
  exact (List.nodup_cons.mp hnodup).1 List.mem_cons_self

end Node

end BlockTree
