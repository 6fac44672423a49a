import BlockTree.Proofs.ClaimSearch

/-! Where the inputs of a block get what they claim. The check of its spends accepts a block
just when each input names an output, of an earlier transaction of the block or of one on its
branch, that nothing else claims and that the verifier grants. -/

namespace BlockTree

namespace Spending

variable {verify : Verifier} {head? : Option Link} {path : List Link} {block : Block}
  {txHash : Hash} {tx : Transaction}

/-- Where a transaction with a hash is found: earlier in the block, or if none there has it,
in the highest block of the branch with one. -/
inductive Funds (links : List Link) (before : List Transaction) (txHash : Hash)
    (tx : Transaction) : Prop
  | within (hmem : tx ∈ before) (hhash : tx.hash = txHash)
  | below (hnone : ∀ t ∈ before, t.hash ≠ txHash) {l : Link}
      (hl : l.Topmost links fun m => ∃ t ∈ m.block.transactions, t.hash = txHash)
      (hmem : tx ∈ l.block.transactions) (hhash : tx.hash = txHash)

/-- No output is claimed twice in the block, and each input claims one of a transaction that
funds it and is granted that output. -/
structure Sourced (verify : Verifier) (links : List Link) (block : Block) : Prop where
  nodup : block.claims.Nodup
  funded : ∀ before tx after, block.transactions = before ++ tx :: after →
    ∀ input ∈ tx.inputs, ∃ source output, Funds links before input.claimed.txHash source ∧
      source.outputs[input.claimed.index.toNat]? = some output ∧ verify input output

/-- What the block claims of transactions on the branch, no block there claims. -/
def Unspent (links : List Link) (block : Block) : Prop :=
  ∀ before tx after, block.transactions = before ++ tx :: after →
    ∀ input ∈ tx.inputs, (∀ t ∈ before, t.hash ≠ input.claimed.txHash) →
      ∀ l ∈ links, input.claimed ∉ l.block.claims

/-- Transactions of the blocks that have the same hash are the same. -/
def Unambiguous (blocks : List Block) : Prop :=
  ∀ t ∈ blocks.flatMap Block.transactions, ∀ u ∈ blocks.flatMap Block.transactions,
    t.hash = u.hash → t = u

section Sources

variable {a : Arena} {before : List Transaction} (hpath : Branch a head? path)

theorem find?_hash {txs : List Transaction} (htx : tx ∈ txs)
    (hsame : ∀ t ∈ txs, t.hash = tx.hash → t = tx) :
    txs.find? (fun t => t.hash == tx.hash) = some tx := by
  cases hf : txs.find? fun t => t.hash == tx.hash with
  | none => simpa using List.find?_eq_none.mp hf tx htx
  | some t => rw [hsame t (List.mem_of_find?_eq_some hf) (by simpa using List.find?_some hf)]

theorem find?_reverse_eq_none :
    (before.reverse.find? fun t => t.hash == txHash) = none ↔ ∀ t ∈ before, t.hash ≠ txHash := by
  simp

include hpath

theorem Branch.locates (txHash : Hash) :
    Locates path.reverse (fun m => ∃ t ∈ m.block.transactions, t.hash = txHash)
      (path.find? fun m => m.block.containsTransaction txHash) := by
  cases head? with
  | none =>
    obtain rfl : path = [] := hpath
    refine ⟨fun l => ⟨fun h => (Option.some_ne_none l h.symm).elim, fun h => ?_⟩, by simp⟩
    exact (List.not_mem_nil h.mem).elim
  | some head => exact Arena.Lineage.locates hpath fun _ => Block.containsTransaction_iff

theorem funds_of_source? (h : source? path before.reverse txHash = some tx) :
    Funds path.reverse before txHash tx := by
  rcases Option.or_eq_some_iff.mp h with hwithin | ⟨hnone, hbelow⟩
  · exact .within (List.mem_reverse.mp (List.mem_of_find?_eq_some hwithin))
      (by simpa using List.find?_some hwithin)
  · obtain ⟨l, hl, hfind⟩ := Option.bind_eq_some_iff.mp hbelow
    exact .below (find?_reverse_eq_none.mp hnone) (((hpath.locates txHash).found l).mp hl)
      (List.mem_of_find?_eq_some hfind) (by simpa using List.find?_some hfind)

theorem source?_of_funds (h : Funds path.reverse before txHash tx)
    (hsubset : before ⊆ block.transactions)
    (hone : Unambiguous (block :: path.reverse.map Link.block)) :
    source? path before.reverse txHash = some tx := by
  have hown {t : Transaction} (ht : t ∈ before) :
      t ∈ (block :: path.reverse.map Link.block).flatMap Block.transactions :=
    List.mem_flatMap.mpr ⟨block, List.mem_cons_self, hsubset ht⟩
  have hbranch {l : Link} (hl : l ∈ path.reverse) {t : Transaction}
      (ht : t ∈ l.block.transactions) :
      t ∈ (block :: path.reverse.map Link.block).flatMap Block.transactions :=
    List.mem_flatMap.mpr ⟨l.block, List.mem_cons_of_mem _ (List.mem_map_of_mem hl), ht⟩
  cases h with
  | within hmem hhash =>
    subst hhash
    have hfind := find?_hash (List.mem_reverse.mpr hmem) fun t ht =>
      hone t (hown (List.mem_reverse.mp ht)) tx (hown hmem)
    rw [source?, hfind, Option.some_or]
  | below hnone hl hmem hhash =>
    subst hhash
    have hfind := find?_hash hmem fun t ht => hone t (hbranch hl.mem ht) tx (hbranch hl.mem hmem)
    rw [source?, find?_reverse_eq_none.mpr hnone, Option.none_or, onBranch?,
      ((hpath.locates tx.hash).found _).mpr hl, Option.bind_some]
    exact hfind

theorem sourced_of_covered (hnodup : block.claims.Nodup)
    (hcovered : CoveredFrom verify path [] block.transactions) :
    Sourced verify path.reverse block ∧ Unspent path.reverse block := by
  refine ⟨⟨hnodup, fun before tx after he input hinput => ?_⟩, ?_⟩
  · obtain ⟨output, hoffers, hverify⟩ := hcovered before tx after he input hinput
    obtain ⟨source, hsource, houtput⟩ := Option.bind_eq_some_iff.mp hoffers.output_eq
    rw [List.append_nil] at hsource
    exact ⟨source, output, funds_of_source? hpath hsource, houtput, hverify⟩
  · intro before tx after he input hinput hnone l hl
    obtain ⟨output, hoffers, -⟩ := hcovered before tx after he input hinput
    rw [List.append_nil] at hoffers
    exact hoffers.free (find?_reverse_eq_none.mpr hnone) l (List.mem_reverse.mp hl)

theorem covered_of_sourced (hone : Unambiguous (block :: path.reverse.map Link.block))
    (hsourced : Sourced verify path.reverse block) (hunspent : Unspent path.reverse block) :
    CoveredFrom verify path [] block.transactions := by
  intro before tx after he input hinput
  have hsubset : before ⊆ block.transactions := he ▸ List.subset_append_left _ _
  obtain ⟨source, output, hfunds, houtput, hverify⟩ :=
    hsourced.funded before tx after he input hinput
  have hsource := source?_of_funds hpath hfunds hsubset hone
  rw [List.append_nil]
  refine ⟨output, ⟨?_, fun hnone l hl => ?_⟩, hverify⟩
  · rw [hsource, Option.bind_some, outputOf?, houtput]
  · exact hunspent before tx after he input hinput (find?_reverse_eq_none.mp hnone) l
      (List.mem_reverse.mpr hl)

end Sources

end Spending

namespace Node

open Spending

variable {b : Backing} {permitted : ConsensusConfig → Prop} {n : b.Ledger} {x : Node Arena}
  {verify : Verifier} {block : Block} {head? : Option Link} {path : List Link}

/-- What the check of a block's spends comes to, on a branch with these links. -/
structure Judges (n : b.Ledger) (verify : Verifier) (block : Block) (links : List Link) :
    Prop where
  sound : ∀ s, checkSpends verify block n.store.store = .ok () s →
    Sourced verify links block ∧ Unspent links block
  complete : Unambiguous (block :: links.map Link.block) → Sourced verify links block →
    Unspent links block → ∃ s, checkSpends verify block n.store.store = .ok () s

theorem Mirrors.judges (h : Mirrors permitted n x) (hpath : Branch x.store head? path)
    (hhead : BlockTree.Reads (σ := b.Contents) False (branchHead block) x.store (· = head?)) :
    n.Judges verify block path.reverse := by
  have hsolves : Solves (σ := b.Contents) False (checkSpends verify block) x.store fun _ =>
      block.claims.Nodup ∧ CoveredFrom verify path [] block.transactions :=
    solves_checkSpends h.sound.arena hpath hhead
  constructor
  · intro s hrun
    obtain ⟨-, -, -, hnodup, hcovered⟩ := Ends.of_ok hsolves h.shows.backed hrun
    exact sourced_of_covered hpath hnodup hcovered
  · intro hone hsourced hunspent
    cases hrun : checkSpends verify block n.store.store with
    | ok v s => exact ⟨s, rfl⟩
    | error e s =>
      obtain ⟨-, -, -, hbad⟩ := Ends.of_error hsolves h.shows.backed hrun
      have hcovered := covered_of_sourced hpath hone hsourced hunspent
      exact (hbad.resolve_left id () ⟨hsourced.nodup, hcovered⟩).elim

/-- A block is judged by the branch of its parent, of which a root has none, and refused
whatever it claims if that parent is an orphan or not stored. -/
theorem spends_of_reachable (h : Reachable permitted n) (verify : Verifier) (block : Block) :
    (block.prevHash.isZero → n.Judges verify block []) ∧
    (block.prevHash.isZero = false →
      (∀ parent, n.Stores parent → parent.hash = block.prevHash → parent.isResolved →
        ∃ p s, Path.toTip block.prevHash n.store.store = .ok p s ∧
          n.Judges verify block p.links) ∧
      (∀ parent, n.Stores parent → parent.hash = block.prevHash → parent.isOrphan →
        ∃ s, checkSpends verify block n.store.store =
          .error (.notFound (.resolvedParent block.prevHash)) s) ∧
      (n.Lacks block.prevHash → ∃ s, checkSpends verify block n.store.store =
        .error (.notFound (.parent block.prevHash)) s)) := by
  obtain ⟨x, hx⟩ := h.exists_mirror
  have hsound := hx.sound.arena
  have hstores {l : Link} : n.Stores l ↔ l ∈ x.store.links := hx.shows.stores hsound
  refine ⟨fun hz => ?_, fun hz => ⟨?_, ?_, ?_⟩⟩
  · have hroot : Branch x.store none [] := rfl
    exact hx.judges hroot (reads_branchHead_root hz)
  · intro parent hp hhash hr
    obtain ⟨path, hpath⟩ := hsound.chained.exists_lineage (hstores.mp hp) hr
    obtain ⟨p, s, hrun, hlinks⟩ := hx.shows.exists_read (hsound.reads_toTip hpath)
    have hbranch : Branch x.store (some parent) path := hpath
    refine ⟨p, s, hhash ▸ hrun, ?_⟩
    rw [hlinks]
    exact hx.judges hbranch (reads_branchHead_parent hsound (hstores.mp hp) hhash hz hr)
  · intro parent hp hhash ho
    exact hx.shows.exists_refusal
      (refuses_branchHead_orphan hsound (hstores.mp hp) hhash hz ho).bind
  · intro hlacks
    exact hx.shows.exists_refusal
      (refuses_branchHead_lacking hsound hz ((hx.shows.lacks hsound).mp hlacks)).bind

theorem unspent_computed :
    Arena.find? unspent.store.store (Link.genesis .first).hash = some (.genesis .first) ∧
    Arena.find? unspent.store.store spendingBlock.hash = none ∧
    (match checkSpends (fun _ _ => true) spendingBlock unspent.store.store with
      | .ok .. => true
      | .error .. => false) = true := by
  decide +kernel

/-- The output of the first block is there for the second, and a third one has no parent yet. -/
theorem spends_unspent :
    (∃ p s, Path.toTip spendingBlock.prevHash unspent.store.store = .ok p s ∧
      Sourced (fun _ _ => true) p.links spendingBlock) ∧
    ∃ s, checkSpends (fun _ _ => true) respendingBlock unspent.store.store =
      .error (.notFound (.parent spendingBlock.hash)) s := by
  obtain ⟨hfirst, hlacks, haccepts⟩ := unspent_computed
  obtain ⟨-, hspending⟩ := spends_of_reachable reachable_unspent (fun _ _ => true) spendingBlock
  obtain ⟨-, hrespending⟩ := spends_of_reachable reachable_unspent (fun _ _ => true) respendingBlock
  constructor
  · obtain ⟨p, s, hpath, hjudges⟩ :=
      (hspending (by decide +kernel)).1 (.genesis .first) (stores_of_find? hfirst) rfl rfl
    refine ⟨p, s, hpath, ?_⟩
    cases hrun : checkSpends (fun _ _ => true) spendingBlock unspent.store.store with
    | ok v s => exact (hjudges.sound s hrun).1
    | error e s => simp [hrun] at haccepts
  · exact (hrespending (by decide +kernel)).2.2 (lacks_of_find? hlacks)

end Node

end BlockTree
