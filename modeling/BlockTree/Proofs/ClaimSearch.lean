import BlockTree.Proofs.Ascent

/-! Where the path to a link holds a transaction or claims an output. The search from the link
down to the root meets the highest such link, and the search for a claiming input from the
root up finds one just when it does. -/

namespace BlockTree

namespace Block

variable {block : Block} {txHash : Hash} {claimed : OutPoint}

def inputs (block : Block) : List TxInput :=
  block.transactions.flatMap Transaction.inputs

theorem mem_claims : claimed ∈ block.claims ↔ ∃ i ∈ block.inputs, i.claimed = claimed := by
  have hclaims : block.claims = block.inputs.map TxInput.claimed :=
    List.map_flatMap.symm
  rw [hclaims, List.mem_map]

theorem containsTransaction_iff :
    block.containsTransaction txHash ↔ ∃ tx ∈ block.transactions, tx.hash = txHash := by
  simp [containsTransaction, findTransaction?]

theorem claimerOf?_eq : block.claimerOf? claimed =
    block.inputs.find? fun i => i.claimed == claimed :=
  List.find?_flatMap.symm

end Block

namespace Path

variable {p : Path} {claimed : OutPoint} {i : TxInput}

def inputs (p : Path) : List TxInput :=
  p.blocks.flatMap Block.inputs

theorem claimerInput?_eq : p.claimerInput? claimed =
    p.inputs.find? fun i => i.claimed == claimed := by
  rw [inputs, List.find?_flatMap, claimerInput?]
  exact congrArg (List.findSome? · p.blocks) (funext fun _ => Block.claimerOf?_eq)

theorem isSome_claimerInput? : (p.claimerInput? claimed).isSome ↔
    ∃ l ∈ p.links, ∃ i ∈ l.block.inputs, i.claimed = claimed := by
  simp [claimerInput?_eq, inputs, blocks]

theorem claimerInput?_of_single (h : p.inputs.filter (fun j => j.claimed == claimed) = [i]) :
    p.claimerInput? claimed = some i := by
  rw [claimerInput?_eq, ← List.head?_filter, h]
  rfl

theorem eq_of_single (h : p.inputs.filter (fun j => j.claimed == claimed) = [i]) {l : Link}
    (hl : l ∈ p.links) {j : TxInput} (hj : j ∈ l.block.inputs) (hclaimed : j.claimed = claimed) :
    j = i := by
  have hmem : j ∈ p.inputs :=
    List.mem_flatMap.mpr ⟨l.block, List.mem_map_of_mem hl, hj⟩
  have hfilter : j ∈ p.inputs.filter fun j => j.claimed == claimed :=
    List.mem_filter.mpr ⟨hmem, by simpa using hclaimed⟩
  rw [h] at hfilter
  exact List.mem_singleton.mp hfilter

end Path

/-- A link of a path that has a property and stands above all others that have it. -/
structure Link.Topmost (l : Link) (links : List Link) (wanted : Link → Prop) : Prop where
  mem : l ∈ links
  holds : wanted l
  above : ∀ m ∈ links, wanted m → ∃ low high : Nat,
    m.height? = some low ∧ l.height? = some high ∧ low ≤ high

/-- The highest link of a path with a property is found if there is one. -/
structure Locates (links : List Link) (wanted : Link → Prop) (found? : Option Link) : Prop where
  found : ∀ l, found? = some l ↔ l.Topmost links wanted
  absent : found? = none ↔ ∀ l ∈ links, ¬ wanted l

theorem Locates.isSome_iff {links : List Link} {wanted : Link → Prop} {found? : Option Link}
    (h : Locates links wanted found?) : found?.isSome ↔ ∃ l ∈ links, wanted l := by
  rw [← Option.ne_none_iff_isSome, ne_eq, h.absent]
  simp

namespace Arena.Lineage

variable {a : Arena} {l m k : Link} {path : List Link}

theorem eq_of_height_eq (h : a.Lineage l path) (hm : m ∈ path) (hk : k ∈ path)
    (he : m.height? = k.height?) : m = k := by
  obtain ⟨i, hi⟩ := List.mem_iff_getElem?.mp (List.mem_reverse.mpr hm)
  obtain ⟨j, hj⟩ := List.mem_iff_getElem?.mp (List.mem_reverse.mpr hk)
  rw [h.height_of_getElem? hi, h.height_of_getElem? hj, Option.some.injEq] at he
  rw [he, hj] at hi
  exact (Option.some.inj hi).symm

theorem topmost_of_find? {wanted : Link → Bool} (h : a.Lineage l path)
    (hm : path.find? wanted = some m) : m.Topmost path (wanted · = true) := by
  obtain ⟨hwanted, upper, rest, he, hupper⟩ := List.find?_eq_some_iff_append.mp hm
  have hbelow := h.suffix he
  obtain ⟨high, w, hs⟩ := Link.isResolved_iff.mp hbelow.isResolved
  refine ⟨he ▸ List.mem_append_right _ List.mem_cons_self, hwanted, fun k hk hkw => ?_⟩
  rw [he, List.mem_append] at hk
  have hk : k ∈ m :: rest := hk.resolve_left fun hk => by simpa [hkw] using hupper k hk
  obtain ⟨low, v, hks, hle⟩ := hbelow.height_le hs k hk
  exact ⟨low, high, by simp [Link.height?, LinkStatus.height?, hks],
    by simp [Link.height?, LinkStatus.height?, hs], hle⟩

theorem locates {wanted : Link → Bool} {property : Link → Prop} (h : a.Lineage l path)
    (hiff : ∀ m, wanted m ↔ property m) :
    Locates path.reverse property (path.find? wanted) := by
  obtain rfl : (wanted · = true) = property := funext fun m => propext (hiff m)
  have hreverse {m : Link} : m.Topmost path.reverse (wanted · = true) ↔
      m.Topmost path (wanted · = true) := by
    constructor
    · intro ht
      exact ⟨List.mem_reverse.mp ht.mem, ht.holds,
        fun k hk => ht.above k (List.mem_reverse.mpr hk)⟩
    · intro ht
      exact ⟨List.mem_reverse.mpr ht.mem, ht.holds,
        fun k hk => ht.above k (List.mem_reverse.mp hk)⟩
  refine ⟨fun m => ⟨fun hm => hreverse.mpr (h.topmost_of_find? hm), fun hm => ?_⟩, ?_⟩
  · have ht := hreverse.mp hm
    cases hf : path.find? wanted with
    | none => exact absurd ht.holds (List.find?_eq_none.mp hf m ht.mem)
    | some k =>
      -- each of the two stands above the other, and a path has one link at each height
      have hk := h.topmost_of_find? hf
      obtain ⟨low, high, hlow, hhigh, hle⟩ := hk.above m ht.mem ht.holds
      obtain ⟨low', high', hlow', hhigh', hle'⟩ := ht.above k hk.mem hk.holds
      rw [hhigh, Option.some.injEq] at hlow'
      rw [hlow, Option.some.injEq] at hhigh'
      have hsame : k.height? = m.height? := by
        rw [hhigh, hlow, Nat.le_antisymm hle (by omega)]
      rw [h.eq_of_height_eq hk.mem ht.mem hsame]
  · simp

end Arena.Lineage

namespace Node

variable {b : Backing} {permitted : ConsensusConfig → Prop} {n m : b.Ledger} {x : Node Arena}
  {l : Link} {path : List Link} {p : Path}

/-- What the store tells of a link: its path, the link below it with the transaction that an
input claims, and the link below it that claims the same output. -/
structure Finds (n : b.Ledger) (l : Link) (input : TxInput) (p : Path)
    (claimed? claimer? : Option Link) : Prop where
  path : ∃ s, Path.toTip l.hash n.store.store = .ok p s
  claimed : ∃ s, claimedLink l input n.store.store = .ok claimed? s
  claimer : ∃ s, claimerLink l input n.store.store = .ok claimer? s

theorem Mirrors.finds (h : Mirrors permitted n x) (hpath : x.store.Lineage l path)
    (hp : p.links = path.reverse) (input : TxInput) :
    n.Finds l input p
      (path.find? fun m => m.block.containsTransaction input.claimed.txHash)
      (path.find? fun m => (m.block.claimerOf? input.claimed).isSome) := by
  have hsound := h.sound.arena
  obtain ⟨q, s, hq, hlinks⟩ := h.shows.exists_read (hsound.reads_toTip hpath)
  have hreads (wanted : Link → Bool) : BlockTree.Reads (σ := b.Contents) False
      (firstOnBranch wanted l) x.store (· = path.find? wanted) :=
    hsound.reads_firstOnBranch hpath
  obtain ⟨_, t, hclaimed, rfl⟩ := h.shows.exists_read
    (hreads fun m => m.block.containsTransaction input.claimed.txHash)
  obtain ⟨_, u, hclaimer, rfl⟩ := h.shows.exists_read
    (hreads fun m => (m.block.claimerOf? input.claimed).isSome)
  exact ⟨⟨s, Path.eq_of_links (hlinks.trans hp.symm) ▸ hq⟩, ⟨t, hclaimed⟩, ⟨u, hclaimer⟩⟩

/-- A link is asked about its own path alone, so that what is stored later, on any branch,
changes none of the answers. -/
theorem claims_of_reachable (h : Reachable permitted n) (hl : n.Stores l) (hr : l.isResolved)
    (input : TxInput) :
    ∃ p claimed? claimer?, n.Finds l input p claimed? claimer? ∧
      Locates p.links (fun m => ∃ tx ∈ m.block.transactions, tx.hash = input.claimed.txHash)
        claimed? ∧
      Locates p.links (fun m => ∃ i ∈ m.block.inputs, i.claimed = input.claimed) claimer? ∧
      (claimer?.isSome ↔ (p.claimerInput? input.claimed).isSome) ∧
      (∀ i, p.inputs.filter (fun j => j.claimed == input.claimed) = [i] →
        p.claimerInput? input.claimed = some i ∧
          ∃ claimer, claimer? = some claimer ∧ i ∈ claimer.block.inputs) ∧
      ∀ m, Later permitted n m → m.Finds l input p claimed? claimer? := by
  obtain ⟨x, hx⟩ := h.exists_mirror
  have hsound := hx.sound.arena
  have hstored : l ∈ x.store.links := (hx.shows.stores hsound).mp hl
  obtain ⟨path, hpath⟩ := hsound.chained.exists_lineage hstored hr
  obtain ⟨p, s, -, hp⟩ := hx.shows.exists_read (hsound.reads_toTip hpath)
  have hclaimed : Locates p.links
      (fun m => ∃ tx ∈ m.block.transactions, tx.hash = input.claimed.txHash)
      (path.find? fun m => m.block.containsTransaction input.claimed.txHash) :=
    hp ▸ hpath.locates fun _ => Block.containsTransaction_iff
  have hclaimer : Locates p.links (fun m => ∃ i ∈ m.block.inputs, i.claimed = input.claimed)
      (path.find? fun m => (m.block.claimerOf? input.claimed).isSome) :=
    hp ▸ hpath.locates fun _ => Block.isSome_claimerOf?.trans Block.mem_claims
  refine ⟨p, _, _, hx.finds hpath hp input, hclaimed, hclaimer, ?_, ?_, ?_⟩
  · rw [hclaimer.isSome_iff, Path.isSome_claimerInput?]
  · intro i hi
    have hinput := Path.claimerInput?_of_single hi
    refine ⟨hinput, ?_⟩
    have hsome := hclaimer.isSome_iff.mpr (Path.isSome_claimerInput?.mp (by simp [hinput]))
    obtain ⟨claimer, hfound⟩ := Option.isSome_iff_exists.mp hsome
    have htop := (hclaimer.found claimer).mp hfound
    obtain ⟨j, hj, hsame⟩ := htop.holds
    exact ⟨claimer, hfound, Path.eq_of_single hi htop.mem hj hsame ▸ hj⟩
  · intro m hlater
    obtain ⟨y, hy, hpath'⟩ := hx.later_lineage hpath hlater
    exact hy.finds hpath' hp input

/-- Claims the output of the first block once more. -/
def reclaim : TxInput where
  claimed := ⟨(Transaction.coinbase 0).hash, 0⟩
  scriptSig := []

/-- The second of two blocks is asked before and after a third one claims what it claims. -/
theorem claims_spent : ∃ p claimed? claimer?,
    spent.Finds spendingLink reclaim p claimed? claimer? ∧
    (claimer?.isSome ↔ (p.claimerInput? reclaim.claimed).isSome) ∧
    respent.Finds spendingLink reclaim p claimed? claimer? := by
  have hstored : spent.Stores spendingLink := stores_of_find? spent_computed.2.2.2
  obtain ⟨p, claimed?, claimer?, hfinds, -, -, hagree, -, hlater⟩ :=
    claims_of_reachable reachable_spent hstored rfl reclaim
  exact ⟨p, claimed?, claimer?, hfinds, hagree, hlater respent later_respent⟩

end Node

end BlockTree
