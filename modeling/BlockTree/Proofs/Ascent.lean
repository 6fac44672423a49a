import BlockTree.Proofs.DoubleSpend
import BlockTree.Proofs.FirstChange
import Mathlib.Data.List.Chain

/-! The path to a resolved link, as a store tells it. Each link on it stands at the place of
its height, upon the one before it, and whatever comes in later leaves the path alone. -/

namespace BlockTree

namespace Arena.Lineage

variable {a : Arena} {l m below : Link} {path : List Link} {i : Nat}

theorem isChain (h : a.Lineage l path) : path.IsChain Link.Above := by
  induction h with
  | root => exact .singleton _
  | child hl hz habove hpath ih =>
    obtain ⟨rest, rfl⟩ := hpath.head_eq
    exact .cons_cons habove ih

theorem above_of_getElem? (h : a.Lineage l path) (hbelow : path.reverse[i]? = some below)
    (hm : path.reverse[i + 1]? = some m) : m.Above below := by
  obtain ⟨hlt, rfl⟩ := List.getElem?_eq_some_iff.mp hm
  obtain ⟨-, rfl⟩ := List.getElem?_eq_some_iff.mp hbelow
  exact List.isChain_iff_getElem.mp (List.isChain_reverse.mpr h.isChain) i hlt

/-- The genesis link comes first, and from each place to the next the height grows by one. -/
theorem height_of_getElem? (h : a.Lineage l path) (hm : path.reverse[i]? = some m) :
    m.height? = some i := by
  induction i generalizing m with
  | zero =>
    rw [← List.head?_eq_getElem?, List.head?_reverse,
      List.getLast?_eq_some_getLast h.ne_nil] at hm
    obtain rfl := Option.some.inj hm
    simpa [Link.isGenesis] using h.isGenesis_getLast h.ne_nil
  | succ i ih =>
    obtain ⟨hlt, -⟩ := List.getElem?_eq_some_iff.mp hm
    have hbelow := List.getElem?_eq_getElem (Nat.lt_of_succ_lt hlt)
    have hheight := ih hbelow
    obtain ⟨n, w, own, hs, -, hs'⟩ := (h.above_of_getElem? hbelow hm).status_eq
    simp only [Link.height?, LinkStatus.height?, hs, Option.some.injEq] at hheight
    simp [Link.height?, LinkStatus.height?, hs', hheight]

end Arena.Lineage

namespace Path

/-- The path to a tip at some height, with one link at each height up to it. -/
structure Reaches (p : Path) (tip : Link) (height : Nat) : Prop where
  length_eq : p.links.length = height + 1
  tip_eq : p.tip = tip
  height_eq : ∀ (i : Nat) (l : Link), p.links[i]? = some l → l.height? = some i
  parent_eq : ∀ (i : Nat) (below l : Link), p.links[i]? = some below →
    p.links[i + 1]? = some l → l.parentHash = below.hash
  isSome_blockAt? : ∀ i, (p.blockAt? i).isSome ↔ i ≤ height
  blockAt?_iff : ∀ i block, p.blockAt? i = some block ↔
    ∃ l ∈ p.links, l.height? = some i ∧ l.block = block
  link?_iff : ∀ hash l, p.link? hash = some l ↔
    l.hash = hash ∧ ∃ i : Nat, l.height? = some i ∧ p.links[i]? = some l
  contains_iff : ∀ hash, p.contains hash ↔ ∃ l ∈ p.links, l.hash = hash

variable {a : Arena} {p : Path} {l tip : Link} {path : List Link} {height work : Nat}

theorem eq_of_links {q : Path} (h : p.links = q.links) : p = q := by
  cases p
  cases q
  cases h
  rfl

theorem genesis_mem (p : Path) : p.genesis ∈ p.links :=
  List.head_mem p.links_ne_nil

theorem Reaches.isGenesis_genesis (h : p.Reaches tip height) : p.genesis.isGenesis := by
  have hfirst : p.links[0]? = some p.genesis := by
    rw [← List.head?_eq_getElem?, genesis, List.head?_eq_some_head]
  simp [Link.isGenesis, h.height_eq 0 p.genesis hfirst]

theorem link?_eq_some (ho : a.Ordered) (hstored : ∀ l ∈ p.links, l ∈ a.links) {hash : Hash} :
    p.link? hash = some l ↔ l ∈ p.links ∧ l.hash = hash := by
  constructor
  · intro hl
    exact ⟨List.mem_reverse.mp (List.mem_of_find?_eq_some hl), by simpa using List.find?_some hl⟩
  · rintro ⟨hl, rfl⟩
    cases hf : p.link? l.hash with
    | none =>
      have hnot := List.find?_eq_none.mp hf l (List.mem_reverse.mpr hl)
      simp at hnot
    | some m =>
      have hm := List.mem_reverse.mp (List.mem_of_find?_eq_some hf)
      have hhash : m.hash = l.hash := by simpa using List.find?_some hf
      rw [ho.eq_of_hash (hstored m hm) (hstored l hl) hhash]

/-- The place of a link on its path is its height. -/
theorem mem_iff_getElem? (h : a.Lineage tip path) (hp : p.links = path.reverse) :
    l ∈ p.links ↔ ∃ i : Nat, l.height? = some i ∧ p.links[i]? = some l := by
  rw [List.mem_iff_getElem?]
  constructor
  · rintro ⟨i, hi⟩
    exact ⟨i, h.height_of_getElem? (hp ▸ hi), hi⟩
  · rintro ⟨i, -, hi⟩
    exact ⟨i, hi⟩

theorem reaches_of_lineage (ho : a.Ordered) (h : a.Lineage tip path)
    (hp : p.links = path.reverse) (hs : tip.status = .resolved height work) :
    p.Reaches tip height := by
  have hstored : ∀ l ∈ p.links, l ∈ a.links := fun l hl =>
    (h.subset l (List.mem_reverse.mp (hp ▸ hl))).1
  have hlength : p.links.length = height + 1 := by
    rw [hp, List.length_reverse, (h.length_eq hs).1]
  have hheight : ∀ (i : Nat) (l : Link), p.links[i]? = some l → l.height? = some i :=
    fun i l hl => h.height_of_getElem? (hp ▸ hl)
  have hmem {l : Link} : l ∈ p.links ↔ ∃ i : Nat, l.height? = some i ∧ p.links[i]? = some l :=
    mem_iff_getElem? h hp
  refine ⟨hlength, ?_, hheight, ?_, ?_, ?_, ?_, ?_⟩
  · obtain ⟨rest, rfl⟩ := h.head_eq
    simp [Path.tip, hp]
  · intro i below l hbelow hl
    exact (h.above_of_getElem? (hp ▸ hbelow) (hp ▸ hl)).hash_eq.symm
  · intro i
    rw [blockAt?, Option.isSome_map, isSome_getElem?, hlength, Nat.lt_succ_iff]
  · intro i block
    rw [blockAt?, Option.map_eq_some_iff]
    constructor
    · rintro ⟨l, hl, rfl⟩
      exact ⟨l, List.mem_of_getElem? hl, hheight i l hl, rfl⟩
    · rintro ⟨l, hl, hi, rfl⟩
      obtain ⟨j, hj, hget⟩ := hmem.mp hl
      rw [hi, Option.some.injEq] at hj
      exact ⟨l, hj ▸ hget, rfl⟩
  · intro hash l
    rw [link?_eq_some ho hstored, hmem, and_comm]
  · intro hash
    rw [contains, Option.isSome_iff_exists]
    exact exists_congr fun l => link?_eq_some ho hstored

end Path

section Refusals

variable {σ : Type} [Medium σ] [Faithful σ] {F : Prop} {a : Arena}

namespace Arena.Sound

variable (ha : a.Sound)

include ha

theorem reads_toTip {l : Link} {path : List Link} (h : a.Lineage l path) :
    Reads (σ := σ) F (Path.toTip l.hash) a fun p => p.links = path.reverse := by
  refine (ha.reads_getLink l.hash).bind ?_
  rintro _ rfl
  rw [ha.ordered.find?_mem h.mem_links]
  exact ha.reads_toLink h

theorem refuses_toTip_lacking {hash : Hash} (h : a.find? hash = none) :
    Refuses (σ := σ) F (Path.toTip hash) a (.notFound (.link hash)) := by
  refine (ha.reads_getLink hash).refuses ?_
  rintro _ rfl
  rw [h]
  exact .throw

theorem refuses_toTip_orphan {l : Link} (hl : l ∈ a.links) (ho : l.isOrphan) :
    Refuses (σ := σ) F (Path.toTip l.hash) a (.notFound (.pathToOrphan l.hash)) := by
  refine (ha.reads_getLink l.hash).refuses ?_
  rintro _ rfl
  have hheight : l.height? = none := by
    simp [Link.height?, LinkStatus.height?, Link.isOrphan_iff.mp ho]
  rw [ha.ordered.find?_mem hl]
  simp only [Path.toLink, hheight]
  exact .throw

end Arena.Sound

end Refusals

namespace Node

variable {b : Backing} {permitted : ConsensusConfig → Prop} {n m : b.Ledger} {x : Node Arena}

theorem Shows.exists_refusal {F : Prop} (h : Node.Shows F n x) {α : Type} {e : Error}
    {act : StoreM b.Contents α} (hact : Refuses False act x.store e) :
    ∃ s, act n.store.store = .error e s := by
  cases hrun : act n.store.store with
  | ok v s =>
    obtain ⟨-, -, hF⟩ := Ends.of_ok hact h.backed hrun
    exact hF.elim
  | error e' s =>
    obtain ⟨-, -, -, he⟩ := Ends.of_error hact h.backed hrun
    rw [he.resolve_right fun hF => hF.1]
    exact ⟨s, rfl⟩

/-- A resolved link and its ancestors are there for good. -/
theorem Mirrors.later_lineage (h : Mirrors permitted n x) {l : Link} {path : List Link}
    (hpath : x.store.Lineage l path) (hlater : Later permitted n m) :
    ∃ y, Mirrors permitted m y ∧ y.store.Lineage l path := by
  obtain ⟨y, hy, hkeeps⟩ := Later.exists_mirror hlater h
  exact ⟨y, hy, hpath.mono fun k hk => hkeeps k (hpath.subset k hk).1 (hpath.subset k hk).2⟩

/-- A resolved link has a path from the genesis link, which nothing that comes in later
changes. There is none to an orphan, or to a hash that is not stored. -/
theorem path_of_reachable (h : Reachable permitted n) :
    (∀ tip, n.Stores tip → ∀ height work, tip.status = .resolved height work →
      ∃ p : Path, p.Reaches tip height ∧ n.Tells .genesisLink (some p.genesis) ∧
        (∀ l ∈ p.links, n.Stores l) ∧
        ∀ m, Later permitted n m → ∃ s, Path.toTip tip.hash m.store.store = .ok p s) ∧
    (∀ l, n.Stores l → l.isOrphan →
      ∃ s, Path.toTip l.hash n.store.store = .error (.notFound (.pathToOrphan l.hash)) s) ∧
    ∀ hash, n.Lacks hash →
      ∃ s, Path.toTip hash n.store.store = .error (.notFound (.link hash)) s := by
  obtain ⟨x, hx⟩ := h.exists_mirror
  have hsound := hx.sound.arena
  have hstores {l : Link} : n.Stores l ↔ l ∈ x.store.links := hx.shows.stores hsound
  refine ⟨?_, ?_, ?_⟩
  · intro tip htip height work hs
    obtain ⟨path, hpath⟩ := hsound.chained.exists_lineage (hstores.mp htip)
      (Link.isResolved_iff.mpr ⟨height, work, hs⟩)
    obtain ⟨p, s, -, hp⟩ := hx.shows.exists_read (hsound.reads_toTip hpath)
    have hreaches := Path.reaches_of_lineage hsound.ordered hpath hp hs
    have hmem : ∀ l ∈ p.links, l ∈ x.store.links := fun l hl =>
      (hpath.subset l (List.mem_reverse.mp (hp ▸ hl))).1
    refine ⟨p, hreaches, ?_, ?_, ?_⟩
    · exact (hx.shows.tells_genesisLink hx.sound).mpr ⟨hmem p.genesis p.genesis_mem,
        hreaches.isGenesis_genesis⟩
    · exact fun l hl => hstores.mpr (hmem l hl)
    · intro m hlater
      obtain ⟨y, hy, hpath'⟩ := hx.later_lineage hpath hlater
      obtain ⟨q, t, hrun, hq⟩ := hy.shows.exists_read (hy.sound.arena.reads_toTip hpath')
      exact ⟨t, Path.eq_of_links (hq.trans hp.symm) ▸ hrun⟩
  · intro l hl ho
    exact hx.shows.exists_refusal (hsound.refuses_toTip_orphan (hstores.mp hl) ho)
  · intro hash hlacks
    exact hx.shows.exists_refusal (hsound.refuses_toTip_lacking ((hx.shows.lacks hsound).mp hlacks))

/-- The path to the second of two blocks is the same when there is a third. -/
theorem path_spent : ∃ p : Path, p.Reaches spendingLink 1 ∧
    spent.Tells .genesisLink (some p.genesis) ∧
    ∃ s, Path.toTip spendingLink.hash respent.store.store = .ok p s := by
  obtain ⟨hpaths, -, -⟩ := path_of_reachable reachable_spent
  have hstored : spent.Stores spendingLink := stores_of_find? spent_computed.2.2.2
  obtain ⟨p, hreaches, hgenesis, -, hlater⟩ := hpaths spendingLink hstored 1 1 rfl
  exact ⟨p, hreaches, hgenesis, hlater respent later_respent⟩

end Node

end BlockTree
