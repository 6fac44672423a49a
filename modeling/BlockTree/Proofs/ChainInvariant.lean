import BlockTree.Proofs.Observation

/-! The shape of the tree in every store that a node leaves behind. A resolved link
stands on its stored parent, and no orphan waits below a resolved link. -/

namespace BlockTree.Node

variable {b : Backing} {permitted : ConsensusConfig → Prop} {n : b.Ledger} {x : Node Arena}

structure ChainInvariant (permitted : ConsensusConfig → Prop) (n : b.Ledger) : Prop where
  root : ∀ l, n.Stores l → l.parentHash.isZero → l.status = .resolved 0 0
  base : ∀ l, n.Stores l → l.height? = some 0 → l.parentHash.isZero
  single : ∀ l m, n.Stores l → n.Stores m → l.parentHash.isZero → m.parentHash.isZero → l = m
  expected : ∀ l g, n.Stores l → l.parentHash.isZero →
    (∀ c, permitted c → c.genesisHash? = some g) → l.hash = g
  /-- Height and work of a link are those of its parent, and its own on top. -/
  stands : ∀ l, n.Stores l → l.isResolved → l.parentHash.isZero = false →
    ∃ p, n.Stores p ∧ p.hash = l.parentHash ∧ ∃ height work own : Nat,
      p.status = .resolved height work ∧ Work.ofBits l.block.header.bits = .ok own ∧
        l.status = .resolved (height + 1) (work + own)
  waits : ∀ l, n.Stores l → l.isOrphan → l.parentHash.isZero = false ∧
    (n.Lacks l.parentHash ∨ ∃ p, n.Stores p ∧ p.hash = l.parentHash ∧ p.isOrphan)

theorem Mirrors.chainInvariant (h : Mirrors permitted n x) : ChainInvariant permitted n := by
  have hchained := h.sound.arena.chained
  have hstores : ∀ {l : Link}, n.Stores l ↔ l ∈ x.store.links := h.shows.stores h.sound.arena
  have hgenesis : ∀ {l : Link}, l ∈ x.store.links → l.parentHash.isZero → l.isGenesis :=
    hchained.isGenesis_of_isZero
  refine ⟨?_, ?_, ?_, ?_, ?_, ?_⟩
  · intro l hl hz
    exact hchained.root l (hstores.mp hl) hz
  · intro l hl hheight
    exact hchained.isZero_of_isGenesis (hstores.mp hl) (by simp [Link.isGenesis, hheight])
  · intro l m hl hm hlz hmz
    have hl := hstores.mp hl
    have hm := hstores.mp hm
    have hlg := h.sound.arena.pointed.genesis_eq l hl (hgenesis hl hlz)
    have hmg := h.sound.arena.pointed.genesis_eq m hm (hgenesis hm hmz)
    exact h.sound.arena.ordered.eq_of_hash hl hm (Option.some.inj (hlg.symm.trans hmg))
  · intro l g hl hz hall
    obtain ⟨c, hc, hexpected⟩ := h.anchored l (hstores.mp hl) (hgenesis (hstores.mp hl) hz)
    exact (hexpected g (hall c hc)).symm
  · intro l hl hr hz
    obtain ⟨p, hp, habove⟩ := hchained.stands l (hstores.mp hl) hr hz
    exact ⟨p, hstores.mpr hp, habove.hash_eq, habove.status_eq⟩
  · intro l hl ho
    have hl := hstores.mp hl
    refine ⟨hchained.parent_ne_zero_of_isOrphan hl ho, ?_⟩
    cases hp : x.store.find? l.parentHash with
    | none => exact .inl ((h.shows.lacks h.sound.arena).mpr hp)
    | some p =>
      obtain ⟨hmem, hh⟩ := Arena.mem_of_find? hp
      exact .inr ⟨p, hstores.mpr hmem, hh, hchained.waits l hl ho p hmem hh⟩

/-- Whatever was handed in, and whichever calls failed, the tree keeps its shape. -/
theorem chainInvariant_of_reachable (h : Reachable permitted n) : ChainInvariant permitted n := by
  obtain ⟨x, hx⟩ := h.exists_mirror
  exact hx.chainInvariant

/-- A block that came before its parent is resolved with it. -/
def lateGenesis : Backing.arena.Ledger :=
  ((started {} []).after (submit 0 .second)).after (submit 0 .first)

theorem lateGenesis_heights :
    lateGenesis.store.store.links.map Link.height? = [some 1, some 0] := by
  decide +kernel

theorem chainInvariant_lateGenesis : ChainInvariant (fun _ => True) lateGenesis ∧
    lateGenesis.store.store.links.map Link.height? = [some 1, some 0] := by
  have hopened : Opened (fun _ => True) (started {} []) := opened_started trivial (by decide)
  have hlater : Later (fun _ => True) (started {} []) lateGenesis :=
    (later_submit _ 0 .second).trans (later_submit _ 0 .first)
  exact ⟨chainInvariant_of_reachable ⟨_, hopened, hlater⟩, lateGenesis_heights⟩

end BlockTree.Node
