import BlockTree.Proofs.Observation

/-! Which link a store answers as its last one, and that an engine has it as its tip
after every block it took in. -/

namespace BlockTree

namespace Node

variable {b : Backing} {permitted : ConsensusConfig → Prop} {n m : b.Ledger} {x y : Node Arena}

structure IsBest (n : b.Ledger) (l : Link) : Prop where
  stored : n.Stores l
  resolved : l.isResolved
  better : ∀ m, n.Stores m → m.isResolved → m ≠ l → l.betterTip m

theorem Mirrors.isBest (h : Mirrors permitted n x) {l : Link} :
    n.IsBest l ↔ x.store.IsBest l := by
  have hstores : ∀ {l : Link}, n.Stores l ↔ l ∈ x.store.links := h.shows.stores h.sound.arena
  constructor
  · intro hl
    exact ⟨hstores.mp hl.stored, hl.resolved, fun m hm => hl.better m (hstores.mpr hm)⟩
  · intro hl
    exact ⟨hstores.mpr hl.mem, hl.resolved, fun m hm => hl.better m (hstores.mp hm)⟩

theorem Mirrors.tells_lastLink (h : Mirrors permitted n x) {best? : Option Link} :
    n.Tells .lastLink best? ↔ best? = x.store.bestLink? :=
  h.shows.tells h.sound.arena .lastLink trivial rfl

theorem Mirrors.tells_no_lastLink (h : Mirrors permitted n x) :
    n.Tells .lastLink none ↔ ∀ l, n.Stores l → l.isOrphan := by
  have hstores : ∀ {l : Link}, n.Stores l ↔ l ∈ x.store.links := h.shows.stores h.sound.arena
  rw [h.tells_lastLink, eq_comm]
  refine (h.sound.arena.pointed.best_eq_none_iff h.sound.arena.ordered).trans ?_
  exact ⟨fun ho l hl => ho l (hstores.mp hl), fun ho l hl => ho l (hstores.mpr hl)⟩

theorem isBest_iff {l : Link} : n.IsBest l ↔ n.Stores l ∧ ∃ height work,
    l.status = .resolved height work ∧ ∀ m, n.Stores m → m ≠ l → ∀ height' work',
      m.status = .resolved height' work' → work' < work ∨ work = work' ∧ l.seq < m.seq := by
  constructor
  · intro hl
    obtain ⟨height, work, hs⟩ := Link.isResolved_iff.mp hl.resolved
    exact ⟨hl.stored, height, work, hs, (Link.betterTip_all_iff hs).mp hl.better⟩
  · rintro ⟨hstored, height, work, hs, hahead⟩
    have hr : l.isResolved := Link.isResolved_iff.mpr ⟨height, work, hs⟩
    exact ⟨hstored, hr, (Link.betterTip_all_iff hs).mpr hahead⟩

theorem IsBest.unique {l l' : Link} (hl : n.IsBest l) (hl' : n.IsBest l') : l = l' := by
  by_contra hne
  have hup := hl.better l' hl'.stored hl'.resolved (Ne.symm hne)
  exact Link.betterTip_asymm hup (hl'.better l hl.stored hl.resolved hne)

/-- The store knows the best of all resolved links, and an engine that took in a block
has it as its tip. -/
theorem bestTip_of_reachable (h : Reachable permitted n) :
    (∃ best?, n.Tells .lastLink best?) ∧
    (∀ l, n.Tells .lastLink (some l) ↔ n.IsBest l) ∧
    (∀ l, n.IsBest l ↔ n.Stores l ∧ ∃ height work, l.status = .resolved height work ∧
      ∀ m, n.Stores m → m ≠ l → ∀ height' work', m.status = .resolved height' work' →
        work' < work ∨ work = work' ∧ l.seq < m.seq) ∧
    (n.Tells .lastLink none ↔ ∀ l, n.Stores l → l.isOrphan) ∧
    ∀ now block o m, Medium.room n.store block → submit now block n = .ok o m →
      m.Tells .lastLink m.engine.tip? := by
  obtain ⟨x, hx⟩ := h.exists_mirror
  refine ⟨⟨_, hx.tells_lastLink.mpr rfl⟩, ?_, fun _ => isBest_iff, hx.tells_no_lastLink, ?_⟩
  · intro l
    rw [hx.tells_lastLink, eq_comm, hx.sound.arena.bestLink?_iff, hx.isBest]
  · intro now block o m hroom hsubmit
    obtain ⟨y, hshows, ho⟩ := (ends_submit hx.sound fun _ => hx.fits hroom).of_ok hx.shows hsubmit
    obtain ⟨hy, -⟩ := hx.submitted ho hshows
    rw [hy.tells_lastLink, hshows.1]
    exact ho.settles.tip_eq

/-- The first block and one above it. -/
def unopposed : Backing.arena.Ledger :=
  ((started {} []).after (submit 0 .first)).after (submit 0 .second)

/-- Two blocks of equal work above the first. -/
def tied : Backing.arena.Ledger :=
  unopposed.after (submit 0 .rival)

/-- The branch that came later has one block more. -/
def outgrown : Backing.arena.Ledger :=
  tied.after (submit 0 .third)

theorem tied_computed : unopposed.fault? (submit 0 .rival) = none ∧
    tied.fault? (submit 0 .third) = none ∧
    tied.engine.tip?.map Link.hash = some Block.second.hash ∧
    tied.engine.tip?.map (fun l => (l.status, l.seq)) = some (.resolved 1 1, 1) ∧
    (Arena.find? tied.store.store Block.rival.hash).map (fun l => (l.status, l.seq)) =
      some (.resolved 1 1, 2) ∧
    outgrown.engine.tip?.map Link.hash = some Block.third.hash := by
  decide +kernel

/-- Of two links with equal work the earlier one is the tip, until the other branch grows. -/
theorem bestTip_tied : ∃ second rival third,
    second.hash = Block.second.hash ∧ rival.hash = Block.rival.hash ∧
    third.hash = Block.third.hash ∧ tied.Stores rival ∧ second.status = rival.status ∧
    second.seq < rival.seq ∧ tied.Tells .lastLink (some second) ∧ tied.IsBest second ∧
    ¬ tied.IsBest rival ∧ outgrown.Tells .lastLink (some third) ∧ outgrown.IsBest third := by
  obtain ⟨hunopposed, htied, hsecond, hsecondPlace, hrivalPlace, hthird⟩ := tied_computed
  have hopened : Opened (fun _ => True) (started {} []) := opened_started trivial (by decide)
  have hreach : Reachable (fun _ => True) unopposed :=
    ⟨_, hopened, (later_submit _ 0 .first).trans (later_submit _ 0 .second)⟩
  have hreachTied : Reachable (fun _ => True) tied := hreach.later (later_submit _ 0 .rival)
  have hreachOver : Reachable (fun _ => True) outgrown :=
    hreachTied.later (later_submit _ 0 .third)
  obtain ⟨_, hrival⟩ := eq_ok_of_fault? hunopposed
  obtain ⟨_, hgrown⟩ := eq_ok_of_fault? htied
  obtain ⟨-, -, -, -, htip⟩ := bestTip_of_reachable hreach
  obtain ⟨-, hbestTied, -, -, htipTied⟩ := bestTip_of_reachable hreachTied
  obtain ⟨-, hbestOver, -⟩ := bestTip_of_reachable hreachOver
  obtain ⟨second, hs, hsecond⟩ := Option.map_eq_some_iff.mp hsecond
  obtain ⟨third, ht, hthird⟩ := Option.map_eq_some_iff.mp hthird
  obtain ⟨rival, hr, hplace⟩ := Option.map_eq_some_iff.mp hrivalPlace
  have htold : tied.Tells .lastLink (some second) := hs ▸ htip 0 .rival _ _ trivial hrival
  have htoldOver : outgrown.Tells .lastLink (some third) :=
    ht ▸ htipTied 0 .third _ _ trivial hgrown
  have hrivalHash : rival.hash = Block.rival.hash := (Arena.mem_of_find? hr).2
  have hrivalStored : tied.Stores rival := stores_of_find? (hrivalHash ▸ hr)
  simp only [hs, Option.map_some, Option.some.injEq, Prod.mk.injEq] at hsecondPlace
  simp only [Prod.mk.injEq] at hplace
  have hearlier : second.seq < rival.seq := by omega
  have hsecondBest := (hbestTied second).mp htold
  refine ⟨second, rival, third, hsecond, hrivalHash, hthird, hrivalStored, ?_, hearlier,
    htold, hsecondBest, ?_, htoldOver, (hbestOver third).mp htoldOver⟩
  · rw [hsecondPlace.1, hplace.1]
  · intro hrivalBest
    rw [hsecondBest.unique hrivalBest] at hearlier
    exact Nat.lt_irrefl _ hearlier

end Node

end BlockTree
