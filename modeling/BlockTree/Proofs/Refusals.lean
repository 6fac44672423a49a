import BlockTree.Proofs.Conservation
import BlockTree.Proofs.Convergence
import BlockTree.Proofs.Replies

/-! Blocks that are not taken in. On a store that does not fail, a block is turned down for
what it is, for being known, or for being a second root, and leaves nothing but a count. -/

namespace BlockTree.Node

section Reasons

variable {x : Node Arena} {now : Int} {block : Block} {hash : Hash}

theorem Sound.exists_genesisFault_iff (hx : x.Sound) :
    (∃ fault, x.genesisFault? hash = some fault) ↔
      (∃ g ∈ x.store.links, g.isGenesis) ∨
        ∃ g, x.engine.config.genesisHash? = some g ∧ g ≠ hash := by
  have hpointed := hx.arena.pointed
  by_cases hexpected : ∃ g, x.engine.config.genesisHash? = some g ∧ g ≠ hash
  · obtain ⟨g, hg, hne⟩ := hexpected
    have hfault : x.genesisFault? hash = some (.unexpected g hash) := by
      simp [genesisFault?, hg, hne]
    exact iff_of_true ⟨_, hfault⟩ (.inr ⟨g, hg, hne⟩)
  · have hown : ∀ g, x.engine.config.genesisHash? = some g → g = hash := by
      intro g hg
      by_contra hne
      exact hexpected ⟨g, hg, hne⟩
    rw [genesisFault?_of_expected hown, or_iff_left hexpected]
    constructor
    · rintro ⟨fault, hfault⟩
      obtain ⟨l, hl, -⟩ := Option.map_eq_some_iff.mp hfault
      obtain ⟨first, hfirst, hfind⟩ := Option.bind_eq_some_iff.mp hl
      obtain ⟨g, hg, -, hgenesis⟩ := hpointed.genesis_mem first hfirst
      exact ⟨g, hg, hgenesis⟩
    · rintro ⟨g, hg, hgenesis⟩
      rw [hpointed.genesis_eq g hg hgenesis, Option.bind_some, hx.arena.ordered.find?_mem hg]
      exact ⟨_, rfl⟩

theorem refusal?_eq_duplicate_iff : x.refusal? now block = some (.duplicateLink block.hash) ↔
    (∃ work, validate now x.engine.config.maxFutureDrift block = .ok work) ∧
      ∃ l, x.store.find? block.hash = some l := by
  unfold refusal?
  cases hv : validate now x.engine.config.maxFutureDrift block with
  | error fault => simp
  | ok work =>
    cases hf : x.store.find? block.hash with
    | some l => simp
    | none =>
      by_cases hz : block.prevHash.isZero
      · simp [hz]
      · simp [hz]

theorem exists_refusal?_eq_validation_iff :
    (∃ fault, x.refusal? now block = some (.validation fault)) ↔
      (∃ fault, validate now x.engine.config.maxFutureDrift block = .error fault) ∨
        x.store.find? block.hash = none ∧ block.prevHash.isZero ∧
          ∃ fault, x.genesisFault? block.hash = some fault := by
  unfold refusal?
  cases hv : validate now x.engine.config.maxFutureDrift block with
  | error fault => simp
  | ok work =>
    cases hf : x.store.find? block.hash with
    | some l => simp
    | none =>
      by_cases hz : block.prevHash.isZero
      · simp [hz]
      · simp [hz]

end Reasons

variable {b : Backing} {permitted : ConsensusConfig → Prop} {n : b.Ledger} {x : Node Arena}
  {now : Int} {block : Block} {e : Error}

def counted {σ : Type} (n : Node σ) (change : Metrics → Metrics) : Engine :=
  { n.engine with metrics := change n.engine.metrics }

theorem Shows.fault?_eq (h : Node.Shows False n x) (hx : x.Sound)
    (hroom : Medium.room n.store block) :
    n.fault? (submit now block) = x.refusal? now block := by
  have hfits : Faithful.fits _ x.store.nextSeq block := Faithful.fits_of_room h.2.1 hroom
  have hends : Ends (Node.Shows False) (submit now block) x _ _ := ends_submit hx fun _ => hfits
  have hsubmit := hends n h
  unfold fault?
  cases hrun : submit now block n with
  | ok o m =>
    simp only [hrun] at hsubmit ⊢
    obtain ⟨y, -, ho⟩ := hsubmit
    exact ho.admitted.symm
  | error e m =>
    simp only [hrun] at hsubmit ⊢
    obtain ⟨y, -, ⟨hrefused, -⟩ | ⟨hF, -⟩⟩ := hsubmit
    · exact hrefused.symm
    · exact hF.elim

/-- A node that turned a block down holds what it held, and has counted the block. -/
theorem Shows.refused (h : Node.Shows False n x) (hx : x.Sound)
    (hrefused : x.refusal? now block = some e) :
    Node.Shows False (n.after (submit now block)) (x.noted e) := by
  have hnone : x.refusal? now block = none →
      Faithful.fits (Unreliable b.Contents) x.store.nextSeq block := by
    rw [hrefused]
    nofun
  obtain ⟨y, hy, hreply⟩ := h.reply (d := ⟨now, block⟩) hx hnone
  obtain ⟨-, hnoted⟩ := hreply.of_refused hrefused
  exact hnoted ▸ hy

theorem Shows.agrees_refused (h : Node.Shows False n x) (hx : x.Sound)
    (hrefused : x.refusal? now block = some e) : n.Agrees (n.after (submit now block)) := by
  have halike : Alike x (x.noted e) := ⟨rfl, rfl, rfl⟩
  exact halike.agrees hx h (h.refused hx hrefused)

/-- On a store that does not fail, a block is a duplicate if it is valid and stored, and is
rejected if it is not valid or a root that is not wanted. Nothing else is said of a block that
is not taken in, and nothing but one count tells afterwards that it was there. -/
theorem refused_iff_of_reachable (h : Reachable permitted n) (hcalm : n.store.outages = [])
    (now : Int) (block : Block) (hroom : Medium.room n.store block) :
    (n.fault? (submit now block) = some (.duplicateLink block.hash) ↔
      (∃ work, validate now n.engine.config.maxFutureDrift block = .ok work) ∧
        ∃ l, n.Stores l ∧ l.hash = block.hash) ∧
    ((∃ fault, n.fault? (submit now block) = some (.validation fault)) ↔
      (∃ fault, validate now n.engine.config.maxFutureDrift block = .error fault) ∨
        n.Lacks block.hash ∧ block.prevHash.isZero ∧
          ((∃ g, n.Stores g ∧ g.isGenesis) ∨
            ∃ g, n.engine.config.genesisHash? = some g ∧ g ≠ block.hash)) ∧
    ∀ e, n.fault? (submit now block) = some e → n.Agrees (n.after (submit now block)) ∧
      ((∃ fault, e = .validation fault) ∧ (n.after (submit now block)).engine =
          n.counted (fun m => { m with rejected := m.rejected + 1 }) ∨
        e = .duplicateLink block.hash ∧ (n.after (submit now block)).engine =
          n.counted fun m => { m with duplicate := m.duplicate + 1 }) := by
  obtain ⟨x, hx⟩ := h.exists_mirror
  have hsound := hx.sound
  have hshows := hx.shows.of_calm hcalm
  have hstores : ∀ {l : Link}, n.Stores l ↔ l ∈ x.store.links := hshows.stores hsound.arena
  rw [hshows.fault?_eq hsound hroom]
  refine ⟨?_, ?_, ?_⟩
  · rw [refusal?_eq_duplicate_iff, hshows.1]
    refine and_congr_right fun _ => ?_
    constructor
    · rintro ⟨l, hl⟩
      obtain ⟨hmem, hh⟩ := Arena.mem_of_find? hl
      exact ⟨l, hstores.mpr hmem, hh⟩
    · rintro ⟨l, hl, hh⟩
      exact ⟨l, hh ▸ hsound.arena.ordered.find?_mem (hstores.mp hl)⟩
  · rw [exists_refusal?_eq_validation_iff, hsound.exists_genesisFault_iff,
      hshows.lacks hsound.arena, hshows.1]
    simp only [hstores]
  · intro e hrefused
    have hengine : (n.after (submit now block)).engine = (x.noted e).engine :=
      (hshows.refused hsound hrefused).1
    refine ⟨hshows.agrees_refused hsound hrefused, ?_⟩
    simp only [counted, hengine, hshows.1]
    rcases refusal?_eq_some hrefused with ⟨fault, rfl⟩ | rfl
    · exact .inl ⟨⟨fault, rfl⟩, rfl⟩
    · exact .inr ⟨rfl, rfl⟩

section Sessions

/-- The tree has its root, and there is no room for more orphans than the one that waits. -/
def full : Backing.arena.Ledger :=
  (started crowded []).feed [⟨0, .first⟩, ⟨0, .third⟩]

def secondRoot : Block :=
  .easy .zero [.coinbase 9]

theorem full_computed :
    full.store.outages = [] ∧
    full.fault? (submit 0 .third) = some (.duplicateLink Block.third.hash) ∧
    Arena.find? full.store.store secondRoot.hash = none ∧
    (Arena.find? full.store.store Block.first.hash).map Link.isGenesis = some true := by
  decide +kernel

theorem reachable_full : Reachable (· = crowded) full := by
  have hopened : Opened (· = crowded) (started crowded []) := opened_started rfl (by decide)
  exact ⟨_, hopened, (later_submit _ 0 .first).trans (later_submit _ 0 .third)⟩

/-- The orphan that comes again does not push itself out. -/
theorem refused_full : full.store.outages = [] ∧
    (∃ l, full.Stores l ∧ l.hash = Block.third.hash) ∧
    full.Agrees (full.after (submit 0 .third)) ∧
    ∃ fault, full.fault? (submit 0 secondRoot) = some (.validation fault) ∧
      full.Agrees (full.after (submit 0 secondRoot)) := by
  obtain ⟨hcalm, hagain, hunknown, hfirst⟩ := full_computed
  obtain ⟨hduplicate, -, hthird⟩ :=
    refused_iff_of_reachable reachable_full hcalm 0 .third trivial
  obtain ⟨-, hrejected, hroot⟩ :=
    refused_iff_of_reachable reachable_full hcalm 0 secondRoot trivial
  obtain ⟨g, hg, hgenesis⟩ := Option.map_eq_some_iff.mp hfirst
  have hhash : g.hash = Block.first.hash := (Arena.mem_of_find? hg).2
  obtain ⟨fault, hfault⟩ := hrejected.mpr (.inr ⟨lacks_of_find? hunknown, by decide,
    .inl ⟨g, stores_of_find? (hhash ▸ hg), hgenesis⟩⟩)
  exact ⟨hcalm, (hduplicate.mp hagain).2, (hthird _ hagain).1, fault, hfault, (hroot _ hfault).1⟩

end Sessions

end BlockTree.Node
