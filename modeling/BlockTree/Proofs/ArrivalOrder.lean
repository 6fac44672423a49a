import BlockTree.Proofs.BestTip
import BlockTree.Proofs.Rooting

/-! The order in which blocks come in makes no difference to the tree in the end, and
none to the tip but for branches of the same work. -/

namespace BlockTree

namespace Arena

variable {a c : Arena} {l m : Link}

theorem IsBest.work_le (h : a.IsBest l) (hm : m ∈ a.links) {height work height' work' : Nat}
    (hs : l.status = .resolved height work) (hs' : m.status = .resolved height' work') :
    work' ≤ work := by
  by_cases he : m = l
  · rw [he, hs] at hs'
    cases hs'
    exact Nat.le_refl _
  · have hr : m.isResolved := Link.isResolved_iff.mpr ⟨height', work', hs'⟩
    have := (Link.betterTip_iff hs hs').mp (h.better m hm hr he)
    omega

section SameBlocks

variable (ha : a.Sound) (hc : c.Sound) (hsub : a.blocks ⊆ c.blocks) (hsub' : c.blocks ⊆ a.blocks)

include ha hc hsub hsub'

theorem Sound.exists_same (hl : l ∈ a.links) :
    ∃ m ∈ c.links, m.block = l.block ∧ m.hash = l.hash ∧ m.status = l.status := by
  obtain ⟨m, hm, hb⟩ := List.mem_map.mp (hsub (List.mem_map_of_mem hl))
  have hh : m.hash = l.hash := by
    rw [hc.ordered.hash_eq m hm, hb, ha.ordered.hash_eq l hl]
  exact ⟨m, hm, hb, hh, (ha.status_eq_of_blocks hc hsub hsub' hl hm hb.symm).symm⟩

theorem Sound.bestLink?_same :
    a.bestLink?.bind Link.work? = c.bestLink?.bind Link.work? ∧
      ∀ l, a.bestLink? = some l → (∀ m ∈ a.links, m.work? = l.work? → m = l) →
        c.bestLink?.map Link.block = some l.block := by
  cases hl : a.bestLink? with
  | none =>
    cases hm : c.bestLink? with
    | none => simp
    | some m =>
      have hbest := hc.bestLink?_eq_some hm
      obtain ⟨k, hk, -, -, hs⟩ := hc.exists_same ha hsub' hsub hbest.mem
      have hko := Link.isOrphan_iff.mp (ha.bestLink?_eq_none hl k hk)
      have hmo : m.isOrphan := Link.isOrphan_iff.mpr (hs.symm.trans hko)
      have hmr := hbest.resolved
      simp [Link.isResolved, hmo] at hmr
  | some l =>
    have hbest := ha.bestLink?_eq_some hl
    obtain ⟨height, work, hs⟩ := Link.isResolved_iff.mp hbest.resolved
    obtain ⟨k, hk, -, -, hks⟩ := ha.exists_same hc hsub hsub' hbest.mem
    rw [hs] at hks
    cases hm : c.bestLink? with
    | none =>
      have hko := Link.isOrphan_iff.mp (hc.bestLink?_eq_none hm k hk)
      rw [hks] at hko
      cases hko
    | some m =>
      have hbest' := hc.bestLink?_eq_some hm
      obtain ⟨height', work', hs'⟩ := Link.isResolved_iff.mp hbest'.resolved
      obtain ⟨j, hj, hjb, -, hjs⟩ := hc.exists_same ha hsub' hsub hbest'.mem
      rw [hs'] at hjs
      have hle : work ≤ work' := hbest'.work_le hk hs' hks
      have hle' : work' ≤ work := hbest.work_le hj hs hjs
      have hsame : work' = work := Nat.le_antisymm hle' hle
      have hwork {link : Link} {h w : Nat} (hstatus : link.status = .resolved h w) :
          link.work? = some w := by
        simp [Link.work?, LinkStatus.work?, hstatus]
      refine ⟨by simp [hwork hs, hwork hs', hsame], ?_⟩
      intro l' hl' honly
      cases hl'
      have hjl : j = l := honly j hj (by rw [hwork hjs, hwork hs, hsame])
      simp [← hjb, hjl]

end SameBlocks

end Arena

namespace Node

variable {b c : Backing} {config : ConsensusConfig} {n : b.Ledger} {m : c.Ledger}
  {ds es : List Delivery}

def Ranks (n : b.Ledger) (hash : Hash) (status : LinkStatus) : Prop :=
  ∃ l, n.Stores l ∧ l.hash = hash ∧ l.status = status

/-- What every node holds that was given the blocks, in any order. -/
structure Gathered (config : ConsensusConfig) (blocks : List Block) (n : b.Ledger)
    (x : Node Arena) : Prop where
  shows : Node.Shows False n x
  sound : x.Sound
  settled : x.engine.tip? = x.store.bestLink?
  mem_blocks : ∀ block, block ∈ x.store.blocks ↔ block ∈ blocks ∧ config.admits block

theorem Opened.gathered (h : Opened (· = config) n) (hcalm : n.store.outages = [])
    (hroom : n.HasRoom ds)
    (hvalid : ∀ d ∈ ds, ∃ work, validate d.now config.maxFutureDrift d.block = .ok work)
    (hnodup : ((ds.map Delivery.block).map Block.hash).Nodup)
    (hlen : ds.length ≤ config.maxOrphans)
    (hfirst : (∀ block ∈ ds.map Delivery.block, ∀ other ∈ ds.map Delivery.block,
        block.prevHash.isZero → other.prevHash.isZero → block = other) ∨
      config.genesisHash?.isSome) :
    ∃ x, Gathered config (ds.map Delivery.block) (n.feed ds) x := by
  obtain ⟨hshows, hsound⟩ := h.shows_calm hcalm
  obtain ⟨y, hy, hall⟩ := hshows.feed hsound hroom
  obtain ⟨hysound, -⟩ := hall.sound hsound
  have honly : ∀ block ∈ (ds.map Delivery.block).filter config.admits,
      ∀ other ∈ (ds.map Delivery.block).filter config.admits,
        block.prevHash.isZero → other.prevHash.isZero → block = other := by
    intro block hblock other hother hz hz'
    obtain ⟨hmem, hadmits⟩ := List.mem_filter.mp hblock
    obtain ⟨hmem', hadmits'⟩ := List.mem_filter.mp hother
    rcases hfirst with hfirst | hgiven
    · exact hfirst block hmem other hmem' hz hz'
    · -- both are the one that the settings ask for
      obtain ⟨g, hg⟩ := Option.isSome_iff_exists.mp hgiven
      refine List.inj_on_of_nodup_map hnodup hmem hmem' ?_
      rw [← admits_iff.mp hadmits hz g hg, ← admits_iff.mp hadmits' hz' g hg]
  have hblocks := hall.blocks hsound hvalid (by simpa using hnodup) (by simpa using honly)
    (by simpa using hlen)
  refine ⟨y, hy, hysound, hall.settled rfl, fun block => ?_⟩
  rw [hblocks, store_blank, Arena.blocks_empty, List.nil_append, List.mem_filter, config_blank]

theorem Gathered.ranks_iff {blocks : List Block} {x : Node Arena}
    (h : Gathered config blocks n x) {hash : Hash} {status : LinkStatus} :
    n.Ranks hash status ↔ ∃ l ∈ x.store.links, l.hash = hash ∧ l.status = status :=
  exists_congr fun _ => and_congr_left' (h.shows.stores h.sound.arena)

/-- Blocks that are accepted on their own, no more of them than orphans are kept, make the
same tree in any order. The tip has the same work, and is the same block if no other
link has as much. -/
theorem ranks_iff_of_perm (hn : Opened (· = config) n) (hm : Opened (· = config) m)
    (hncalm : n.store.outages = []) (hmcalm : m.store.outages = [])
    (hnroom : n.HasRoom ds) (hmroom : m.HasRoom es)
    (hperm : (ds.map Delivery.block).Perm (es.map Delivery.block))
    (hvalid : ∀ d ∈ ds ++ es, ∃ work, validate d.now config.maxFutureDrift d.block = .ok work)
    (hnodup : ((ds.map Delivery.block).map Block.hash).Nodup)
    (hlen : ds.length ≤ config.maxOrphans)
    (hfirst : (∀ block ∈ ds.map Delivery.block, ∀ other ∈ ds.map Delivery.block,
        block.prevHash.isZero → other.prevHash.isZero → block = other) ∨
      config.genesisHash?.isSome) :
    (∀ hash status, (n.feed ds).Ranks hash status ↔ (m.feed es).Ranks hash status) ∧
    (n.feed ds).Tells .lastLink (n.feed ds).engine.tip? ∧
    (m.feed es).Tells .lastLink (m.feed es).engine.tip? ∧
    (n.feed ds).engine.tip?.bind Link.work? = (m.feed es).engine.tip?.bind Link.work? ∧
    ∀ tip, (n.feed ds).engine.tip? = some tip →
      (∀ l, (n.feed ds).Stores l → l.work? = tip.work? → l = tip) →
        (m.feed es).engine.tip?.map Link.block = some tip.block := by
  have hmem (block : Block) := hperm.mem_iff (a := block)
  have hlen' : es.length ≤ config.maxOrphans := by
    have heq : ds.length = es.length := by simpa using hperm.length_eq
    omega
  obtain ⟨x, hx⟩ := hn.gathered hncalm hnroom
    (fun d hd => hvalid d (List.mem_append_left _ hd)) hnodup hlen hfirst
  obtain ⟨y, hy⟩ := hm.gathered hmcalm hmroom
    (fun d hd => hvalid d (List.mem_append_right _ hd)) ((hperm.map _).nodup_iff.mp hnodup)
    hlen' (by simpa only [hmem] using hfirst)
  have hsub : x.store.blocks ⊆ y.store.blocks := fun block hb =>
    (hy.mem_blocks block).mpr (by simpa only [hmem] using (hx.mem_blocks block).mp hb)
  have hsub' : y.store.blocks ⊆ x.store.blocks := fun block hb =>
    (hx.mem_blocks block).mpr (by simpa only [hmem] using (hy.mem_blocks block).mp hb)
  have hxa := hx.sound.arena
  have hya := hy.sound.arena
  obtain ⟨hwork, hbest⟩ := hxa.bestLink?_same hya hsub hsub'
  have hxtip : (n.feed ds).engine.tip? = x.store.bestLink? := by rw [hx.shows.1, hx.settled]
  have hytip : (m.feed es).engine.tip? = y.store.bestLink? := by rw [hy.shows.1, hy.settled]
  refine ⟨fun hash status => ?_, ?_, ?_, ?_, ?_⟩
  · rw [hx.ranks_iff, hy.ranks_iff]
    constructor
    · intro hranks
      obtain ⟨l, hl, hh, hs⟩ := hranks
      obtain ⟨k, hk, -, hkh, hks⟩ := hxa.exists_same hya hsub hsub' hl
      exact ⟨k, hk, hkh.trans hh, hks.trans hs⟩
    · intro hranks
      obtain ⟨l, hl, hh, hs⟩ := hranks
      obtain ⟨k, hk, -, hkh, hks⟩ := hya.exists_same hxa hsub' hsub hl
      exact ⟨k, hk, hkh.trans hh, hks.trans hs⟩
  · exact (hx.shows.tells hxa .lastLink trivial rfl).mpr hxtip
  · exact (hy.shows.tells hya .lastLink trivial rfl).mpr hytip
  · rw [hxtip, hytip, hwork]
  · intro tip htip honly
    rw [hytip]
    refine hbest tip (hxtip ▸ htip) fun l hl hw => ?_
    exact honly l ((hx.shows.stores hxa).mpr hl) hw

theorem upwards_computed :
    upwards.all (fun d => (validate d.now 7200 d.block).toOption.isSome) ∧
    ((upwards.map Delivery.block).map Block.hash).Nodup ∧
    Block.second.prevHash.isZero = false ∧
    ((started {} []).feed upwards).engine.tip?.any (fun tip => tip.block = .second ∧
      (Arena.links ((started {} []).feed upwards).store.store).all
        fun l => l.work? = tip.work? → l = tip) := by
  decide +kernel

/-- The same tree and the same tip when the parent comes last. -/
theorem ranks_iff_reverse :
    (∀ hash status, ((started {} []).feed upwards).Ranks hash status ↔
      ((started {} []).feed upwards.reverse).Ranks hash status) ∧
    ((started {} []).feed upwards).engine.tip?.bind Link.work? =
      ((started {} []).feed upwards.reverse).engine.tip?.bind Link.work? ∧
    ((started {} []).feed upwards.reverse).engine.tip?.map Link.block = some .second := by
  obtain ⟨haccepted, hnodup, hsecond, hany⟩ := upwards_computed
  obtain ⟨tip, htip, hbest⟩ := (Option.any_eq_true _ _).mp hany
  obtain ⟨hblock, hall⟩ := of_decide_eq_true hbest
  have honly : ∀ l, ((started {} []).feed upwards).Stores l → l.work? = tip.work? → l = tip := by
    intro l hl
    exact of_decide_eq_true (List.all_eq_true.mp hall l (mem_of_stores hl))
  have hopened : Opened (· = {}) (started {} []) := opened_started rfl (by decide)
  have hvalid : ∀ d ∈ upwards ++ upwards.reverse, ∃ work,
      validate d.now ({} : ConsensusConfig).maxFutureDrift d.block = .ok work := by
    intro d hd
    have hsome := List.all_eq_true.mp haccepted d (by simpa using hd)
    cases hv : validate d.now 7200 d.block with
    | ok work => exact ⟨work, rfl⟩
    | error e => simp [hv, Except.toOption] at hsome
  obtain ⟨hranks, -, -, hwork, hsame⟩ := ranks_iff_of_perm hopened hopened rfl rfl
    (hasRoom_arena _ upwards) (hasRoom_arena _ upwards.reverse)
    ((List.reverse_perm upwards).symm.map _) hvalid hnodup (by decide)
    (.inl (by simp [upwards, hsecond]))
  exact ⟨hranks, hwork, hblock ▸ hsame tip htip honly⟩

end Node

end BlockTree
