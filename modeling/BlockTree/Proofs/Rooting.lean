import BlockTree.Proofs.Delivery

/-! What a node holds after blocks came in without a failing call. The blocks alone, and
not the order in which they came, say which of them are resolved and at which place. -/

namespace BlockTree

/-- The ancestry of a block leads, within the blocks, down to one without a parent. -/
inductive Rooted (blocks : List Block) : Block → Nat → Work → Prop
  | root {block : Block} : block ∈ blocks → block.prevHash.isZero → Rooted blocks block 0 0
  | child {block parent : Block} {height : Nat} {work : Work} :
    block ∈ blocks → block.prevHash.isZero = false → parent.hash = block.prevHash →
      Rooted blocks parent height work →
        Rooted blocks block (height + 1) (work + block.ownWork)

theorem Rooted.mem {blocks : List Block} {block : Block} {height : Nat} {work : Work}
    (h : Rooted blocks block height work) : block ∈ blocks := by
  cases h <;> assumption

theorem Rooted.mono {blocks more : List Block} {block : Block} {height : Nat} {work : Work}
    (h : Rooted blocks block height work) (hsub : blocks ⊆ more) :
    Rooted more block height work := by
  induction h with
  | root hmem hz => exact .root (hsub hmem) hz
  | child hmem hz hparent _ ih => exact .child (hsub hmem) hz hparent ih

namespace Arena

variable {a : Arena} {link u : Link} {promoted : List Link} {l : Link} {path : List Link}

def blocks (a : Arena) : List Block :=
  a.links.map Link.block

@[simp] theorem blocks_empty : blocks {} = [] := rfl

theorem Ordered.map_hash_blocks (ho : a.Ordered) :
    a.blocks.map Block.hash = a.links.map Link.hash := by
  rw [blocks, List.map_map]
  exact List.map_congr_left fun l hl => (ho.hash_eq l hl).symm

theorem Ordered.mem_hash_blocks (ho : a.Ordered) {hash : Hash} :
    hash ∈ a.blocks.map Block.hash ↔ a.find? hash ≠ none := by
  rw [ho.map_hash_blocks, ne_eq, find?_eq_none]
  simp

theorem Ordered.blocks_replace (ho : a.Ordered) (h : a.Replaces u) :
    (a.replace u).blocks = a.blocks := by
  obtain ⟨o, hmem, -, hh, hb, -⟩ := h
  rw [blocks, links_replace, List.map_map, blocks]
  apply List.map_congr_left
  intro l hl
  by_cases he : l.hash = u.hash
  · have hlo : l = o := ho.eq_of_hash hl hmem (he.trans hh.symm)
    simp [hlo, hh, hb]
  · simp [he]

theorem Files.blocks_file (h : a.Files link promoted) (ho : a.Ordered) :
    (a.file link promoted).blocks = a.blocks ++ [link.block] := by
  refine (foldl_replace_induction (P := fun c => c.blocks = a.blocks ++ [link.block]) ?_
    (ho.push h.fresh h.hash_eq).noticeResolved (fun _ hu => h.replaces_push hu) h.nodup ?_).2
  · intro c u hoc hr _ hc
    rw [hoc.blocks_replace hr, hc]
  · simp [blocks, push, Link.withSeq]

theorem Lineage.rooted (h : a.Lineage l path) {height : Nat} {work : Work}
    (hs : l.status = .resolved height work) (ho : a.Ordered) :
    Rooted a.blocks l.block height work := by
  induction h generalizing height work with
  | root hl hz hr =>
    rw [hr] at hs
    cases hs
    exact .root (List.mem_map_of_mem hl) hz
  | child hl hz habove hpath ih =>
    obtain ⟨h, w, own, hp, hown, hr⟩ := habove.status_eq
    rw [hr] at hs
    cases hs
    rw [← Block.ownWork_eq hown]
    refine .child (List.mem_map_of_mem hl) hz ?_ (ih hp)
    rw [← ho.hash_eq _ hpath.mem_links]
    exact habove.hash_eq

theorem Sound.status_of_rooted (ha : a.Sound) {block : Block} {height : Nat} {work : Work}
    (h : Rooted a.blocks block height work) (hl : l ∈ a.links) (hb : l.block = block) :
    l.status = .resolved height work := by
  induction h generalizing l with
  | root _ hz =>
    subst hb
    exact ha.chained.root l hl hz
  | child hmem hz hparent hroot ih =>
    subst hb
    obtain ⟨p, hp, hpb⟩ := List.mem_map.mp hroot.mem
    have hps := ih hp hpb
    have hph : p.hash = l.parentHash := by
      rw [ha.ordered.hash_eq p hp, hpb, hparent]
      rfl
    -- the parent is resolved, and no orphan stands on a resolved link
    have hr : l.isResolved := by
      rw [← Link.isOrphan_eq_false_iff]
      by_contra horphan
      have hpo := ha.chained.waits l hl (by simpa using horphan) p hp hph
      rw [Link.isOrphan_iff.mp hpo] at hps
      cases hps
    obtain ⟨q, hq, habove⟩ := ha.chained.stands l hl hr hz
    have hqp : q = p := ha.ordered.eq_of_hash hq hp (habove.hash_eq.trans hph.symm)
    subst hqp
    obtain ⟨h, w, own, hqs, hown, hls⟩ := habove.status_eq
    rw [hps] at hqs
    cases hqs
    rw [hls, Block.ownWork_eq hown]

/-- A link is resolved, at a height and with a work, if and only if the stored blocks
lead down from its own that way. -/
theorem Sound.status_iff_rooted (ha : a.Sound) (hl : l ∈ a.links) {height : Nat} {work : Work} :
    l.status = .resolved height work ↔ Rooted a.blocks l.block height work := by
  constructor
  · intro hs
    obtain ⟨path, hpath⟩ :=
      ha.chained.exists_lineage hl (Link.isResolved_iff.mpr ⟨height, work, hs⟩)
    exact hpath.rooted hs ha.ordered
  · intro h
    exact ha.status_of_rooted h hl rfl

theorem Sound.status_eq_of_blocks {c : Arena} (ha : a.Sound) (hc : c.Sound)
    (hsub : a.blocks ⊆ c.blocks) (hsub' : c.blocks ⊆ a.blocks) {m : Link} (hl : l ∈ a.links)
    (hm : m ∈ c.links) (hb : l.block = m.block) : l.status = m.status := by
  cases hs : l.status with
  | resolved height work =>
    have hrooted := (ha.status_iff_rooted hl).mp hs
    exact (hc.status_of_rooted (hrooted.mono hsub) hm hb.symm).symm
  | orphan =>
    cases hs' : m.status with
    | orphan => rfl
    | resolved height work =>
      have hrooted := (hc.status_iff_rooted hm).mp hs'
      rw [ha.status_of_rooted (hrooted.mono hsub') hl hb] at hs
      cases hs

end Arena

/-- The settings do not keep the block from being the first one. -/
def ConsensusConfig.admits (config : ConsensusConfig) (block : Block) : Bool :=
  !block.prevHash.isZero || config.genesisHash?.all (· == block.hash)

namespace Node

variable {x y z : Node Arena} {d : Delivery} {ds : List Delivery} {block : Block}
  {change? : Option BranchChange} {changes : List BranchChange}

theorem excess_eq_zero (hx : x.Sound)
    (hlen : x.store.blocks.length + 1 ≤ x.engine.config.maxOrphans) : x.excess = 0 := by
  have horphans : x.engine.orphans.length ≤ x.store.blocks.length := by
    rw [hx.queue, List.length_map, Arena.blocks, List.length_map]
    exact List.length_filter_le _ _
  unfold excess
  omega

theorem Sound.blocks_taken (hx : x.Sound) (hf : x.Fresh block)
    (hlen : x.store.blocks.length + 1 ≤ x.engine.config.maxOrphans) :
    (x.taken block).store.blocks = x.store.blocks ++ [block] := by
  have hcleared : x.cleared (x.store.place block) = x := by
    cases x.store.place block with
    | resolved => rfl
    | orphan => rw [Node.cleared, excess_eq_zero hx hlen, evict_zero]
  have hfiles := hx.files_taken hf
  rw [hcleared] at hfiles
  rw [Node.taken, hcleared]
  exact hfiles.blocks_file hx.arena.ordered

theorem admits_iff {config : ConsensusConfig} : config.admits block ↔
    (block.prevHash.isZero → ∀ g, config.genesisHash? = some g → g = block.hash) := by
  cases hz : block.prevHash.isZero <;> cases hg : config.genesisHash? <;>
    simp [ConsensusConfig.admits, hz, hg]

/-- An acceptable new block is only refused for another block without a parent. -/
theorem Sound.granted (hx : x.Sound) {now : Int}
    (hvalid : ∃ work, validate now x.engine.config.maxFutureDrift block = .ok work)
    (hnew : block.hash ∉ x.store.blocks.map Block.hash)
    (hadmits : x.engine.config.admits block)
    (hfirst : block.prevHash.isZero → ∀ earlier ∈ x.store.blocks, ¬ earlier.prevHash.isZero) :
    x.refusal? now block = none := by
  refine refusal?_eq_none.mpr ⟨hvalid, ?_, fun hz => ?_⟩
  · by_contra hknown
    exact hnew (hx.arena.ordered.mem_hash_blocks.mpr hknown)
  · rw [genesisFault?_of_expected (admits_iff.mp hadmits hz), Option.map_eq_none_iff]
    cases hg : x.store.genesis? with
    | none => rfl
    | some g =>
      obtain ⟨l, hl, -, hlg⟩ := hx.arena.pointed.genesis_mem g hg
      have hlz := hx.arena.chained.isZero_of_isGenesis hl hlg
      exact absurd hlz (hfirst hz l.block (List.mem_map_of_mem hl))

theorem Receives.blocks (h : x.Receives False d change? y) (hx : x.Sound)
    (hvalid : ∃ work, validate d.now x.engine.config.maxFutureDrift d.block = .ok work)
    (hnew : d.block.hash ∉ x.store.blocks.map Block.hash)
    (hfirst : x.engine.config.admits d.block → d.block.prevHash.isZero →
      ∀ earlier ∈ x.store.blocks, ¬ earlier.prevHash.isZero)
    (hlen : x.store.blocks.length + 1 ≤ x.engine.config.maxOrphans) :
    y.store.blocks = x.store.blocks ++ [d.block].filter x.engine.config.admits ∧
      y.engine.config = x.engine.config := by
  cases h with
  | aborted hF => exact hF.elim
  | refused hrefused =>
    have hnot : ¬ x.engine.config.admits d.block := by
      intro hadmits
      rw [hx.granted hvalid hnew hadmits (hfirst hadmits)] at hrefused
      cases hrefused
    exact ⟨by simp [noted, hnot], rfl⟩
  | submitted ho =>
    have hf := hx.fresh ho.admitted
    have hadmits : x.engine.config.admits d.block := admits_iff.mpr hf.expected
    refine ⟨?_, ?_⟩
    · rw [ho.settles.store_eq, hx.blocks_taken hf hlen]
      simp [hadmits]
    · rw [ho.settles.config_eq, config_taken]

/-- All acceptable blocks are stored in the end, and nothing else is. -/
theorem ReceivesAll.blocks (h : x.ReceivesAll False ds changes y) (hx : x.Sound)
    (hvalid : ∀ d ∈ ds, ∃ work,
      validate d.now x.engine.config.maxFutureDrift d.block = .ok work)
    (hnodup : ((x.store.blocks ++ ds.map Delivery.block).map Block.hash).Nodup)
    (hfirst : ∀ block ∈ x.store.blocks ++ (ds.map Delivery.block).filter x.engine.config.admits,
      ∀ other ∈ x.store.blocks ++ (ds.map Delivery.block).filter x.engine.config.admits,
        block.prevHash.isZero → other.prevHash.isZero → block = other)
    (hlen : x.store.blocks.length + ds.length ≤ x.engine.config.maxOrphans) :
    y.store.blocks =
      x.store.blocks ++ (ds.map Delivery.block).filter x.engine.config.admits := by
  induction h with
  | done => simp
  | @next x y z d ds change? changes hstep _ ih =>
    have hnew : d.block.hash ∉ x.store.blocks.map Block.hash := by
      rw [List.map_append, List.nodup_append] at hnodup
      intro hmem
      exact hnodup.2.2 _ hmem _ (by simp) rfl
    have hfirst' : x.engine.config.admits d.block → d.block.prevHash.isZero →
        ∀ earlier ∈ x.store.blocks, ¬ earlier.prevHash.isZero := by
      intro hadmits hz earlier hearlier hze
      have hsame := hfirst earlier (by simp [hearlier]) d.block (by simp [hadmits]) hze hz
      exact hnew (hsame ▸ List.mem_map_of_mem hearlier)
    rw [List.length_cons] at hlen
    obtain ⟨hblocks, hconfig⟩ :=
      hstep.blocks hx (hvalid d (by simp)) hnew hfirst' (by omega)
    have hfilter : y.store.blocks ++ (ds.map Delivery.block).filter y.engine.config.admits =
        x.store.blocks ++
          ((d :: ds).map Delivery.block).filter x.engine.config.admits := by
      rw [hblocks, hconfig, List.append_assoc, List.map_cons, ← List.filter_append,
        List.singleton_append]
    rw [← hfilter] at hfirst ⊢
    refine ih (hstep.sound hx).1 ?_ ?_ hfirst ?_
    · rw [hconfig]
      exact fun e he => hvalid e (by simp [he])
    · rw [hblocks, List.append_assoc]
      refine hnodup.sublist (List.Sublist.map _ (List.Sublist.append_left ?_ _))
      rw [List.map_cons, ← List.singleton_append]
      exact (List.filter_sublist).append_right _
    · have hone : ([d.block].filter x.engine.config.admits).length ≤ 1 :=
        List.length_filter_le _ _
      rw [hconfig, hblocks, List.length_append]
      omega

end Node

end BlockTree
