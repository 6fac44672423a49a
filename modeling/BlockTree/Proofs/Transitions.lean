import BlockTree.Proofs.Cascade
import BlockTree.Proofs.Faithful

/-! What can become of a node when a block is handed in: it is noted as refused, the
oldest orphans are dropped, a link is filed, the tip moves. A sound node stays sound. -/

namespace BlockTree

def Arena.place (a : Arena) (block : Block) : LinkStatus :=
  if block.prevHash.isZero then .resolved 0 0
  else
    match (a.find? block.prevHash).map Link.status with
    | some (.resolved height work) => .resolved (height + 1) (work + block.ownWork)
    | _ => .orphan

def Arena.bestLink? (a : Arena) : Option Link :=
  a.best?.bind a.find?

def Arena.promotions (a : Arena) (block : Block) : LinkStatus → List Link
  | .resolved height work => a.plan ⟨block.hash, height, work⟩
  | .orphan => []

namespace Arena

theorem Sound.bestLink?_iff {a : Arena} (ha : a.Sound) {l : Link} :
    a.bestLink? = some l ↔ a.IsBest l :=
  ha.pointed.best_iff ha.ordered

theorem Sound.bestLink?_eq_some {a : Arena} (ha : a.Sound) {l : Link} (h : a.bestLink? = some l) :
    a.IsBest l :=
  ha.bestLink?_iff.mp h

theorem Sound.bestLink?_eq_none {a : Arena} (ha : a.Sound) (h : a.bestLink? = none) :
    ∀ l ∈ a.links, l.isOrphan :=
  (ha.pointed.best_eq_none_iff ha.ordered).mp h

end Arena

namespace Node

/-- The engine knows what the store holds: its queue lists the orphans, and its tip
is a resolved link. -/
structure Sound (x : Node Arena) : Prop where
  arena : x.store.Sound
  queue : x.engine.orphans = x.store.orphans.map Link.hash
  tip : ∀ t, x.engine.tip? = some t → t ∈ x.store.links ∧ t.isResolved
  cap : 1 ≤ x.engine.config.maxOrphans

def genesisFault? (x : Node Arena) (hash : Hash) : Option GenesisFault :=
  let known? := (x.store.genesis?.bind x.store.find?).map fun l => .alreadyStored l.hash
  match x.engine.config.genesisHash? with
  | some expected => if expected ≠ hash then some (.unexpected expected hash) else known?
  | none => known?

/-- Why a block is not taken in, if it is not. -/
def refusal? (x : Node Arena) (now : Int) (block : Block) : Option Error :=
  match validate now x.engine.config.maxFutureDrift block with
  | .error e => some (.validation e)
  | .ok _ =>
    if (x.store.find? block.hash).isSome then some (.duplicateLink block.hash)
    else if block.prevHash.isZero then
      (x.genesisFault? block.hash).map fun fault => .validation (.invalidGenesis fault)
    else none

def noted (x : Node Arena) (e : Error) : Node Arena :=
  let m := x.engine.metrics
  let metrics :=
    match e with
    | .validation _ => { m with rejected := m.rejected + 1 }
    | .duplicateLink _ => { m with duplicate := m.duplicate + 1 }
    | _ => m
  { x with engine := { x.engine with metrics := metrics } }

def evict (x : Node Arena) (k : Nat) : Node Arena where
  engine := { x.engine with
    orphans := x.engine.orphans.drop k
    metrics := { x.engine.metrics with evicted := x.engine.metrics.evicted + k } }
  store := x.store.drop (x.engine.orphans.take k)

/-- How many orphans are too many for one more. -/
def excess (x : Node Arena) : Nat :=
  x.engine.orphans.length + 1 - x.engine.config.maxOrphans

def surplus (x : Node Arena) : LinkStatus → Nat
  | .resolved .. => 0
  | .orphan => x.excess

def cleared (x : Node Arena) : LinkStatus → Node Arena
  | .resolved .. => x
  | .orphan => x.evict x.excess

def recorded (e : Engine) (link : Link) (promoted : List Hash) : Engine :=
  let m := e.metrics
  let orphans :=
    if link.isOrphan then e.orphans ++ [link.hash] else e.orphans.filter fun h => h ∉ promoted
  let metrics :=
    if link.isOrphan then { m with orphaned := m.orphaned + 1 }
    else { m with accepted := m.accepted + 1, promoted := m.promoted + promoted.length }
  { e with
    orphans := orphans
    metrics := { metrics with orphanCount := orphans.length } }

def filed (x : Node Arena) (link : Link) (promoted : List Link) : Node Arena where
  engine := recorded x.engine link (promoted.map Link.hash)
  store := x.store.file link promoted

/-- The node after a block was taken in, with the tip still as it was. -/
def taken (x : Node Arena) (block : Block) : Node Arena :=
  let status := x.store.place block
  (x.cleared status).filed (.make block status) (x.store.promotions block status)

def announced (x : Node Arena) (change : BranchChange) : Node Arena :=
  let m := x.engine.metrics
  { x with engine := { x.engine with
      tip? := some change.new
      events := x.engine.events.publish change
      metrics := { m with
        reorgs := if change.isReorg then m.reorgs + 1 else m.reorgs
        tipHeight := gauge (change.new.height?.getD 0) } } }

variable {x : Node Arena} {block : Block} {now : Int}

theorem sound_noted (hx : x.Sound) (e : Error) : (x.noted e).Sound :=
  ⟨hx.arena, hx.queue, hx.tip, hx.cap⟩

theorem Sound.orphan_of_queued (hx : x.Sound) {l : Link} (hl : l ∈ x.store.links)
    (hq : l.hash ∈ x.engine.orphans) : l.isOrphan := by
  rw [hx.queue] at hq
  obtain ⟨o, ho, he⟩ := List.mem_map.mp hq
  obtain ⟨hmem, horphan⟩ := List.mem_filter.mp ho
  rwa [hx.arena.ordered.eq_of_hash hl hmem he.symm]

theorem Sound.evict (hx : x.Sound) (k : Nat) : (x.evict k).Sound := by
  have horphan : ∀ l ∈ x.store.links, l.hash ∈ x.engine.orphans.take k → l.isOrphan :=
    fun l hl hm => hx.orphan_of_queued hl (List.mem_of_mem_take hm)
  refine ⟨⟨hx.arena.ordered.drop _, hx.arena.pointed.drop horphan,
    hx.arena.chained.drop horphan⟩, ?_, ?_, hx.cap⟩
  · change x.engine.orphans.drop k = (x.store.drop (x.engine.orphans.take k)).orphans.map Link.hash
    rw [hx.queue, hx.arena.ordered.orphans_drop_take, List.map_drop]
  · intro t ht
    obtain ⟨hmem, hr⟩ := hx.tip t ht
    refine ⟨Arena.mem_drop.mpr ⟨hmem, fun hm => ?_⟩, hr⟩
    have := horphan t hmem hm
    simp [Link.isResolved, this] at hr

theorem evict_zero (x : Node Arena) : x.evict 0 = x := by
  simp [evict]

theorem evict_evict (x : Node Arena) (j k : Nat) : (x.evict j).evict k = x.evict (j + k) := by
  simp only [evict, Arena.drop_drop, List.drop_drop, List.take_add, Nat.add_assoc]

theorem Sound.mem_evict (hx : x.Sound) {k : Nat} {l : Link} (hr : l.isResolved) :
    l ∈ (x.evict k).store.links ↔ l ∈ x.store.links := by
  refine Arena.mem_drop.trans ⟨And.left, fun hl => ⟨hl, fun hm => ?_⟩⟩
  have := hx.orphan_of_queued hl (List.mem_of_mem_take hm)
  simp [Link.isResolved, this] at hr

theorem Sound.cleared (hx : x.Sound) (status : LinkStatus) : (x.cleared status).Sound := by
  cases status with
  | orphan => exact hx.evict _
  | resolved => exact hx

theorem nextSeq_cleared (x : Node Arena) (status : LinkStatus) :
    (x.cleared status).store.nextSeq = x.store.nextSeq := by
  cases status <;> rfl

theorem validate_eq_ok {drift : Int} {work : Work} : validate now drift block = .ok work ↔
    Validation.checkTransactions block = .ok () ∧ Validation.checkMerkleRoot block = .ok () ∧
      Validation.checkWork block = .ok work ∧
      Validation.checkTimestamp now drift block = .ok () := by
  unfold validate
  cases ht : Validation.checkTransactions block with
  | error e => simp [bind, Except.bind]
  | ok u =>
    cases hm : Validation.checkMerkleRoot block with
    | error e => simp [bind, Except.bind]
    | ok u =>
      cases hw : Validation.checkWork block with
      | error e => simp [bind, Except.bind]
      | ok w =>
        cases hs : Validation.checkTimestamp now drift block with
        | error e => simp [bind, Except.bind]
        | ok u => simp [bind, Except.bind, pure, Except.pure]

theorem validate_work {drift : Int} {work : Work} (h : validate now drift block = .ok work) :
    Work.ofBits block.header.bits = .ok work := by
  obtain ⟨-, -, hw, -⟩ := validate_eq_ok.mp h
  unfold Validation.checkWork at hw
  cases hmet : Target.isMetBy block.header.bits block.hash with
  | error fault => simp [hmet] at hw
  | ok met =>
    cases met with
    | false => simp [hmet] at hw
    | true =>
      cases hb : Work.ofBits block.header.bits with
      | error fault => simp [hmet, hb] at hw
      | ok own => simpa [hmet, hb] using hw

/-- Time is never against a block that was acceptable before. -/
theorem validate_later {later drift : Int} {work : Work}
    (h : validate now drift block = .ok work) (hle : now ≤ later) :
    validate later drift block = .ok work := by
  obtain ⟨ht, hm, hw, hs⟩ := validate_eq_ok.mp h
  refine validate_eq_ok.mpr ⟨ht, hm, hw, ?_⟩
  have hlatest : Validation.latestTime now drift ≤ Validation.latestTime later drift := by
    unfold Validation.latestTime
    omega
  unfold Validation.checkTimestamp at hs ⊢
  by_cases hlate : Validation.latestTime now drift < block.header.timestamp.toInt
  · simp [hlate] at hs
  · have hnot : ¬ Validation.latestTime later drift < block.header.timestamp.toInt := by omega
    simp [hnot]

structure Fresh (x : Node Arena) (block : Block) : Prop where
  valid : ∃ own, Work.ofBits block.header.bits = .ok own
  unknown : x.store.find? block.hash = none
  first : block.prevHash.isZero → x.store.genesis? = none
  expected : block.prevHash.isZero → ∀ g, x.engine.config.genesisHash? = some g → g = block.hash

theorem genesisFault?_eq_none {hash : Hash} (h : x.genesisFault? hash = none) :
    (∀ g, x.engine.config.genesisHash? = some g → g = hash) ∧
      x.store.genesis?.bind x.store.find? = none := by
  unfold genesisFault? at h
  cases hg : x.engine.config.genesisHash? with
  | none => exact ⟨by simp, by simpa [hg] using h⟩
  | some expected =>
    by_cases he : expected = hash
    · subst he
      exact ⟨by simp, by simpa [hg] using h⟩
    · simp [hg, he] at h

theorem Sound.genesis?_eq_none (hx : x.Sound) (h : x.store.genesis?.bind x.store.find? = none) :
    x.store.genesis? = none := by
  cases hg : x.store.genesis? with
  | none => rfl
  | some g =>
    obtain ⟨l, hl, rfl, -⟩ := hx.arena.pointed.genesis_mem g hg
    rw [hg, Option.bind_some, hx.arena.ordered.find?_mem hl] at h
    exact absurd h (by simp)

theorem refusal?_eq_none : x.refusal? now block = none ↔
    (∃ work, validate now x.engine.config.maxFutureDrift block = .ok work) ∧
      x.store.find? block.hash = none ∧
        (block.prevHash.isZero → x.genesisFault? block.hash = none) := by
  unfold refusal?
  cases hv : validate now x.engine.config.maxFutureDrift block with
  | error e => simp
  | ok work =>
    cases hf : x.store.find? block.hash with
    | some l => simp
    | none =>
      by_cases hz : block.prevHash.isZero
      · simp [hz]
      · simp [hz]

theorem Sound.fresh (hx : x.Sound) (h : x.refusal? now block = none) : x.Fresh block := by
  obtain ⟨⟨work, hv⟩, hunknown, hgenesis⟩ := refusal?_eq_none.mp h
  exact ⟨⟨work, validate_work hv⟩, hunknown,
    fun hz => hx.genesis?_eq_none (genesisFault?_eq_none (hgenesis hz)).2,
    fun hz => (genesisFault?_eq_none (hgenesis hz)).1⟩

theorem Sound.place_cases (hx : x.Sound) (hf : x.Fresh block) :
    (block.prevHash.isZero ∧ x.store.place block = .resolved 0 0) ∨
    (block.prevHash.isZero = false ∧ ∃ p ∈ x.store.links,
      (Link.make block (x.store.place block)).Above p) ∨
    (block.prevHash.isZero = false ∧ x.store.place block = .orphan ∧
      ∀ p ∈ x.store.links, p.hash = block.prevHash → p.isOrphan) := by
  obtain ⟨own, hown⟩ := hf.valid
  by_cases hz : block.prevHash.isZero
  · exact .inl ⟨hz, by simp [Arena.place, hz]⟩
  · have hz : block.prevHash.isZero = false := by simpa using hz
    refine .inr ?_
    cases hp : x.store.find? block.prevHash with
    | none =>
      refine .inr ⟨hz, by simp [Arena.place, hz, hp], ?_⟩
      intro p hmem he
      exact absurd he (Arena.find?_eq_none.mp hp p hmem)
    | some p =>
      obtain ⟨hmem, he⟩ := Arena.mem_of_find? hp
      cases hs : p.status with
      | orphan =>
        refine .inr ⟨hz, by simp [Arena.place, hz, hp, hs], ?_⟩
        intro q hq hqe
        rw [hx.arena.ordered.eq_of_hash hq hmem (hqe.trans he.symm)]
        exact Link.isOrphan_iff.mpr hs
      | resolved h w =>
        refine .inl ⟨hz, p, hmem, he, h, w, own, hs, hown, ?_⟩
        simp [Link.make, Arena.place, hz, hp, hs, Block.ownWork_eq hown]

theorem mem_of_mem_cleared {status : LinkStatus} {l : Link}
    (h : l ∈ (x.cleared status).store.links) : l ∈ x.store.links := by
  cases status with
  | resolved => exact h
  | orphan => exact (Arena.mem_drop.mp h).1

theorem Fresh.find?_cleared (hf : x.Fresh block) (status : LinkStatus) :
    (x.cleared status).store.find? block.hash = none := by
  rw [Arena.find?_eq_none]
  intro l hl
  exact Arena.find?_eq_none.mp hf.unknown l (mem_of_mem_cleared hl)

theorem genesis?_cleared (x : Node Arena) (status : LinkStatus) :
    (x.cleared status).store.genesis? = x.store.genesis? := by
  cases status <;> rfl

theorem Sound.files_taken (hx : x.Sound) (hf : x.Fresh block) :
    (x.cleared (x.store.place block)).store.Files (.make block (x.store.place block))
      (x.store.promotions block (x.store.place block)) where
  fresh := hf.find?_cleared _
  hash_eq := rfl
  first hg := by
    rw [genesis?_cleared]
    rcases hx.place_cases hf with ⟨hz, -⟩ | ⟨-, p, -, habove⟩ | ⟨-, hs, -⟩
    · exact hf.first hz
    · rw [habove.isGenesis] at hg
      exact absurd hg (by simp)
    · rw [hs] at hg
      exact absurd hg (by simp [Link.make, Link.isGenesis, Link.height?, LinkStatus.height?])
  replaces u hu := by
    cases hs : x.store.place block with
    | orphan => simp [hs, Arena.promotions] at hu
    | resolved h w =>
      rw [hs] at hu
      exact hx.arena.ordered.cascade_replaces hu
  lifted u hu := by
    cases hs : x.store.place block with
    | orphan => simp [hs, Arena.promotions] at hu
    | resolved h w =>
      rw [hs] at hu
      obtain ⟨k, -, hu⟩ := Arena.mem_cascade.mp hu
      obtain ⟨y, -, o, -, -, -, rfl⟩ := Arena.mem_generation.mp hu
      exact ⟨rfl, by simp [Anchor.lift, Link.resolved, Link.make, Link.withSeq, Link.isGenesis,
        Link.height?, LinkStatus.height?]⟩
  nodup := by
    cases hs : x.store.place block with
    | orphan => simp [Arena.promotions]
    | resolved h w => exact hx.arena.ordered.nodup_cascade hf.unknown _

theorem Sound.chained_taken (hx : x.Sound) (hf : x.Fresh block) :
    (x.taken block).store.Chained := by
  have hfiles := hx.files_taken hf
  rcases hx.place_cases hf with ⟨hz, hs⟩ | ⟨hz, p, hp, habove⟩ | ⟨hz, hs, hparent⟩
  · change ((x.cleared (x.store.place block)).store.file _ _).Chained
    rw [hs] at hfiles ⊢
    exact hx.arena.chained.file hx.arena.ordered hfiles
      (hx.arena.ordered.cascades hx.arena.chained rfl hf.unknown (.inl ⟨hz, rfl⟩) hf.valid)
  · change ((x.cleared (x.store.place block)).store.file _ _).Chained
    obtain ⟨h, w, hs⟩ := Link.isResolved_iff.mp habove.resolved
    have hs : x.store.place block = .resolved h w := hs
    rw [hs] at hfiles habove ⊢
    exact hx.arena.chained.file hx.arena.ordered hfiles
      (hx.arena.ordered.cascades hx.arena.chained rfl hf.unknown (.inr ⟨hz, p, hp, habove⟩)
        hf.valid)
  · change ((x.cleared (x.store.place block)).store.file _ _).Chained
    rw [hs] at hfiles ⊢
    have hc := (hx.cleared .orphan).arena
    exact hc.chained.file_orphan hc.ordered hfiles rfl hz
      (fun p hp he => hparent p (Arena.mem_drop.mp hp).1 he) hf.valid

theorem Sound.taken (hx : x.Sound) (hf : x.Fresh block) : (x.taken block).Sound := by
  have hfiles := hx.files_taken hf
  have hc := hx.cleared (x.store.place block)
  refine ⟨⟨hfiles.ordered hc.arena.ordered, hfiles.pointed hc.arena.ordered hc.arena.pointed,
    hx.chained_taken hf⟩, ?_, ?_, hc.cap⟩
  · change (recorded _ _ _).orphans = (Arena.file _ _ _).orphans.map Link.hash
    rw [hfiles.orphans_file, recorded, hc.queue]
    cases hs : x.store.place block with
    | orphan => simp [Link.make, Link.isOrphan, LinkStatus.isOrphan, Link.withSeq,
        Arena.promotions]
    | resolved h w =>
      rw [List.filter_map]
      simp [Link.make, Link.isOrphan, LinkStatus.isOrphan, Link.withSeq, Function.comp_def]
  · intro t ht
    obtain ⟨hmem, hr⟩ := hc.tip t ht
    exact ⟨hfiles.mem_file_of_isResolved hc.arena.ordered hmem hr, hr⟩

theorem Sound.announced (hx : x.Sound) {change : BranchChange} (hmem : change.new ∈ x.store.links)
    (hr : change.new.isResolved) : (x.announced change).Sound :=
  ⟨hx.arena, hx.queue, fun _ ht => Option.some.inj ht ▸ ⟨hmem, hr⟩, hx.cap⟩

theorem Sound.mem_taken (hx : x.Sound) (hf : x.Fresh block) {l : Link}
    (hl : l ∈ x.store.links) (hr : l.isResolved) : l ∈ (x.taken block).store.links := by
  have hcl : l ∈ (x.cleared (x.store.place block)).store.links := by
    cases x.store.place block with
    | resolved => exact hl
    | orphan => exact (hx.mem_evict hr).mpr hl
  exact (hx.files_taken hf).mem_file_of_isResolved (hx.cleared _).arena.ordered hcl hr

/-- A genesis link is the one that was there or the one that was expected. -/
theorem Sound.genesis_taken (hx : x.Sound) (hf : x.Fresh block) {l : Link}
    (hl : l ∈ (x.taken block).store.links) (hg : l.isGenesis) :
    l ∈ x.store.links ∨ ∀ g, x.engine.config.genesisHash? = some g → g = l.hash := by
  have hfiles := hx.files_taken hf
  rcases (hfiles.mem_file (hx.cleared _).arena.ordered).mp hl with hl | hl | ⟨hl, -⟩
  · subst hl
    rcases hx.place_cases hf with ⟨hz, -⟩ | ⟨-, p, -, habove⟩ | ⟨-, hs, -⟩
    · exact .inr (hf.expected hz)
    · rw [Link.isGenesis_withSeq, habove.isGenesis] at hg
      exact absurd hg (by simp)
    · rw [Link.isGenesis_withSeq, hs] at hg
      exact absurd hg (by simp [Link.make, Link.isGenesis, Link.height?, LinkStatus.height?])
  · rw [(hfiles.lifted l hl).2] at hg
    exact absurd hg (by simp)
  · exact .inl (mem_of_mem_cleared hl)

theorem Sound.bounded_taken (hx : x.Sound) (hf : x.Fresh block) :
    ∀ l ∈ Link.make block (x.store.place block) ::
      x.store.promotions block (x.store.place block),
      (x.cleared (x.store.place block)).store.Bounded l := by
  have hfiles := hx.files_taken hf
  have ho := (hx.cleared (x.store.place block)).arena.ordered
  have hc := (hx.taken hf).arena.chained
  have hbound {l : Link} (hl : l ∈ (x.taken block).store.links) :
      (x.cleared (x.store.place block)).store.Bounded l := by
    intro h w hs
    have hlt := hc.height_lt hl hs
    have hlen : (x.taken block).store.links.length =
        (x.cleared (x.store.place block)).store.links.length + 1 := Arena.Files.length_file
    have := List.length_filter_le Link.isResolved (x.taken block).store.links
    exact ⟨by omega, hc.work_le hl hs⟩
  intro l hl
  rcases List.mem_cons.mp hl with rfl | hl
  · have hmem : (Link.make block (x.store.place block)).withSeq
        (x.cleared (x.store.place block)).store.nextSeq ∈ (x.taken block).store.links :=
      (hfiles.mem_file ho).mpr (.inl rfl)
    exact fun h w hs => hbound hmem h w hs
  · exact hbound ((hfiles.mem_file ho).mpr (.inr (.inl hl)))

end Node

end BlockTree
