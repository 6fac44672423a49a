import BlockTree.Proofs.NodeContract
import BlockTree.Proofs.Transitions

/-! What handing in a block does to a node. A block is vetted, deposited with the
orphans that it completes, and then the tip moves. A failing call stops this at one
point, and what came before stays. -/

namespace BlockTree.Node

section Phases

variable {σ : Type} [Store σ]

def checkUnrooted : NodeM σ Unit := do
  match ← request .genesisLink with
  | some existing => reject (.invalidGenesis (.alreadyStored existing.hash))
  | none => return ()

/-- The checks of a block, which end with its place in the tree. -/
def vet (now : Int) (block : Block) : NodeM σ LinkStatus := do
  let work ←
    match validate now (← get).engine.config.maxFutureDrift block with
    | .ok work => pure work
    | .error e => reject e
  if (← request (.getLink block.hash)).isSome then
    modifyMetrics fun m => { m with duplicate := m.duplicate + 1 }
    throw (.duplicateLink block.hash)
  position block work

/-- The write of a block, with all that is done for it. -/
def deposit (block : Block) (status : LinkStatus) : NodeM σ (Link × List Hash) := do
  let promotions ← prepare block.hash status
  let link := Link.make block status
  let stored ←
    if link.isOrphan then request (.addLink link)
    else request (.addAndPromote link promotions)
  recordFiled stored (promotions.map Link.hash)
  return (stored, promotions.map Link.hash)

theorem submit_eq (now : Int) (block : Block) : submit (σ := σ) now block = (do
    let status ← vet now block
    let (stored, promoted) ← deposit block status
    let change? ← updateTip
    return ⟨block.hash, stored.status, promoted, change?⟩) := by
  unfold submit vet deposit
  simp only [bind_assoc]
  congr 1
  funext n
  cases validate now n.engine.config.maxFutureDrift block with
  | error e => rfl
  | ok work =>
    simp only [pure_bind, bind_assoc]
    congr 1
    funext l?
    cases hl : l?.isSome with
    | true => rfl
    | false =>
      simp only [Bool.false_eq_true, if_false]
      congr 1
      funext status
      congr 1
      funext promotions
      cases (Link.make block status).isOrphan <;> simp [bind_assoc]

end Phases

variable {σ : Type} [Medium σ] [Faithful σ] {F : Prop} {x : Node Arena} {now : Int} {block : Block}

theorem ends_reject {α : Type} (e : ValidationError) :
    Ends (Node.Shows (σ := σ) F) (reject (α := α) e) x (fun _ _ => False)
      fun e' y => e' = .validation e ∧ y = x.noted (.validation e) :=
  Ends.bind (Ends.modifyMetrics (Ends.throw ⟨rfl, rfl⟩))

theorem reads_request {α : Type} {v : α} (hx : x.Sound) (call : Call α)
    (hp : x.store.Promised (Faithful.fits σ) call)
    (he : Arena.answer call x.store = .ok v x.store) :
    Node.Reads (σ := σ) F (request call) x (· = v) :=
  .of_store (.ask hx.arena hp he rfl)

theorem ends_checkUnrooted (hx : x.Sound) :
    Ends (Node.Shows (σ := σ) F) checkUnrooted x
      (fun _ y => y = x ∧ x.store.genesis?.bind x.store.find? = none)
      fun e y => y = x.noted e ∧ ((∃ l, x.store.genesis?.bind x.store.find? = some l ∧
        e = .validation (.invalidGenesis (.alreadyStored l.hash))) ∨
          F ∧ e = Unreliable.failure) := by
  refine (reads_request hx .genesisLink trivial rfl).ends ?_ fun hF => ⟨rfl, .inr ⟨hF, rfl⟩⟩
  intro v hv
  subst hv
  cases hl : x.store.genesis?.bind x.store.find? with
  | none => exact Ends.pure ⟨rfl, rfl⟩
  | some l =>
    refine (ends_reject _).mono (fun _ _ h => h.elim) ?_
    intro e y h
    obtain ⟨he, hy⟩ := h
    subst he hy
    exact ⟨rfl, .inl ⟨l, rfl, rfl⟩⟩

/-- The expected hash is the block's own, so only the store can have something against it. -/
theorem genesisFault?_of_expected {hash : Hash}
    (h : ∀ g, x.engine.config.genesisHash? = some g → g = hash) :
    x.genesisFault? hash =
      (x.store.genesis?.bind x.store.find?).map fun l => .alreadyStored l.hash := by
  unfold genesisFault?
  cases hg : x.engine.config.genesisHash? with
  | none => rfl
  | some g => simp [h g hg]

theorem ends_checkGenesis (hx : x.Sound) (hash : Hash) :
    Ends (Node.Shows (σ := σ) F) (checkGenesis hash) x
      (fun _ y => y = x ∧ x.genesisFault? hash = none)
      fun e y => y = x.noted e ∧ ((∃ fault, x.genesisFault? hash = some fault ∧
        e = .validation (.invalidGenesis fault)) ∨ F ∧ e = Unreliable.failure) := by
  have hrest : (∀ g, x.engine.config.genesisHash? = some g → g = hash) →
      Ends (Node.Shows (σ := σ) F) checkUnrooted x
      (fun _ y => y = x ∧ x.genesisFault? hash = none)
      fun e y => y = x.noted e ∧ ((∃ fault, x.genesisFault? hash = some fault ∧
        e = .validation (.invalidGenesis fault)) ∨ F ∧ e = Unreliable.failure) := by
    intro hexpected
    rw [genesisFault?_of_expected hexpected]
    refine (ends_checkUnrooted hx).mono ?_ ?_
    · intro _ y h
      exact ⟨h.1, by rw [h.2, Option.map_none]⟩
    · intro e y h
      refine ⟨h.1, h.2.imp_left ?_⟩
      intro hstored
      obtain ⟨l, hl, he⟩ := hstored
      exact ⟨_, by rw [hl, Option.map_some], he⟩
  unfold checkGenesis
  refine Ends.get fun n hn => ?_
  rw [hn.1]
  cases hg : x.engine.config.genesisHash? with
  | none => exact hrest (by simp [hg])
  | some expected =>
    by_cases he : expected = hash
    · subst he
      simp only [ne_eq, not_true_eq_false, if_false]
      exact hrest (by simp [hg])
    · simp only [ne_eq, he, not_false_eq_true, if_true]
      refine Ends.bind ((ends_reject _).mono (fun _ _ h => h.elim) ?_)
      intro e y h
      obtain ⟨he', hy⟩ := h
      subst he' hy
      exact ⟨rfl, .inl ⟨_, by simp [genesisFault?, hg, he], rfl⟩⟩

theorem ends_position (hx : x.Sound) {own : Work} (hown : Work.ofBits block.header.bits = .ok own) :
    Ends (Node.Shows (σ := σ) F) (position block own) x
      (fun status y => y = x ∧ status = x.store.place block ∧
        (block.prevHash.isZero → x.genesisFault? block.hash = none))
      fun e y => y = x.noted e ∧ ((∃ fault, block.prevHash.isZero ∧
        x.genesisFault? block.hash = some fault ∧ e = .validation (.invalidGenesis fault)) ∨
          F ∧ e = Unreliable.failure) := by
  unfold position
  by_cases hz : block.prevHash.isZero
  · simp only [hz, if_true]
    refine Ends.bind ((ends_checkGenesis hx block.hash).mono ?_ ?_)
    · intro _ y h
      obtain ⟨hy, hnone⟩ := h
      subst hy
      exact Ends.pure ⟨rfl, by simp [Arena.place, hz], fun _ => hnone⟩
    · intro e y h
      obtain ⟨hy, h⟩ := h
      refine ⟨hy, h.imp_left ?_⟩
      intro h
      obtain ⟨fault, hfault, he⟩ := h
      exact ⟨fault, trivial, hfault, he⟩
  · simp only [hz]
    refine (reads_request hx (.getLink block.prevHash) trivial rfl).ends ?_
      fun hF => ⟨rfl, .inr ⟨hF, rfl⟩⟩
    intro v hv
    subst hv
    cases hp : (x.store.find? block.prevHash).map Link.status with
    | none => exact Ends.pure ⟨rfl, by simp [Arena.place, hz, hp], by simp⟩
    | some status =>
      cases status with
      | orphan => exact Ends.pure ⟨rfl, by simp [Arena.place, hz, hp], by simp⟩
      | resolved height work =>
        exact Ends.pure ⟨rfl, by simp [Arena.place, hz, hp, Block.ownWork_eq hown], by simp⟩

theorem ends_vet (hx : x.Sound) :
    Ends (Node.Shows (σ := σ) F) (vet now block) x
      (fun status y => y = x ∧ status = x.store.place block ∧ x.refusal? now block = none)
      fun e y => y = x.noted e ∧ (x.refusal? now block = some e ∨ F ∧ e = Unreliable.failure) := by
  unfold vet
  refine Ends.get fun n hn => ?_
  rw [hn.1]
  cases hv : validate now x.engine.config.maxFutureDrift block with
  | error e =>
    refine Ends.bind ((ends_reject e).mono (fun _ _ h => h.elim) ?_)
    intro e' y h
    obtain ⟨he, hy⟩ := h
    subst he hy
    exact ⟨rfl, .inl (by simp [refusal?, hv])⟩
  | ok own =>
    simp only [pure_bind]
    refine (reads_request hx (.getLink block.hash) trivial rfl).ends ?_
      fun hF => ⟨rfl, .inr ⟨hF, rfl⟩⟩
    intro v hv'
    subst hv'
    by_cases hs : (x.store.find? block.hash).isSome
    · simp only [hs, if_true]
      refine Ends.bind (Ends.modifyMetrics (Ends.throw ⟨rfl, .inl ?_⟩))
      simp [refusal?, hv, hs]
    · simp only [hs]
      refine (ends_position hx (validate_work hv)).mono ?_ ?_
      · intro status y h
        obtain ⟨hy, hst, hnone⟩ := h
        refine ⟨hy, hst, ?_⟩
        by_cases hz : block.prevHash.isZero
        · simp [refusal?, hv, hs, hz, hnone hz]
        · simp [refusal?, hv, hs, hz]
      · intro e y h
        obtain ⟨hy, h⟩ := h
        refine ⟨hy, h.imp_left ?_⟩
        intro h
        obtain ⟨fault, hz, hfault, he⟩ := h
        simp [refusal?, hv, hs, hz, hfault, he]

theorem Sound.find?_oldest (hx : x.Sound) {oldest : Hash} {rest : List Hash}
    (hq : x.engine.orphans = oldest :: rest) :
    ∃ l, x.store.find? oldest = some l ∧ l.isOrphan := by
  have hmem : oldest ∈ x.store.orphans.map Link.hash := by
    rw [← hx.queue, hq]
    exact List.mem_cons_self
  obtain ⟨l, hl, hh⟩ := List.mem_map.mp hmem
  obtain ⟨hlinks, ho⟩ := List.mem_filter.mp hl
  exact ⟨l, hh ▸ hx.arena.ordered.find?_mem hlinks, ho⟩

theorem excess_evict_one {oldest : Hash} {rest : List Hash}
    (hq : x.engine.orphans = oldest :: rest) (hle : x.engine.config.maxOrphans ≤ rest.length + 1) :
    x.excess = 1 + (x.evict 1).excess := by
  have hevict : (x.evict 1).engine.orphans = rest := by simp [evict, hq]
  have hconfig : (x.evict 1).engine.config = x.engine.config := rfl
  rw [excess, excess, hevict, hconfig, hq, List.length_cons]
  omega

theorem ends_evictFrom {queue : List Hash} (hx : x.Sound) (hq : x.engine.orphans = queue) :
    Ends (Node.Shows (σ := σ) F) (evictFrom queue) x (fun _ y => y = x.evict x.excess)
      fun e y => F ∧ e = Unreliable.failure ∧ ∃ k ≤ x.excess, y = x.evict k := by
  induction queue generalizing x with
  | nil =>
    have hnone : x.excess = 0 := by
      have := hx.cap
      rw [excess, hq, List.length_nil]
      omega
    exact Ends.pure (by rw [hnone, evict_zero])
  | cons oldest rest ih =>
    unfold evictFrom
    refine Ends.get fun n hn => ?_
    rw [hn.1]
    by_cases hroom : rest.length + 1 < x.engine.config.maxOrphans
    · have hnone : x.excess = 0 := by
        rw [excess, hq, List.length_cons]
        omega
      simp only [hroom, if_true]
      exact Ends.pure (by rw [hnone, evict_zero])
    · simp only [hroom, if_false]
      have hstep := excess_evict_one hq (by omega)
      obtain ⟨l, hl, ho⟩ := hx.find?_oldest hq
      have hanswer : Arena.answer (.removeOrphan oldest) x.store =
          .ok l (x.store.drop [oldest]) := by
        simp [Arena.answer, Arena.attempt, Arena.removeOrphan, hl, Link.isResolved, ho, Arena.drop]
      have htail : Ends (Node.Shows (σ := σ) F) (evictFrom rest) (x.evict 1)
          (fun _ y => y = x.evict x.excess)
          fun e y => F ∧ e = Unreliable.failure ∧ ∃ k ≤ x.excess, y = x.evict k := by
        refine (ih (hx.evict 1) (by simp [evict, hq])).mono ?_ ?_
        · intro _ y hy
          rw [hy, evict_evict, hstep]
        · intro e y h
          obtain ⟨hF, he, k, hk, hy⟩ := h
          exact ⟨hF, he, 1 + k, by omega, by rw [hy, evict_evict]⟩
      refine Ends.bind (Ends.attempt (Ends.onStore (Ends.ask hx.arena ⟨l, hl, ho⟩ hanswer ?_ ?_)))
      · refine Ends.bind (Ends.setOrphans (Ends.bind (Ends.modifyMetrics ?_)))
        have hone : x.evict 1 = { x with
            engine := { x.engine with
              orphans := rest
              metrics := { x.engine.metrics with evicted := x.engine.metrics.evicted + 1 } }
            store := x.store.drop [oldest] } := by
          simp [evict, hq]
        rw [hone] at htail
        exact htail
      · intro hF
        exact Ends.bind (Ends.throw ⟨hF, rfl, 0, by omega, (evict_zero x).symm⟩)

theorem ends_prepare (hx : x.Sound) (hf : x.Fresh block) (status : LinkStatus) :
    Ends (Node.Shows (σ := σ) F) (prepare block.hash status) x
      (fun promotions y => y = x.cleared status ∧ promotions = x.store.promotions block status)
      fun e y => F ∧ e = Unreliable.failure ∧ ∃ k ≤ x.surplus status, y = x.evict k := by
  cases status with
  | resolved height work =>
    refine (reads_planPromotions hx.arena hf.unknown).mono ?_ ?_
    · intro promotions y h
      exact h
    · intro e y h
      obtain ⟨hy, hF, he⟩ := h
      exact ⟨hF, he, 0, Nat.le_refl _, hy.trans (evict_zero x).symm⟩
  | orphan =>
    refine Ends.get fun n hn => ?_
    rw [hn.1]
    refine Ends.bind ((ends_evictFrom hx rfl).mono ?_ fun _ _ h => h)
    intro _ y hy
    exact Ends.pure ⟨hy, rfl⟩

theorem ends_recordFiled (stored : Link) (promoted : List Hash)
    {ok : Unit → Node Arena → Prop} {bad : Error → Node Arena → Prop}
    (h : ok () { x with engine := recorded x.engine stored promoted }) :
    Ends (Node.Shows (σ := σ) F) (recordFiled stored promoted) x ok bad := by
  unfold recordFiled
  refine Ends.get fun n hn => ?_
  rw [hn.1]
  by_cases ho : stored.isOrphan
  · simp only [recorded, ho, if_true] at h ⊢
    refine Ends.bind (Ends.setOrphans (Ends.bind (Ends.modifyMetrics ?_)))
    refine Ends.get fun n hn => ?_
    rw [hn.1]
    exact Ends.modifyMetrics h
  · simp only [recorded, ho] at h ⊢
    refine Ends.bind (Ends.setOrphans (Ends.bind (Ends.modifyMetrics ?_)))
    refine Ends.get fun n hn => ?_
    rw [hn.1]
    exact Ends.modifyMetrics h

def stored (x : Node Arena) (block : Block) : Link :=
  (Link.make block (x.store.place block)).withSeq x.store.nextSeq

theorem Sound.mem_taken_iff (hx : x.Sound) (hf : x.Fresh block) {l : Link} :
    l ∈ (x.taken block).store.links ↔ l = x.stored block ∨
      l ∈ x.store.promotions block (x.store.place block) ∨
        l ∈ (x.cleared (x.store.place block)).store.links ∧
          l.hash ∉ (x.store.promotions block (x.store.place block)).map Link.hash := by
  have hmem := (hx.files_taken hf).mem_file (hx.cleared _).arena.ordered (l := l)
  rw [nextSeq_cleared] at hmem
  exact hmem

theorem ends_deposit (hx : x.Sound) (hf : x.Fresh block)
    (hfits : Faithful.fits σ x.store.nextSeq block) :
    Ends (Node.Shows (σ := σ) F) (deposit block (x.store.place block)) x
      (fun v y => y = x.taken block ∧ v = (x.stored block,
        (x.store.promotions block (x.store.place block)).map Link.hash))
      fun e y => F ∧ e = Unreliable.failure ∧
        ∃ k ≤ x.surplus (x.store.place block), y = x.evict k := by
  have hfiles := hx.files_taken hf
  have hbounded := hx.bounded_taken hf
  have hc := (hx.cleared (x.store.place block)).arena
  have hseq := nextSeq_cleared x (x.store.place block)
  have htaken : x.taken block = (x.cleared (x.store.place block)).filed
    (.make block (x.store.place block)) (x.store.promotions block (x.store.place block)) := rfl
  have hlink : x.stored block =
    (Link.make block (x.store.place block)).withSeq x.store.nextSeq := rfl
  have hcleared : x.cleared (x.store.place block) = x.evict (x.surplus (x.store.place block)) := by
    cases x.store.place block with
    | resolved => exact (evict_zero x).symm
    | orphan => rfl
  rw [htaken, hlink]
  generalize x.store.place block = status at *
  unfold deposit
  refine Ends.bind ((ends_prepare hx hf status).mono ?_ fun _ _ h => h)
  intro promotions y h
  obtain ⟨hy, hp⟩ := h
  subst hy hp
  have hfits : Faithful.fits σ (x.cleared status).store.nextSeq block := hseq ▸ hfits
  have hrecord : ∀ promoted : List Link,
      Ends (Node.Shows (σ := σ) F) (do
        recordFiled ((Link.make block status).withSeq x.store.nextSeq) (promoted.map Link.hash)
        return ((Link.make block status).withSeq x.store.nextSeq, promoted.map Link.hash))
      { x.cleared status with store := (x.cleared status).store.file (.make block status) promoted }
      (fun v y => y = (x.cleared status).filed (.make block status) promoted ∧
        v = ((Link.make block status).withSeq x.store.nextSeq, promoted.map Link.hash))
      fun e y => F ∧ e = Unreliable.failure ∧ ∃ k ≤ x.surplus status, y = x.evict k :=
    fun promoted => Ends.bind (ends_recordFiled _ _ (Ends.pure ⟨rfl, rfl⟩))
  have hbad : F → F ∧ Unreliable.failure = Unreliable.failure ∧
      ∃ k ≤ x.surplus status, x.cleared status = x.evict k :=
    fun hF => ⟨hF, rfl, _, Nat.le_refl _, hcleared⟩
  cases status with
  | orphan =>
    have hanswer := Arena.insert_of_fresh hfiles.fresh hfiles.checkGenesis
    rw [hseq] at hanswer
    refine Ends.bind (Ends.onStore (Ends.ask hc ⟨rfl, hfiles, hfits⟩ ?_ (hrecord []) hbad))
    simp [Arena.answer, Arena.attempt, hanswer]
  | resolved height work =>
    have hanswer := hfiles.insertAndPromote hc.ordered
    rw [hseq] at hanswer
    refine Ends.bind (Ends.onStore (Ends.ask hc ⟨hfiles, hfits, hbounded⟩ ?_ (hrecord _) hbad))
    simp [Arena.answer, Arena.attempt, hanswer]

/-- A move of the tip to the best link, with the link where the branches part. -/
structure Moves (x : Node Arena) (change : BranchChange) : Prop where
  old : change.old? = x.engine.tip?
  best : x.store.bestLink? = some change.new
  away : x.engine.tip? ≠ some change.new
  common_none : x.engine.tip? = none → change.common? = none
  common_some : ∀ old, x.engine.tip? = some old → ∃ oldPath newPath, ∃ d : Delta,
    x.store.Lineage old oldPath ∧ x.store.Lineage change.new newPath ∧
      d.Parts [] [] oldPath newPath ∧ change.common? = some d.ancestor

def Settles (x : Node Arena) : Option BranchChange → Node Arena → Prop
  | none, y => y = x ∧ x.engine.tip? = x.store.bestLink?
  | some change, y => y = x.announced change ∧ x.Moves change

section Settling

variable {change? : Option BranchChange} {y : Node Arena}

theorem Settles.store_eq (h : x.Settles change? y) : y.store = x.store := by
  cases change? with
  | none =>
    obtain ⟨hy, -⟩ := h
    rw [hy]
  | some change =>
    obtain ⟨hy, -⟩ := h
    rw [hy]
    rfl

theorem Settles.config_eq (h : x.Settles change? y) : y.engine.config = x.engine.config := by
  cases change? with
  | none => rw [h.1]
  | some change =>
    rw [h.1]
    rfl

theorem Settles.tip_eq (h : x.Settles change? y) : y.engine.tip? = y.store.bestLink? := by
  cases change? with
  | none =>
    obtain ⟨hy, htip⟩ := h
    rw [hy, htip]
  | some change =>
    obtain ⟨hy, hmoves⟩ := h
    rw [hy]
    exact hmoves.best.symm

theorem Settles.sound (h : x.Settles change? y) (hx : x.Sound) : y.Sound := by
  cases change? with
  | none => exact h.1 ▸ hx
  | some change =>
    obtain ⟨hy, hmoves⟩ := h
    have hbest := hx.arena.bestLink?_eq_some hmoves.best
    exact hy ▸ hx.announced hbest.mem hbest.resolved

end Settling

theorem ends_announce (change : BranchChange) {ok : Option BranchChange → Node Arena → Prop}
    {bad : Error → Node Arena → Prop} (h : ok (some change) (x.announced change)) :
    Ends (Node.Shows (σ := σ) F) (do
      modifyMetrics fun m =>
        { m with
          reorgs := if change.isReorg then m.reorgs + 1 else m.reorgs
          tipHeight := gauge (change.new.height?.getD 0) }
      modify fun n =>
        { n with engine := { n.engine with
            tip? := some change.new
            events := n.engine.events.publish change } }
      return some change) x ok bad := by
  have hlast : Ends (Node.Shows (σ := σ) F) (pure (some change))
      { x with engine := (x.announced change).engine } ok bad := Ends.pure h
  refine Ends.bind (Ends.modifyMetrics (Ends.bind (Ends.modifyEngine ?_ hlast)))
  intro n hn
  rw [hn]
  rfl

theorem ends_updateTip (hx : x.Sound) :
    Ends (Node.Shows (σ := σ) F) updateTip x (fun change? y => x.Settles change? y)
      fun e y => F ∧ e = Unreliable.failure ∧ y = x := by
  unfold updateTip
  refine (reads_request hx .lastLink trivial rfl).ends ?_ fun hF => ⟨hF, rfl, rfl⟩
  intro best? hbest?
  replace hbest? : x.store.bestLink? = best? := hbest?.symm
  cases best? with
  | none =>
    refine Ends.pure ⟨rfl, ?_⟩
    rw [hbest?]
    cases ht : x.engine.tip? with
    | none => rfl
    | some t =>
      obtain ⟨hmem, hr⟩ := hx.tip t ht
      have ho := hx.arena.bestLink?_eq_none hbest? t hmem
      simp [Link.isResolved, ho] at hr
  | some new =>
    have hbest := hx.arena.bestLink?_eq_some hbest?
    refine Ends.get fun n hn => ?_
    rw [hn.1]
    by_cases hsame : x.engine.tip?.map Link.hash = some new.hash
    · simp only [hsame, if_true]
      refine Ends.pure ⟨rfl, ?_⟩
      obtain ⟨t, ht, hh⟩ := Option.map_eq_some_iff.mp hsame
      rw [ht, hbest?, hx.arena.ordered.eq_of_hash (hx.tip t ht).1 hbest.mem hh]
    · simp only [hsame, if_false]
      have haway : x.engine.tip? ≠ some new := fun h => hsame (by simp [h])
      cases ht : x.engine.tip? with
      | none =>
        refine Ends.bind (Ends.pure ?_)
        exact ends_announce ⟨none, new, none⟩
          ⟨rfl, ht.symm, hbest?, haway, fun _ => rfl, by simp [ht]⟩
      | some old =>
        obtain ⟨hmem, hr⟩ := hx.tip old ht
        obtain ⟨oldPath, hold⟩ := hx.arena.chained.exists_lineage hmem hr
        obtain ⟨newPath, hnew⟩ := hx.arena.chained.exists_lineage hbest.mem hbest.resolved
        have hcommon : Node.Reads (σ := σ) F (onStore (commonAncestor old new)) x _ :=
          .of_store (hx.arena.reads_commonAncestor hold hnew)
        refine Ends.bind (Ends.map (hcommon.mono ?_ ?_))
        · intro common y h
          obtain ⟨hy, d, hd, hparts⟩ := h
          subst hy hd
          refine ends_announce ⟨some old, new, some d.ancestor⟩
            ⟨rfl, ht.symm, hbest?, haway, by simp [ht], ?_⟩
          intro old' hold'
          rw [ht] at hold'
          cases hold'
          exact ⟨oldPath, newPath, d, hold, hnew, hparts, rfl⟩
        · intro e y h
          obtain ⟨hy, hF, he⟩ := h
          exact ⟨hF, he, hy⟩

structure Submitted (x : Node Arena) (now : Int) (block : Block) (o : Outcome)
    (y : Node Arena) : Prop where
  admitted : x.refusal? now block = none
  settles : (x.taken block).Settles o.change? y
  hash_eq : o.hash = block.hash
  status_eq : o.status = x.store.place block
  promoted_eq : o.promoted = (x.store.promotions block (x.store.place block)).map Link.hash

/-- A failing call stopped the submission of a block, in the checks or after them. Then
either it was not written and some orphans had to go, or it was written and the tip has
not followed. -/
def Aborted (x : Node Arena) (now : Int) (block : Block) (y : Node Arena) : Prop :=
  y = x ∨ (x.refusal? now block = none ∧
    ((∃ k ≤ x.surplus (x.store.place block), y = x.evict k) ∨ y = x.taken block))

theorem ends_submit (hx : x.Sound)
    (hfits : x.refusal? now block = none → Faithful.fits σ x.store.nextSeq block) :
    Ends (Node.Shows (σ := σ) F) (submit now block) x (fun o y => x.Submitted now block o y)
      fun e y => (x.refusal? now block = some e ∧ y = x.noted e) ∨
        (F ∧ e = Unreliable.failure ∧ x.Aborted now block y) := by
  rw [submit_eq]
  refine Ends.bind ((ends_vet hx).mono ?_ ?_)
  · intro status y h
    obtain ⟨hy, hs, hgranted⟩ := h
    subst hy hs
    have hf := hx.fresh hgranted
    refine Ends.bind ((ends_deposit hx hf (hfits hgranted)).mono ?_ ?_)
    · intro v y h
      obtain ⟨hy, hv⟩ := h
      subst hy hv
      refine Ends.bind ((ends_updateTip (hx.taken hf)).mono ?_ ?_)
      · intro change? z hz
        exact Ends.pure ⟨hgranted, hz, rfl, rfl, rfl⟩
      · intro e z h
        obtain ⟨hF, he, hz⟩ := h
        exact .inr ⟨hF, he, .inr ⟨hgranted, .inr hz⟩⟩
    · intro e y h
      obtain ⟨hF, he, hevict⟩ := h
      exact .inr ⟨hF, he, .inr ⟨hgranted, .inl hevict⟩⟩
  · intro e y h
    obtain ⟨hy, hrefused | ⟨hF, he⟩⟩ := h
    · exact .inl ⟨hrefused, hy⟩
    · subst he
      exact .inr ⟨hF, rfl, .inl hy⟩

end BlockTree.Node
