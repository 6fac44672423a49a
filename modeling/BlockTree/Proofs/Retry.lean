import BlockTree.Proofs.Observation

/-! Handing in a block again after a call failed. Up to the write nothing is lost but
orphans that made room, and the block is still welcome. After the write it is known. -/

namespace BlockTree

namespace Node

variable {b : Backing} {permitted : ConsensusConfig → Prop} {n m : b.Ledger} {x y : Node Arena}
  {now later : Int} {block : Block}

theorem refusal?_later (h : x.refusal? now block = none) (hle : now ≤ later) :
    x.refusal? later block = none := by
  obtain ⟨⟨work, hv⟩, hrest⟩ := refusal?_eq_none.mp h
  exact refusal?_eq_none.mpr ⟨⟨work, validate_later hv hle⟩, hrest⟩

theorem Sound.refusal?_evict (hx : x.Sound) (h : x.refusal? now block = none) (k : Nat) :
    (x.evict k).refusal? now block = none := by
  obtain ⟨hvalid, hunknown, hgenesis⟩ := refusal?_eq_none.mp h
  refine refusal?_eq_none.mpr ⟨hvalid, ?_, fun hz => ?_⟩
  · rw [Arena.find?_eq_none] at hunknown ⊢
    exact fun l hl => hunknown l (Arena.mem_drop.mp hl).1
  · have hfirst : (x.evict k).store.genesis? = none :=
      hx.genesis?_eq_none (genesisFault?_eq_none (hgenesis hz)).2
    have hexpected : ∀ g, (x.evict k).engine.config.genesisHash? = some g → g = block.hash :=
      (genesisFault?_eq_none (hgenesis hz)).1
    unfold genesisFault?
    rw [hfirst]
    cases hg : (x.evict k).engine.config.genesisHash? with
    | none => rfl
    | some g => simp [hexpected g hg]

theorem Sound.not_lacks_taken (hx : x.Sound) (hf : x.Fresh block) :
    (x.taken block).store.find? block.hash ≠ none := by
  intro hnone
  have hmem : x.stored block ∈ (x.taken block).store.links :=
    (hx.mem_taken_iff hf).mpr (.inl rfl)
  exact Arena.find?_eq_none.mp hnone _ hmem rfl

theorem surplus_le (x : Node Arena) (status : LinkStatus) : x.surplus status ≤ x.excess := by
  cases status with
  | resolved => exact Nat.zero_le _
  | orphan => exact Nat.le_refl _

/-- Without failing calls, a block is taken in unless there is something against it. -/
theorem Shows.submit_iff (h : Node.Shows False n x) (hx : x.Sound) (now : Int) (block : Block)
    (hfits : x.refusal? now block = none →
      Faithful.fits (Unreliable b.Contents) x.store.nextSeq block) :
    (∃ o m, submit now block n = .ok o m) ↔ x.refusal? now block = none := by
  have hsubmit := ends_submit (σ := Unreliable b.Contents) (F := False) hx hfits
  constructor
  · intro hok
    obtain ⟨o, m, hok⟩ := hok
    obtain ⟨y, -, ho⟩ := hsubmit.of_ok h hok
    exact ho.admitted
  · intro hnone
    cases hrun : submit now block n with
    | ok o m => exact ⟨o, m, rfl⟩
    | error e m =>
      obtain ⟨y, -, ⟨hsome, -⟩ | ⟨hF, -⟩⟩ := hsubmit.of_error h hrun
      · rw [hnone] at hsome
        cases hsome
      · exact hF.elim

/-- No link is lost but some of the oldest orphans, no more than make room for one. -/
def Spares (n m : b.Ledger) : Prop :=
  ∃ k ≤ n.engine.orphans.length + 1 - n.engine.config.maxOrphans,
    (∀ l, m.Stores l ↔ n.Stores l ∧ l.hash ∉ n.engine.orphans.take k) ∧
      ∀ l, n.Stores l → l.hash ∈ n.engine.orphans.take k → l.isOrphan

theorem Mirrors.spares (hx : Mirrors permitted n x) {k : Nat} (hk : k ≤ x.excess)
    (hm : Node.Shows True m (x.evict k)) : Spares n m := by
  have hengine : n.engine = x.engine := hx.shows.1
  refine ⟨k, by rw [hengine]; exact hk, ?_, ?_⟩
  · intro l
    rw [hm.stores (hx.sound.evict k).arena, hx.shows.stores hx.sound.arena, hengine]
    exact Arena.mem_drop
  · intro l hl hq
    rw [hengine] at hq
    exact hx.sound.orphan_of_queued ((hx.shows.stores hx.sound.arena).mp hl)
      (List.mem_of_mem_take hq)

section Attempts

variable {k : Nat} (hx : Mirrors permitted n x) (hnone : x.refusal? now block = none)

include hx hnone

theorem Mirrors.unwritten (hfits : Faithful.fits (Unreliable b.Contents) x.store.nextSeq block)
    (hk : k ≤ x.excess) (hm : Node.Shows True m (x.evict k)) :
    (Spares n m ∧ ∀ later, now ≤ later → ∃ o m', submit later block m.mended = .ok o m') ∧
      m.Lacks block.hash := by
  have hevicted := hx.sound.refusal?_evict hnone k
  refine ⟨⟨hx.spares hk hm, ?_⟩, ?_⟩
  · intro later hle
    have hretry := hm.mended.submit_iff (hx.sound.evict k) later block fun _ => hfits
    exact hretry.mpr (refusal?_later hevicted hle)
  · exact (hm.lacks (hx.sound.evict k).arena).mpr (refusal?_eq_none.mp hevicted).2.1

theorem Mirrors.written (hm : Node.Shows True m (x.taken block)) :
    (¬ ∃ o m', submit now block m.mended = .ok o m') ∧ ¬ m.Lacks block.hash := by
  have hf := hx.sound.fresh hnone
  have hknown := hx.sound.not_lacks_taken hf
  constructor
  · intro hretry
    have hadmitted := (hm.mended.submit_iff (hx.sound.taken hf) now block fun hnone =>
      absurd (refusal?_eq_none.mp hnone).2.1 hknown).mp hretry
    exact hknown (refusal?_eq_none.mp hadmitted).2.1
  · intro hlacks
    exact hknown ((hm.lacks (hx.sound.taken hf).arena).mp hlacks)

end Attempts

/-- After a failing call the tip is as it was. The links are, and the block can be handed
in again at any time, if and only if it was acceptable and has not been written. -/
theorem retry_iff_of_reachable (h : Reachable permitted n) (hroom : Medium.room n.store block)
    (hfail : submit now block n = .error Unreliable.failure m) :
    m.engine.tip? = n.engine.tip? ∧
    ((Spares n m ∧ ∀ later, now ≤ later → ∃ o m', submit later block m.mended = .ok o m') ↔
      (∃ o n', submit now block n.mended = .ok o n') ∧ m.Lacks block.hash) := by
  obtain ⟨x, hx⟩ := h.exists_mirror
  have hfits : Faithful.fits (Unreliable b.Contents) x.store.nextSeq block := hx.fits hroom
  obtain ⟨y, hy, hend⟩ := (ends_submit hx.sound fun _ => hfits).of_error hx.shows hfail
  have habort : x.Aborted now block y := by
    rcases hend with ⟨-, hnoted⟩ | ⟨-, -, habort⟩
    · exact .inl hnoted
    · exact habort
  have hfirst := hx.shows.mended.submit_iff hx.sound now block fun _ => hfits
  have htip : m.engine.tip? = y.engine.tip? := congrArg Engine.tip? hy.1
  have htip' : n.engine.tip? = x.engine.tip? := congrArg Engine.tip? hx.shows.1
  rw [htip, htip', hfirst]
  rcases habort with hsame | ⟨hnone, ⟨k, hk, hevict⟩ | htaken⟩
  · -- the call failed in the checks, which may have been about to refuse the block
    rw [hsame] at hy ⊢
    have hzero : Node.Shows True m (x.evict 0) := (evict_zero x).symm ▸ hy
    refine ⟨rfl, ?_, ?_⟩
    · intro hspares
      obtain ⟨-, hretry⟩ := hspares
      have hnone := (hy.mended.submit_iff hx.sound now block fun _ => hfits).mp
        (hretry now (Int.le_refl now))
      exact ⟨hnone, (hx.unwritten hnone hfits (Nat.zero_le _) hzero).2⟩
    · intro hfirst
      exact (hx.unwritten hfirst.1 hfits (Nat.zero_le _) hzero).1
  · subst hevict
    have hdone := hx.unwritten hnone hfits (Nat.le_trans hk (surplus_le x _)) hy
    exact ⟨rfl, fun _ => ⟨hnone, hdone.2⟩, fun _ => hdone.1⟩
  · subst htaken
    obtain ⟨hrefused, hknown⟩ := hx.written hnone hy
    refine ⟨tip_taken x block, ?_, ?_⟩
    · intro hspares
      exact absurd (hspares.2 now (Int.le_refl now)) hrefused
    · intro hfirst
      exact absurd hfirst.2 hknown

def hindered (method : Method) : Backing.arena.Ledger :=
  started {} [.window method 0 1]

theorem reachable_hindered (method : Method) : Reachable (fun _ => True) (hindered method) :=
  reachable_planned trivial (by decide) _

theorem lookup_computed :
    (hindered .getLink).fault? (submit 0 .first) = some Unreliable.failure ∧
    (hindered .getLink).mended.fault? (submit 0 .first) = none ∧
    Arena.find? ((hindered .getLink).after (submit 0 .first)).store.store
      Block.first.hash = none := by
  decide +kernel

theorem retry_after_failed_lookup :
    Spares (hindered .getLink) ((hindered .getLink).after (submit 0 .first)) ∧
    ∃ o m', submit 0 .first ((hindered .getLink).after (submit 0 .first)).mended = .ok o m' := by
  obtain ⟨hfault, hfirst, hunknown⟩ := lookup_computed
  obtain ⟨o, ho⟩ := eq_ok_of_fault? hfirst
  have hroom : Medium.room (hindered .getLink).store Block.first := trivial
  have hiff := (retry_iff_of_reachable (reachable_hindered .getLink) hroom
    (eq_error_of_fault? hfault)).2
  obtain ⟨hspares, hretry⟩ := hiff.mpr ⟨⟨o, _, ho⟩, lacks_of_find? hunknown⟩
  exact ⟨hspares, hretry 0 (Int.le_refl 0)⟩

theorem read_computed :
    (hindered .lastLink).fault? (submit 0 .first) = some Unreliable.failure ∧
    ((hindered .lastLink).after (submit 0 .first)).mended.fault? (submit 0 .first) =
      some (.duplicateLink Block.first.hash) := by
  decide +kernel

/-- When the best link cannot be read, the block is there and the tip has not followed,
and handing the block in again is refused. -/
theorem retry_refused_after_failed_read :
    ¬ ∀ (n m : Backing.arena.Ledger) (now : Int) (block : Block),
      Reachable (fun _ => True) n → Medium.room n.store block →
      submit now block n = .error Unreliable.failure m →
      Spares n m ∧ m.engine.tip? = n.engine.tip? ∧
        ∃ o m', submit now block m.mended = .ok o m' := by
  intro h
  obtain ⟨hfault, hduplicate⟩ := read_computed
  obtain ⟨-, -, o, m', hok⟩ := h _ _ 0 .first (reachable_hindered .lastLink) trivial
    (eq_error_of_fault? hfault)
  rw [eq_error_of_fault? hduplicate] at hok
  cases hok

end Node

end BlockTree
