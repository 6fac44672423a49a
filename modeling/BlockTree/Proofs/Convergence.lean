import BlockTree.Proofs.Delivery
import BlockTree.Proofs.Retry

/-! Blocks handed in until no storage error comes back. However the attempts failed, the
store and the queue of orphans end up as they would have without any failure. -/

namespace BlockTree

namespace Node

section Alike

variable {x y z : Node Arena} {block : Block} {now later : Int} {k : Nat}

/-- The nodes differ at most in the tip, the listeners and the counts. -/
structure Alike (x y : Node Arena) : Prop where
  store : x.store = y.store
  orphans : x.engine.orphans = y.engine.orphans
  config : x.engine.config = y.engine.config

theorem Alike.symm (h : Alike x y) : Alike y x :=
  ⟨h.store.symm, h.orphans.symm, h.config.symm⟩

theorem Alike.trans (h : Alike x y) (h' : Alike y z) : Alike x z :=
  ⟨h.store.trans h'.store, h.orphans.trans h'.orphans, h.config.trans h'.config⟩

theorem Alike.refusal?_eq (h : Alike x y) : x.refusal? now block = y.refusal? now block := by
  unfold Node.refusal? genesisFault?
  rw [h.store, h.config]

theorem Alike.surplus_eq (h : Alike x y) (status : LinkStatus) :
    x.surplus status = y.surplus status := by
  unfold surplus excess
  rw [h.orphans, h.config]

theorem Alike.evict (h : Alike x y) (k : Nat) : Alike (x.evict k) (y.evict k) := by
  refine ⟨?_, ?_, h.config⟩
  · simp only [Node.evict, h.store, h.orphans]
  · simp only [Node.evict, h.orphans]

theorem Alike.cleared (h : Alike x y) (status : LinkStatus) :
    Alike (x.cleared status) (y.cleared status) := by
  cases status with
  | resolved => exact h
  | orphan =>
    have hexcess : x.excess = y.excess := h.surplus_eq .orphan
    simp only [Node.cleared, hexcess]
    exact h.evict _

theorem Alike.taken (h : Alike x y) (block : Block) : Alike (x.taken block) (y.taken block) := by
  have hclear := h.cleared (y.store.place block)
  unfold Node.taken
  rw [h.store]
  refine ⟨?_, ?_, hclear.config⟩
  · simp only [filed, hclear.store]
  · simp only [filed, recorded, hclear.orphans]

theorem Settles.alike {change? : Option BranchChange} (h : x.Settles change? y) : Alike x y := by
  cases change? with
  | none =>
    rw [h.1]
    exact ⟨rfl, rfl, rfl⟩
  | some change =>
    rw [h.1]
    exact ⟨rfl, rfl, rfl⟩

theorem Alike.aborted (h : Alike x y) {w : Node Arena} (hw : y.Aborted now block w) :
    ∃ v, x.Aborted now block v ∧ Alike v w := by
  rcases hw with hw | ⟨hnone, ⟨k, hk, hw⟩ | hw⟩
  · exact ⟨x, .inl rfl, hw ▸ h⟩
  · rw [← h.surplus_eq, ← h.store] at hk
    exact ⟨x.evict k, .inr ⟨h.refusal?_eq.trans hnone, .inl ⟨k, hk, rfl⟩⟩, hw ▸ h.evict k⟩
  · exact ⟨x.taken block, .inr ⟨h.refusal?_eq.trans hnone, .inr rfl⟩, hw ▸ h.taken block⟩

end Alike

section Evictions

variable {x : Node Arena} {block : Block} {k : Nat}

theorem Sound.excess_evict (hx : x.Sound) (k : Nat) :
    (x.evict k).excess = x.excess - k := by
  have hcap := hx.cap
  have hqueue : (x.evict k).engine.orphans.length = x.engine.orphans.length - k := by
    simp [Node.evict]
  have hconfig : (x.evict k).engine.config = x.engine.config := rfl
  unfold excess
  rw [hqueue, hconfig]
  omega

/-- An orphan that is gone was no parent of a resolved link. -/
theorem Sound.place_evict (hx : x.Sound) (hs : x.store.place block = .orphan) (k : Nat) :
    (x.evict k).store.place block = .orphan := by
  unfold Arena.place at hs ⊢
  by_cases hz : block.prevHash.isZero
  · simp [hz] at hs
  · simp only [hz] at hs ⊢
    cases hp : (x.evict k).store.find? block.prevHash with
    | none => rfl
    | some p =>
      obtain ⟨hmem, hh⟩ := Arena.mem_of_find? hp
      have hold : x.store.find? block.prevHash = some p :=
        hh ▸ hx.arena.ordered.find?_mem (Arena.mem_drop.mp hmem).1
      rw [hold] at hs
      exact hs

theorem eq_zero_or_orphan {status : LinkStatus} (hk : k ≤ x.surplus status) :
    k = 0 ∨ status = .orphan ∧ k ≤ x.excess := by
  cases status with
  | resolved => exact .inl (Nat.le_zero.mp hk)
  | orphan => exact .inr ⟨rfl, hk⟩

theorem Sound.surplus_evict (hx : x.Sound) (hk : k ≤ x.surplus (x.store.place block)) :
    (x.evict k).surplus ((x.evict k).store.place block) =
      x.surplus (x.store.place block) - k := by
  rcases eq_zero_or_orphan hk with hzero | ⟨hs, -⟩
  · rw [hzero, evict_zero, Nat.sub_zero]
  · rw [hx.place_evict hs, hs]
    exact hx.excess_evict k

/-- It makes no difference whether some of the orphans that have to go went before. -/
theorem Sound.taken_evict (hx : x.Sound) (hk : k ≤ x.surplus (x.store.place block)) :
    (x.evict k).taken block = x.taken block := by
  rcases eq_zero_or_orphan hk with hzero | ⟨hs, hexcess⟩
  · rw [hzero, evict_zero]
  · have hclear : (x.evict k).cleared .orphan = x.cleared .orphan := by
      have hrest : k + (x.excess - k) = x.excess := by omega
      simp only [Node.cleared, hx.excess_evict k, evict_evict, hrest]
    have hplace := hx.place_evict hs k
    unfold Node.taken
    simp only [hplace, hs, hclear]
    rfl

end Evictions

section Attempts

variable {x z w : Node Arena} {block : Block} {now later : Int}

variable (hx : x.Sound) (h : x.Aborted now block z)

include hx h

/-- After attempts that failed, the block can still come in only if it was not written. -/
theorem Sound.unwritten (hnone : z.refusal? now block = none) :
    x.refusal? now block = none ∧ ∃ k ≤ x.surplus (x.store.place block), z = x.evict k := by
  rcases h with hz | ⟨hfirst, hz | hz⟩
  · rw [hz] at hnone ⊢
    exact ⟨hnone, 0, Nat.zero_le _, (evict_zero x).symm⟩
  · exact ⟨hfirst, hz⟩
  · rw [hz] at hnone
    exact absurd (refusal?_eq_none.mp hnone).2.1 (hx.not_lacks_taken (hx.fresh hfirst))

theorem Sound.aborted_again (h' : z.Aborted now block w) : x.Aborted now block w := by
  rcases h' with hw | ⟨hnone, hw⟩
  · rw [hw]
    exact h
  · obtain ⟨hfirst, k, hk, hz⟩ := hx.unwritten h hnone
    subst hz
    rcases hw with ⟨j, hj, hw⟩ | hw
    · rw [hx.surplus_evict hk] at hj
      refine .inr ⟨hfirst, .inl ⟨k + j, by omega, ?_⟩⟩
      rw [hw, evict_evict]
    · refine .inr ⟨hfirst, .inr ?_⟩
      rw [hw, hx.taken_evict hk]

theorem Sound.refused_again {e : Error} (hsome : z.refusal? now block = some e) :
    (x.refusal? now block = some e ∧ z = x) ∨
      (x.refusal? now block = none ∧ z = x.taken block) := by
  rcases h with hz | ⟨hfirst, ⟨k, -, hz⟩ | hz⟩
  · exact .inl ⟨hz ▸ hsome, hz⟩
  · rw [hz, hx.refusal?_evict hfirst k] at hsome
    cases hsome
  · exact .inr ⟨hfirst, hz⟩

end Attempts

section Retries

variable {σ : Type} [Store σ]

/-- A block is handed in, at no earlier time than before, until something else comes back
than a storage error. -/
inductive Retries (block : Block) : Int → Node σ → Option Error → Node σ → Prop
  | done {now : Int} {n : Node σ} : (∀ e, n.fault? (submit now block) ≠ some (.storage e)) →
    Retries block now n (n.fault? (submit now block)) (n.after (submit now block))
  | again {now later : Int} {n m : Node σ} {e : StorageError} {last? : Option Error} :
    n.fault? (submit now block) = some (.storage e) → now ≤ later →
      Retries block later (n.after (submit now block)) last? m → Retries block now n last? m

inductive RetriesAll (n : Node σ) : List Delivery → Option Error → Node σ → Prop
  | start : RetriesAll n [] none n
  | next {ds : List Delivery} {d : Delivery} {before? last? : Option Error} {k m : Node σ} :
    RetriesAll n ds before? k → Retries d.block d.now k last? m →
      RetriesAll n (ds ++ [d]) last? m

end Retries

section Arrivals

variable {b : Backing} {n m : b.Ledger} {x y z : Node Arena} {block : Block}
  {now later : Int} {last? : Option Error}

theorem refusal?_ne_storage (e : StorageError) : x.refusal? now block ≠ some (.storage e) := by
  unfold refusal?
  cases validate now x.engine.config.maxFutureDrift block with
  | error fault => simp
  | ok work =>
    by_cases hknown : (x.store.find? block.hash).isSome
    · simp [hknown]
    · by_cases hz : block.prevHash.isZero
      · simp [hknown, hz]
      · simp [hknown, hz]

theorem ends_invalid {F : Prop} {fault : ValidationError}
    (hv : validate now x.engine.config.maxFutureDrift block = .error fault) :
    Ends (Node.Shows (σ := Unreliable b.Contents) F) (submit now block) x (fun _ _ => False)
      fun e _ => e = .validation fault := by
  unfold submit
  refine Ends.get fun n hn => ?_
  simp only [hn.1, hv]
  exact Ends.bind ((ends_reject fault).mono (fun _ _ h => h.elim) fun _ _ h => h.1)

/-- Only what is valid comes as far as the store. -/
theorem Shows.valid_of_storage {F : Prop} {e : StorageError} (hn : Node.Shows F n x)
    (h : submit now block n = .error (.storage e) m) :
    ∃ work, validate now x.engine.config.maxFutureDrift block = .ok work := by
  cases hv : validate now x.engine.config.maxFutureDrift block with
  | ok work => exact ⟨work, rfl⟩
  | error fault =>
    obtain ⟨-, -, he⟩ := (ends_invalid hv).of_error hn h
    cases he

theorem Aborted.config_eq (h : x.Aborted now block z) : z.engine.config = x.engine.config := by
  rcases h with hz | ⟨-, ⟨k, -, hz⟩ | hz⟩
  · rw [hz]
  · rw [hz]
    rfl
  · rw [hz, config_taken]

/-- What the clock has to say of a block does not change once the block was valid. -/
theorem Aborted.refusal?_again (h : x.Aborted now block z) (hclock : later = now ∨
    now ≤ later ∧ ∃ work, validate now x.engine.config.maxFutureDrift block = .ok work) :
    z.refusal? later block = z.refusal? now block := by
  rcases hclock with he | ⟨hle, work, hv⟩
  · rw [he]
  · rw [← h.config_eq] at hv
    unfold Node.refusal?
    rw [hv, validate_later hv hle]

/-- What becomes of a block that is handed in to `x` until no storage error comes back. -/
inductive Arrives (x : Node Arena) (now : Int) (block : Block) :
    Option Error → Node Arena → Prop
  | refused {e : Error} {y : Node Arena} : x.refusal? now block = some e → Alike x y →
    Arrives x now block (some e) y
  | taken {last? : Option Error} {y : Node Arena} : x.refusal? now block = none →
    Alike (x.taken block) y → (last? = none → y.engine.tip? = y.store.bestLink?) →
      Arrives x now block last? y

section Attempts

variable (hx : x.Sound) (hfits : Faithful.fits (Unreliable b.Contents) x.store.nextSeq block)

include hx hfits

/-- One more attempt settles the matter, or is one more that came to nothing. -/
theorem Sound.attempted (hn : Node.Shows True n y) (hy : y.Sound)
    (hz : x.Aborted now block z) (hzy : Alike z y)
    (hsame : z.refusal? later block = z.refusal? now block) :
    ∃ w, Node.Shows True (n.after (submit later block)) w ∧ w.Sound ∧
      ((∀ e, n.fault? (submit later block) ≠ some (.storage e)) ∧
          x.Arrives now block (n.fault? (submit later block)) w ∨
        n.fault? (submit later block) = some Unreliable.failure ∧
          ∃ v, x.Aborted now block v ∧ Alike v w) := by
  have hverdict : y.refusal? later block = z.refusal? now block :=
    hzy.symm.refusal?_eq.trans hsame
  have hyfits : y.refusal? later block = none →
      Faithful.fits (Unreliable b.Contents) y.store.nextSeq block := by
    intro hnone
    obtain ⟨-, k, -, hk⟩ := hx.unwritten hz (hverdict ▸ hnone)
    rw [← hzy.store, hk]
    exact hfits
  have hsubmit := ends_submit hy hyfits n hn
  unfold after fault?
  cases hrun : submit later block n with
  | ok o m =>
    simp only [hrun] at hsubmit ⊢
    obtain ⟨w, hw, ho⟩ := hsubmit
    obtain ⟨hfirst, k, hk, hzk⟩ := hx.unwritten hz (hverdict ▸ ho.admitted)
    have htaken : Alike (x.taken block) (y.taken block) := by
      rw [← hx.taken_evict hk, ← hzk]
      exact hzy.taken block
    refine ⟨w, hw, ho.settles.sound (hy.taken (hy.fresh ho.admitted)), .inl ⟨by simp, ?_⟩⟩
    exact .taken hfirst (htaken.trans ho.settles.alike) fun _ => ho.settles.tip_eq
  | error e m =>
    simp only [hrun] at hsubmit ⊢
    obtain ⟨w, hw, ⟨hrefused, hnoted⟩ | ⟨hF, he, habort⟩⟩ := hsubmit
    · subst hnoted
      have hyw : Alike y (y.noted e) := ⟨rfl, rfl, rfl⟩
      refine ⟨_, hw, sound_noted hy e, .inl ⟨?_, ?_⟩⟩
      · intro fault hfault
        exact refusal?_ne_storage fault (hrefused.trans hfault)
      · -- the block was refused from the first, or for having been written in an attempt
        rcases hx.refused_again hz (hverdict ▸ hrefused) with ⟨hfirst, hzx⟩ | ⟨hfirst, hzx⟩
        · exact .refused hfirst (hzx ▸ hzy.trans hyw)
        · exact .taken hfirst (hzx ▸ hzy.trans hyw) (by simp)
    · have hreceives : y.Receives True ⟨later, block⟩ none w := .aborted hF habort
      refine ⟨w, hw, (hreceives.sound hy).1, .inr ⟨congrArg some he, ?_⟩⟩
      obtain ⟨v, hv, hvw⟩ := hzy.aborted habort
      unfold Aborted at hv
      rw [hsame] at hv
      exact ⟨v, hx.aborted_again hz hv, hvw⟩

theorem Sound.retried (h : n.Retries block later last? m) (hn : Node.Shows True n y)
    (hy : y.Sound) (hz : x.Aborted now block z) (hzy : Alike z y)
    (hclock : later = now ∨ now ≤ later ∧
      ∃ work, validate now x.engine.config.maxFutureDrift block = .ok work) :
    ∃ w, Node.Shows True m w ∧ w.Sound ∧ x.Arrives now block last? w := by
  induction h generalizing y z with
  | @done later n hnot =>
    obtain ⟨w, hw, hws, ⟨-, harrives⟩ | ⟨hfault, -⟩⟩ :=
      hx.attempted hfits hn hy hz hzy (hz.refusal?_again hclock)
    · exact ⟨w, hw, hws, harrives⟩
    · exact absurd hfault (hnot _)
  | @again later latest n m e last? hfault hle hrest ih =>
    obtain ⟨w, hw, hws, ⟨hnot, -⟩ | ⟨-, v, hv, hvw⟩⟩ :=
      hx.attempted hfits hn hy hz hzy (hz.refusal?_again hclock)
    · exact absurd hfault (hnot e)
    · -- a storage error says that the block was valid, so the clock has nothing more to say
      refine ih hw hws hv hvw (.inr ?_)
      rcases hclock with he | ⟨hfrom, hvalid⟩
      · have hvalid := hn.valid_of_storage (eq_error_of_fault? hfault)
        rw [← hzy.config, hz.config_eq, he] at hvalid
        exact ⟨he ▸ hle, hvalid⟩
      · exact ⟨Int.le_trans hfrom hle, hvalid⟩

end Attempts

/-- What the block leaves behind is what it leaves behind when it comes in once and no
call fails. -/
theorem Arrives.alike {d : Delivery} {change? : Option BranchChange} {w : Node Arena}
    (h : x.Arrives d.now d.block last? y) (hw : x.Receives False d change? w) :
    Alike w y ∧ (last? = none → w.engine.tip? = y.engine.tip?) := by
  cases hw with
  | aborted hF => exact hF.elim
  | refused hrefused =>
    cases h with
    | refused _ hxy =>
      exact ⟨⟨hxy.store, hxy.orphans, hxy.config⟩, by simp⟩
    | taken hnone =>
      rw [hrefused] at hnone
      cases hnone
  | submitted ho =>
    cases h with
    | refused hrefused =>
      rw [ho.admitted] at hrefused
      cases hrefused
    | taken _ htaken htip =>
      have hwy : Alike w y := ho.settles.alike.symm.trans htaken
      refine ⟨hwy, fun hlast => ?_⟩
      rw [htip hlast, ho.settles.tip_eq, hwy.store]

end Arrivals

section Agreement

variable {b : Backing} {config : ConsensusConfig} {n m k : b.Ledger} {x y : Node Arena}
  {ds : List Delivery} {last? : Option Error}

/-- Two nodes that no read tells apart, with the same orphans in the same order. -/
structure Agrees (n m : b.Ledger) : Prop where
  answers : ∀ {α : Type} (call : Call α), call.onlyReads → ∀ v, n.Tells call v ↔ m.Tells call v
  nextSeq : b.nextSeq n.store.store = b.nextSeq m.store.store
  orphans : n.engine.orphans = m.engine.orphans

theorem Alike.tells_iff {F G : Prop} {c : Backing} {m : c.Ledger} (h : Alike x y) (hx : x.Sound)
    (hn : Node.Shows F n x) (hm : Node.Shows G m y) {α : Type} {call : Call α}
    (hreads : call.onlyReads) (v : α) : n.Tells call v ↔ m.Tells call v := by
  have hsound := hx.arena
  obtain ⟨hp, u, hu⟩ := x.store.answer_of_onlyReads (Faithful.fits b.Contents) hreads
  obtain ⟨hp', -⟩ := x.store.answer_of_onlyReads (Faithful.fits c.Contents) hreads
  rw [hn.tells hsound call hp hu]
  rw [h.store] at hsound hp' hu
  rw [hm.tells hsound call hp' hu]

theorem Alike.agrees {F G : Prop} (h : Alike x y) (hx : x.Sound) (hn : Node.Shows F n x)
    (hm : Node.Shows G m y) : n.Agrees m where
  answers _ hreads v := h.tells_iff hx hn hm hreads v
  nextSeq := by rw [hn.nextSeq, hm.nextSeq, h.store]
  orphans := by rw [hn.1, hm.1, h.orphans]

theorem RetriesAll.alike (h : n.RetriesAll ds last? k) (hm : Node.Shows False m x)
    (hx : x.Sound) (hn : Node.Shows True n y) (hy : y.Sound) (hxy : Alike x y)
    (htip : x.engine.tip? = y.engine.tip?) (hroom : m.HasRoom ds) :
    ∃ v w, Node.Shows False (m.feed ds) v ∧ v.Sound ∧ Node.Shows True k w ∧ w.Sound ∧
      Alike v w ∧ (last? = none → v.engine.tip? = w.engine.tip?) := by
  induction h with
  | start => exact ⟨x, y, hm, hx, hn, hy, hxy, fun _ => htip⟩
  | @next ds d before? last? k l hbefore hretries ih =>
    obtain ⟨hroom, hnext, -⟩ := hasRoom_append.mp hroom
    obtain ⟨v, w, hv, hvs, hw, hws, hvw, -⟩ := ih hroom
    have hfits : Faithful.fits (Unreliable b.Contents) v.store.nextSeq d.block :=
      Faithful.fits_of_room hv.2.1 hnext
    obtain ⟨v', hv', hreceives⟩ := hv.deliver hvs fun _ => hfits
    obtain ⟨w', hw', hws', harrives⟩ :=
      hvs.retried hfits hretries hw hws (.inl rfl) hvw (.inl rfl)
    obtain ⟨halike, htips⟩ := harrives.alike hreceives
    rw [feed_append]
    exact ⟨v', w', hv', (hreceives.sound hvs).1, hw', hws', halike, htips⟩

/-- Blocks that are handed in until no storage error comes back leave the same store and
the same orphans behind as if each was handed in once and no call failed. If the last
of them was taken in, the tip is the same too. -/
theorem agrees_of_retriesAll (hn : Opened (· = config) n) (hm : Opened (· = config) m)
    (hcalm : m.store.outages = []) (hroom : m.HasRoom ds) (h : n.RetriesAll ds last? k) :
    k.Agrees (m.feed ds) ∧
      (last? = none → k.engine.tip? = (m.feed ds).engine.tip?) := by
  obtain ⟨hnshows, hsound⟩ := hn.shows_blank
  obtain ⟨hmshows, -⟩ := hm.shows_calm hcalm
  obtain ⟨v, w, hv, hvs, hw, hws, halike, htips⟩ :=
    h.alike hmshows hsound hnshows hsound ⟨rfl, rfl, rfl⟩ rfl hroom
  refine ⟨halike.symm.agrees hws hw hv, fun hlast => ?_⟩
  rw [hw.1, hv.1, htips hlast]

end Agreement

def crowded : ConsensusConfig where
  maxOrphans := 1

/-- Two orphans where there is room for one. -/
def strangers : List Delivery :=
  [⟨0, .second⟩, ⟨0, .rival⟩]

/-- The store fails when the second orphan is to be written, and the first had to go. -/
def interrupted : Backing.arena.Ledger :=
  (started crowded [.window .addLink 1 1]).deliver ⟨0, .second⟩

def resumed : Backing.arena.Ledger :=
  interrupted.after (submit 0 .rival)

theorem interrupted_computed :
    (started crowded [.window .addLink 1 1]).fault? (submit 0 .second) = none ∧
    interrupted.fault? (submit 0 .rival) = some Unreliable.failure ∧
    resumed.fault? (submit 0 .rival) = none ∧
    resumed.engine.orphans = [] := by
  decide +kernel

theorem agrees_interrupted : resumed.engine.orphans = [] ∧
    (resumed.deliver ⟨0, .rival⟩).Agrees ((started crowded []).feed strangers) ∧
    (resumed.deliver ⟨0, .rival⟩).engine.tip? =
      ((started crowded []).feed strangers).engine.tip? := by
  obtain ⟨hfirst, hfails, hagain, hgone⟩ := interrupted_computed
  have hdone {n : Backing.arena.Ledger} {block : Block}
      (h : n.fault? (submit 0 block) = none) : n.Retries block 0 none (n.deliver ⟨0, block⟩) := by
    have hlast : n.Retries block 0 (n.fault? (submit 0 block)) (n.after (submit 0 block)) :=
      .done (by simp [h])
    rwa [h] at hlast
  have hretries : (started crowded [.window .addLink 1 1]).RetriesAll strangers none
      (resumed.deliver ⟨0, .rival⟩) :=
    .next (.next .start (hdone hfirst)) (.again hfails (Int.le_refl 0) (hdone hagain))
  have hopened : Opened (· = crowded) (started crowded []) := opened_started rfl (by decide)
  have hplanned : Opened (· = crowded) (started crowded [.window .addLink 1 1]) :=
    ⟨crowded, ⟨({} : Arena), [.window .addLink 1 1]⟩, rfl, rfl, rfl⟩
  obtain ⟨hagrees, htip⟩ :=
    agrees_of_retriesAll hplanned hopened rfl (hasRoom_arena _ strangers) hretries
  exact ⟨hgone, hagrees, htip rfl⟩

end Node

end BlockTree
