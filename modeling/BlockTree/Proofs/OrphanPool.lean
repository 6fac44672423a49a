import BlockTree.Proofs.Delivery

/-! The queue of an engine and the orphans of its store. They change at different moments of
a call, and agree again after it, whichever calls failed. -/

namespace BlockTree.Node

section Eviction

variable {σ : Type} [Store σ]

/-- As `evictFrom`, but a queued hash that the store does not drop stops the eviction. -/
def evictStrictly : List Hash → NodeM σ Unit
  | [] => return ()
  | oldest :: rest => do
    if rest.length + 1 < (← get).engine.config.maxOrphans then
      return ()
    let _ ← request (.removeOrphan oldest)
    setOrphans rest
    modifyMetrics fun m => { m with evicted := m.evicted + 1 }
    evictStrictly rest

end Eviction

variable {x y : Node Arena} {d : Delivery} {change? : Option BranchChange} {F : Prop}

theorem Sound.nodup_queue (hx : x.Sound) : x.engine.orphans.Nodup := by
  rw [hx.queue]
  exact hx.arena.ordered.nodup_orphans

theorem length_orphans_evict (x : Node Arena) (k : Nat) :
    (x.evict k).engine.orphans.length = x.engine.orphans.length - k := by
  simp [evict]

theorem orphans_taken_of_orphan {block : Block} (h : x.store.place block = .orphan) :
    (x.taken block).engine.orphans = x.engine.orphans.drop x.excess ++ [block.hash] := by
  simp [taken, h, cleared, filed, recorded, evict, Link.make, Link.isOrphan, LinkStatus.isOrphan]

theorem length_orphans_taken (hcap : 1 ≤ x.engine.config.maxOrphans) (block : Block) :
    (x.taken block).engine.orphans.length ≤
      max x.engine.config.maxOrphans x.engine.orphans.length := by
  cases hs : x.store.place block with
  | orphan =>
    rw [orphans_taken_of_orphan hs, excess, List.length_append, List.length_drop,
      List.length_singleton]
    omega
  | resolved height work =>
    have hle : (x.taken block).engine.orphans.length ≤ x.engine.orphans.length := by
      simp only [taken, hs, cleared, filed, recorded, Link.make, Link.isOrphan,
        LinkStatus.isOrphan]
      exact List.length_filter_le _ _
    omega

theorem Settles.orphans_eq (h : x.Settles change? y) : y.engine.orphans = x.engine.orphans := by
  cases change? with
  | none => rw [h.1]
  | some change =>
    rw [h.1]
    rfl

theorem Receives.config_eq (h : x.Receives F d change? y) :
    y.engine.config = x.engine.config := by
  cases h with
  | refused => rfl
  | aborted _ habort =>
    obtain rfl | ⟨-, ⟨k, -, rfl⟩ | rfl⟩ := habort
    · rfl
    · rfl
    · exact config_taken x d.block
  | submitted ho => rw [ho.settles.config_eq, config_taken]

/-- One more orphan than allowed is never kept, and room is made before it comes in. -/
theorem Receives.length_orphans_le (h : x.Receives F d change? y) (hx : x.Sound) :
    y.engine.orphans.length ≤ max x.engine.config.maxOrphans x.engine.orphans.length := by
  cases h with
  | refused => exact Nat.le_max_right _ _
  | aborted _ habort =>
    obtain rfl | ⟨-, ⟨k, -, rfl⟩ | rfl⟩ := habort
    · exact Nat.le_max_right _ _
    · rw [length_orphans_evict]
      omega
    · exact length_orphans_taken hx.cap d.block
  | submitted ho =>
    rw [ho.settles.orphans_eq]
    exact length_orphans_taken hx.cap d.block

theorem Sound.place_eq_of_stored (hx : x.Sound) {block : Block} (hf : x.Fresh block) {l : Link}
    (hl : l ∈ (x.taken block).store.links) (hh : l.hash = block.hash) (ho : l.isOrphan) :
    x.store.place block = .orphan := by
  have hstored : x.stored block ∈ (x.taken block).store.links :=
    (hx.mem_taken_iff hf).mpr (.inl rfl)
  have he : l = x.stored block :=
    (hx.taken hf).arena.ordered.eq_of_hash hl hstored (hh.trans rfl)
  rw [he] at ho
  exact Link.isOrphan_iff.mp ho

/-- A call that stores its block as an orphan came as far as the write. -/
theorem Receives.orphans_eq (h : x.Receives F d change? y) (hx : x.Sound)
    (hunknown : x.store.find? d.block.hash = none) {l : Link} (hl : l ∈ y.store.links)
    (hh : l.hash = d.block.hash) (ho : l.isOrphan) :
    y.engine.orphans = x.engine.orphans.drop x.excess ++ [d.block.hash] := by
  have habsent : l ∉ x.store.links := fun hmem => Arena.find?_eq_none.mp hunknown l hmem hh
  cases h with
  | refused => exact absurd hl habsent
  | aborted _ habort =>
    obtain rfl | ⟨hgranted, ⟨k, -, rfl⟩ | rfl⟩ := habort
    · exact absurd hl habsent
    · exact absurd (Arena.mem_drop.mp hl).1 habsent
    · exact orphans_taken_of_orphan (hx.place_eq_of_stored (hx.fresh hgranted) hl hh ho)
  | submitted hs =>
    rw [hs.settles.store_eq] at hl
    rw [hs.settles.orphans_eq]
    exact orphans_taken_of_orphan (hx.place_eq_of_stored (hx.fresh hs.admitted) hl hh ho)

section Requests

variable {σ : Type} {n : Node σ}

theorem setOrphans_apply (orphans : List Hash) :
    setOrphans orphans n = .ok () { n with engine := { n.engine with orphans := orphans } } :=
  rfl

theorem modifyMetrics_apply (change : Metrics → Metrics) : modifyMetrics change n =
    .ok () { n with engine := { n.engine with metrics := change n.engine.metrics } } :=
  rfl

theorem throw_apply {α : Type} (e : Error) : (throw e : NodeM σ α) n = .error e n :=
  rfl

variable [Store σ]

theorem request_eq_ok {α : Type} {call : Call α} {v : α} {t : σ}
    (h : Store.answer call n.store = .ok v t) : request call n = .ok v { n with store := t } := by
  simp [request, onStore, ask, h]

theorem request_eq_error {α : Type} {call : Call α} {e : Error} {t : σ}
    (h : Store.answer call n.store = .error e t) :
    request call n = .error e { n with store := t } := by
  simp [request, onStore, ask, h]

end Requests

section Stores

variable {σ : Type} [Medium σ] [Faithful σ] {n : Node σ}

/-- Whatever is queued is stored as an orphan, so that nothing is ever forgiven. -/
theorem Shows.evictFrom_eq {queue : List Hash} (h : Node.Shows True n x) (hx : x.Sound)
    (hq : x.engine.orphans = queue) : evictFrom queue n = evictStrictly queue n := by
  induction queue generalizing n x with
  | nil => rfl
  | cons oldest rest ih =>
    obtain ⟨l, hl, ho⟩ := hx.find?_oldest hq
    have hanswer : Arena.answer (.removeOrphan oldest) x.store =
        .ok l (x.store.drop [oldest]) := by
      simp [Arena.answer, Arena.attempt, Arena.removeOrphan, hl, Link.isResolved, ho, Arena.drop]
    unfold evictFrom evictStrictly
    simp only [bind, EStateM.bind, get_apply]
    by_cases hroom : rest.length + 1 < n.engine.config.maxOrphans
    · simp [hroom]
    · have hpromised : x.store.Promised (Faithful.fits σ) (.removeOrphan oldest) := ⟨l, hl, ho⟩
      rcases Faithful.answers h.2.1 hx.arena hpromised hanswer with
        ⟨t, ht, htb, -⟩ | ⟨-, t, ht, -⟩
      · have hshows : Node.Shows True
            { n with store := t, engine := { n.engine with
                orphans := rest
                metrics := { n.engine.metrics with evicted := n.engine.metrics.evicted + 1 } } }
            (x.evict 1) := by
          refine ⟨?_, ?_, fun _ => trivial⟩
          · simp [h.1, evict, hq]
          · simpa [evict, hq] using htb
        have htail := ih hshows (hx.evict 1) (by simp [evict, hq])
        simpa [hroom, attempt, request_eq_ok ht, setOrphans_apply, modifyMetrics_apply,
          EStateM.bind] using htail
      · simp [hroom, attempt, request_eq_error ht, EStateM.bind, throw_apply, Unreliable.failure]

end Stores

section Queue

variable {b : Backing} {n m : b.Ledger}

/-- The queue lists the orphans of the store as the store does, each once. -/
def Queues (n : b.Ledger) : Prop :=
  ∃ waiting, n.Tells .orphanLinks waiting ∧
    n.engine.orphans = waiting.map Link.hash ∧ n.engine.orphans.Nodup

/-- The engine was opened just now, on nothing or on what other engines left. -/
def Starts (n : b.Ledger) : Prop :=
  Opened (fun _ => True) n ∨
    ∃ config k, Reachable (fun _ => True) k ∧ reopen config k = .ok () n

theorem Shows.queues (h : Node.Shows True n x) (hx : x.Sound) : Queues n := by
  have hengine : n.engine = x.engine := h.1
  refine ⟨x.store.orphans, ?_, ?_, ?_⟩
  · exact (h.tells hx.arena .orphanLinks trivial rfl).mpr rfl
  · rw [hengine]
    exact hx.queue
  · rw [hengine]
    exact hx.nodup_queue

theorem Starts.exists_shows (h : Starts n) : ∃ x, Node.Shows True n x ∧ x.Sound := by
  rcases h with hopened | ⟨config, k, hk, hreopen⟩
  · obtain ⟨x, hx⟩ := hopened.exists_mirror
    exact ⟨x, hx.shows, hx.sound⟩
  · obtain ⟨x, hx⟩ := hk.exists_mirror
    obtain ⟨y, hy, rfl, hcap⟩ :=
      (ends_reopen (σ := Unreliable b.Contents) hx.sound config).of_ok hx.shows hreopen
    exact ⟨_, hy, hx.sound.reopened hcap⟩

/-- What an engine that nobody opens again keeps. -/
theorem Later.exists_shows (h : Later (fun _ => False) n m)
    (hn : ∃ x, Node.Shows True n x ∧ x.Sound) :
    ∃ y, Node.Shows True m y ∧ y.Sound ∧ m.engine.config = n.engine.config ∧
      m.engine.orphans.length ≤ max n.engine.config.maxOrphans n.engine.orphans.length := by
  induction h with
  | refl =>
    obtain ⟨x, hx, hsound⟩ := hn
    exact ⟨x, hx, hsound, rfl, Nat.le_max_right _ _⟩
  | tail _ hstep ih =>
    obtain ⟨y, hy, hsound, hconfig, hle⟩ := ih
    cases hstep with
    | submit now block hroom =>
      obtain ⟨z, hz, hreceives⟩ :=
        hy.deliver (d := ⟨now, block⟩) hsound fun _ => Faithful.fits_of_room hy.2.1 hroom
      have hlen := hreceives.length_orphans_le hsound
      rw [← hy.1, hconfig] at hlen
      refine ⟨z, hz, (hreceives.sound hsound).1, ?_, ?_⟩
      · have hsame := hreceives.config_eq
        rw [← hy.1, ← hz.1] at hsame
        exact hsame.trans hconfig
      · change (deliver _ ⟨now, block⟩).engine.orphans.length ≤ _
        rw [hz.1]
        omega
    | reopen config hfalse => exact hfalse.elim
    | drift hd =>
      exact ⟨y, hy.drifted hd, hsound, hconfig, hle⟩

/-- The oldest of the queue make room for one more, which comes last. -/
def Enqueues (n : b.Ledger) (hash : Hash) (m : b.Ledger) : Prop :=
  m.engine.orphans =
      n.engine.orphans.drop (n.engine.orphans.length + 1 - n.engine.config.maxOrphans) ++ [hash] ∧
    m.engine.orphans.length ≤ n.engine.config.maxOrphans

/-- Every queued hash that has to go is that of an orphan of the store. -/
def ForgivesNothing (n : b.Ledger) : Prop :=
  evictFrom n.engine.orphans n = evictStrictly n.engine.orphans n ∧
    ∀ e m, evictStrictly n.engine.orphans n = .error e m → e = Unreliable.failure

theorem Shows.enqueues (h : Node.Shows True n x) (hx : x.Sound) (hm : Node.Shows True m y)
    {hash : Hash} (hq : y.engine.orphans = x.engine.orphans.drop x.excess ++ [hash]) :
    Enqueues n hash m := by
  have hn : n.engine = x.engine := h.1
  have hm : m.engine = y.engine := hm.1
  have hcap := hx.cap
  unfold Enqueues
  rw [hn, hm, hq, List.length_append, List.length_drop, List.length_singleton, excess]
  exact ⟨rfl, by omega⟩

theorem Shows.forgivesNothing (h : Node.Shows True n x) (hx : x.Sound) : ForgivesNothing n := by
  have hq : x.engine.orphans = n.engine.orphans := congrArg Engine.orphans h.1.symm
  have hsame := h.evictFrom_eq hx hq
  refine ⟨hsame, fun e m hfail => ?_⟩
  rw [← hsame] at hfail
  obtain ⟨-, -, -, he, -⟩ :=
    (ends_evictFrom (σ := Unreliable b.Contents) (F := True) hx hq).of_error h hfail
  exact he

/-- From its opening on, the queue of an engine agrees with its store, and with its cap but
for what was there before. No queued hash is ever one that the store does not drop. -/
theorem queue_agrees_of_later (hn : Starts n) (h : Later (fun _ => False) n m) :
    Queues m ∧ m.engine.config = n.engine.config ∧
    m.engine.orphans.length ≤ max n.engine.config.maxOrphans n.engine.orphans.length ∧
    (∀ now block l, Medium.room m.store block → m.Lacks block.hash →
      (m.after (submit now block)).Stores l → l.hash = block.hash → l.isOrphan →
        Enqueues m block.hash (m.after (submit now block))) ∧
    ∀ now block k, vet now block m = .ok .orphan k →
      k.engine.orphans = m.engine.orphans ∧ ForgivesNothing k := by
  obtain ⟨x, hx, hsound, hconfig, hle⟩ := h.exists_shows hn.exists_shows
  refine ⟨hx.queues hsound, hconfig, hle, ?_, ?_⟩
  · intro now block l hroom hlacks hstores hhash horphan
    obtain ⟨y, hy, hreceives⟩ :=
      hx.deliver (d := ⟨now, block⟩) hsound fun _ => Faithful.fits_of_room hx.2.1 hroom
    have hunknown := (hx.lacks hsound.arena).mp hlacks
    have hl := (hy.stores (hreceives.sound hsound).1.arena).mp hstores
    exact hx.enqueues hsound hy (hreceives.orphans_eq hsound hunknown hl hhash horphan)
  · intro now block k hvet
    obtain ⟨y, hy, rfl, -⟩ :=
      (ends_vet (σ := Unreliable b.Contents) (F := True) hsound).of_ok hx hvet
    exact ⟨congrArg Engine.orphans (hy.1.trans hx.1.symm), hy.forgivesNothing hsound⟩

end Queue

section Sessions

variable {permitted : ConsensusConfig → Prop}

def narrow : ConsensusConfig where
  maxOrphans := 2

/-- Three orphans, where there is room for more. -/
def threeWait : Backing.arena.Ledger :=
  (started {} []).feed [⟨0, .second⟩, ⟨0, .rival⟩, ⟨0, .third⟩]

def narrowed : Backing.arena.Ledger :=
  threeWait.after (reopen narrow)

def newcomer : Block :=
  .easy Block.third.hash [.coinbase 4]

/-- The store is going to fail when a second orphan has to go. -/
def withOutage (n : Backing.arena.Ledger) : Backing.arena.Ledger :=
  { n with store := ⟨n.store.store, [.window .removeOrphan 1 1]⟩ }

/-- One orphan had to go, and the store failed when the next one was to go. -/
def hampered : Backing.arena.Ledger :=
  narrowed.withOutage.after (submit 0 newcomer)

theorem narrowed_computed :
    threeWait.fault? (reopen narrow) = none ∧
    narrowed.engine.orphans.length = 3 ∧
    hampered.engine.orphans = [Block.rival.hash, Block.third.hash] ∧
    Arena.find? hampered.mended.store.store newcomer.hash = none ∧
    (Arena.find? (hampered.mended.after (submit 0 newcomer)).store.store newcomer.hash).map
      Link.isOrphan = some true := by
  decide +kernel

theorem later_withOutage (n : Backing.arena.Ledger) : Later permitted n n.withOutage :=
  .single (.drift (n := n) rfl)

theorem later_mended (n : Backing.arena.Ledger) : Later permitted n n.mended :=
  .single (.drift (n := n) rfl)

theorem starts_narrowed : Starts narrowed := by
  have hreachable : Reachable (fun _ => True) (started {} []) :=
    reachable_planned trivial (by decide) []
  have hthree : Later (fun _ => True) (started {} []) threeWait :=
    ((later_submit _ 0 .second).trans (later_submit _ 0 .rival)).trans (later_submit _ 0 .third)
  obtain ⟨⟨⟩, hopen⟩ := eq_ok_of_fault? narrowed_computed.1
  exact .inr ⟨narrow, threeWait, hreachable.later hthree, hopen⟩

theorem later_hampered : Later (fun _ => False) narrowed hampered.mended :=
  ((later_withOutage narrowed).trans (later_submit _ 0 newcomer)).trans (later_mended hampered)

/-- One of the three orphans went with a call that failed, one more with the next call. -/
theorem queue_agrees_after_hampered :
    Queues hampered.mended ∧ hampered.engine.orphans = [Block.rival.hash, Block.third.hash] ∧
    Enqueues hampered.mended newcomer.hash (hampered.mended.after (submit 0 newcomer)) := by
  obtain ⟨-, -, hqueue, hunknown, horphan⟩ := narrowed_computed
  obtain ⟨hqueues, -, -, henqueues, -⟩ := queue_agrees_of_later starts_narrowed later_hampered
  obtain ⟨l, hl, ho⟩ := Option.map_eq_some_iff.mp horphan
  have hhash : l.hash = newcomer.hash := (Arena.mem_of_find? hl).2
  rw [← hhash] at hl
  exact ⟨hqueues, hqueue, henqueues 0 newcomer l trivial
    (lacks_of_find? hunknown) (stores_of_find? hl) hhash ho⟩

end Sessions

end BlockTree.Node
