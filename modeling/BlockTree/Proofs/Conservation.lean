import BlockTree.Proofs.Audience

/-! What an engine counts adds up to what its store holds. Nothing is resolved or stored as
an orphan without being counted, also where a failing call stops the engine halfway. -/

namespace BlockTree

theorem length_filter_not_mem {hashes gone : List Hash} (hn : hashes.Nodup) (hg : gone.Nodup)
    (hsub : gone ⊆ hashes) : (hashes.filter (· ∉ gone)).length + gone.length = hashes.length := by
  have hsame : (hashes.filter (· ∈ gone)).Perm gone := by
    refine (List.perm_ext_iff_of_nodup (hn.filter _) hg).mpr fun hash => ?_
    simp only [List.mem_filter, decide_eq_true_eq, and_iff_right_iff_imp]
    exact fun h => hsub h
  rw [List.length_eq_length_filter_add (l := hashes) (· ∈ gone), hsame.length_eq, Nat.add_comm]
  simp

/-- How often blocks were accepted, queued, rejected and known before. -/
def Metrics.fates (m : Metrics) : List Nat :=
  [m.accepted, m.orphaned, m.rejected, m.duplicate]

namespace Node

section Counting

variable {F : Prop} {d : Delivery} {block : Block} {now : Int} {x y : Node Arena}
  {change? : Option BranchChange} {published : List BranchChange} {links orphans : Nat}

theorem Sound.length_evict (hx : x.Sound) {k : Nat} (hk : k ≤ x.engine.orphans.length) :
    (x.evict k).store.links.length + k = x.store.links.length := by
  have hsub : x.engine.orphans.take k ⊆ x.store.links.map Link.hash := by
    intro hash hmem
    have hqueued := List.mem_of_mem_take hmem
    rw [hx.queue] at hqueued
    exact (List.filter_sublist.map Link.hash).subset hqueued
  have hlen := length_filter_not_mem hx.arena.ordered.nodup
    (hx.nodup_queue.sublist (List.take_sublist _ _)) hsub
  rw [List.filter_map, List.length_map, List.length_map, List.length_take_of_le hk] at hlen
  exact hlen

/-- The queue loses the promoted orphans, and no others. -/
theorem Sound.length_orphans_filed (hx : x.Sound) {link : Link} {promoted : List Link}
    (hf : x.store.Files link promoted) (hlink : link.isOrphan = false) :
    (x.filed link promoted).engine.orphans.length + promoted.length =
      x.engine.orphans.length := by
  have hsub : promoted.map Link.hash ⊆ x.engine.orphans := by
    intro hash hmem
    obtain ⟨u, hu, rfl⟩ := List.mem_map.mp hmem
    obtain ⟨o, ho, horphan, he, -⟩ := hf.replaces u hu
    rw [hx.queue, ← he]
    exact List.mem_map_of_mem (List.mem_filter.mpr ⟨ho, horphan⟩)
  have hlen := length_filter_not_mem hx.nodup_queue hf.nodup hsub
  rw [List.length_map] at hlen
  simpa [filed, recorded, hlink] using hlen

/-- The store and the queue have grown by what was counted. -/
structure Balanced (links orphans : Nat) (published : List BranchChange) (x : Node Arena) :
    Prop where
  links_eq : x.store.links.length + x.engine.metrics.evicted =
    links + x.engine.metrics.accepted + x.engine.metrics.orphaned
  orphans_eq : x.engine.orphans.length + x.engine.metrics.promoted + x.engine.metrics.evicted =
    orphans + x.engine.metrics.orphaned
  reorgs_eq : x.engine.metrics.reorgs = published.countP BranchChange.isReorg

namespace Balanced

theorem start (hx : x.Sound) (hfresh : x.engine = .ofArena x.engine.config x.store) :
    Balanced x.store.links.length x.store.orphans.length [] x := by
  have hmetrics := congrArg Engine.metrics hfresh
  refine ⟨?_, ?_, ?_⟩
  · simp [hmetrics, Engine.ofArena]
  · simp [hmetrics, Engine.ofArena, hx.queue]
  · simp [hmetrics, Engine.ofArena]

variable (h : Balanced links orphans published x)

include h

theorem noted (e : Error) : Balanced links orphans published (x.noted e) := by
  cases e <;> exact ⟨h.links_eq, h.orphans_eq, h.reorgs_eq⟩

theorem evict (hx : x.Sound) {k : Nat} (hk : k ≤ x.engine.orphans.length) :
    Balanced links orphans published (x.evict k) := by
  have hlinks := h.links_eq
  have horphans := h.orphans_eq
  have hlen := hx.length_evict hk
  refine ⟨?_, ?_, h.reorgs_eq⟩
  · change _ + (x.engine.metrics.evicted + k) = _
    simp only [Node.evict] at hlen ⊢
    omega
  · simp only [Node.evict, List.length_drop]
    omega

theorem cleared (hx : x.Sound) (status : LinkStatus) :
    Balanced links orphans published (x.cleared status) := by
  cases status with
  | resolved => exact h
  | orphan =>
    have hcap := hx.cap
    exact h.evict hx (by rw [excess]; omega)

theorem filed (hx : x.Sound) {link : Link} {promoted : List Link}
    (hf : x.store.Files link promoted) :
    Balanced links orphans published (x.filed link promoted) := by
  have hlinks := h.links_eq
  have horphans := h.orphans_eq
  have hlen : (x.filed link promoted).store.links.length = x.store.links.length + 1 :=
    Arena.Files.length_file
  -- what is promoted stays in the store, and leaves the queue
  cases hlink : link.isOrphan with
  | true =>
    refine ⟨?_, ?_, ?_⟩
    · rw [hlen]
      simp only [Node.filed, recorded, hlink, if_true]
      omega
    · simp only [Node.filed, recorded, hlink, if_true, List.length_append, List.length_singleton]
      omega
    · simpa [Node.filed, recorded, hlink] using h.reorgs_eq
  | false =>
    have hqueue := hx.length_orphans_filed hf hlink
    refine ⟨?_, ?_, ?_⟩
    · rw [hlen]
      simp only [Node.filed, recorded, hlink, Bool.false_eq_true, if_false]
      omega
    · simp only [Node.filed, recorded, hlink, Bool.false_eq_true, if_false, List.length_map]
        at hqueue ⊢
      omega
    · simpa [Node.filed, recorded, hlink] using h.reorgs_eq

theorem taken (hx : x.Sound) (hf : x.Fresh block) :
    Balanced links orphans published (x.taken block) :=
  (h.cleared hx _).filed (hx.cleared _) (hx.files_taken hf)

theorem announced (change : BranchChange) :
    Balanced links orphans (published ++ [change]) (x.announced change) := by
  refine ⟨h.links_eq, h.orphans_eq, ?_⟩
  rw [List.countP_append, List.countP_singleton, ← h.reorgs_eq]
  simp only [Node.announced]
  split <;> rfl

theorem receives (hx : x.Sound) (hr : x.Receives F d change? y) :
    Balanced links orphans (published ++ change?.toList) y := by
  cases hr with
  | refused => simpa using h.noted _
  | aborted _ habort =>
    rw [Option.toList_none, List.append_nil]
    obtain rfl | ⟨hgranted, ⟨k, hk, rfl⟩ | rfl⟩ := habort
    · exact h
    · have hcap := hx.cap
      refine h.evict hx (hk.trans ?_)
      cases x.store.place d.block with
      | resolved => exact Nat.zero_le _
      | orphan =>
        rw [surplus, excess]
        omega
    · exact h.taken hx (hx.fresh hgranted)
  | @submitted o y ho =>
    have htaken := h.taken hx (hx.fresh ho.admitted)
    have hsettles := ho.settles
    cases hchange : o.change? with
    | none =>
      rw [hchange] at hsettles
      rw [hsettles.1]
      simpa using htaken
    | some change =>
      rw [hchange] at hsettles
      rw [hsettles.1]
      exact htaken.announced change

end Balanced

theorem refusal?_eq_some {e : Error} (h : x.refusal? now block = some e) :
    (∃ fault, e = .validation fault) ∨ e = .duplicateLink block.hash := by
  unfold refusal? at h
  split at h
  · exact .inl ⟨_, (Option.some.inj h).symm⟩
  · split at h
    · exact .inr (Option.some.inj h).symm
    · split at h
      · obtain ⟨fault, -, he⟩ := Option.map_eq_some_iff.mp h
        exact .inl ⟨_, he.symm⟩
      · cases h

/-- One fate of a block is counted, once. -/
def OneMore (m m' : Metrics) : Prop :=
  ∃ i < 4, m'.fates = m.fates.modify i (· + 1)

theorem oneMore_noted {e : Error} (h : x.refusal? now block = some e) :
    OneMore x.engine.metrics (x.noted e).engine.metrics := by
  obtain ⟨fault, rfl⟩ | rfl := refusal?_eq_some h
  · exact ⟨2, by omega, rfl⟩
  · exact ⟨3, by omega, rfl⟩

theorem oneMore_taken (x : Node Arena) (block : Block) :
    OneMore x.engine.metrics (x.taken block).engine.metrics := by
  unfold Node.taken
  cases x.store.place block with
  | resolved => exact ⟨0, by omega, rfl⟩
  | orphan => exact ⟨1, by omega, rfl⟩

theorem Settles.fates_eq (h : x.Settles change? y) :
    y.engine.metrics.fates = x.engine.metrics.fates := by
  cases change? with
  | none => rw [h.1]
  | some change =>
    rw [h.1]
    rfl

theorem Submitted.oneMore {o : Outcome} (h : x.Submitted now block o y) :
    OneMore x.engine.metrics y.engine.metrics := by
  obtain ⟨i, hi, he⟩ := oneMore_taken x block
  exact ⟨i, hi, h.settles.fates_eq.trans he⟩

end Counting

section Stores

variable {b : Backing} {n : b.Ledger} {x : Node Arena} {now : Int} {block : Block} {F : Prop}

/-- These are the links that the store answers with, each once. -/
def Lists (n : b.Ledger) (links : List Link) : Prop :=
  links.Nodup ∧ ∀ l, n.Stores l ↔ l ∈ links

theorem Shows.lists (h : Node.Shows F n x) (hx : x.Sound) : n.Lists x.store.links :=
  ⟨hx.arena.ordered.nodup.of_map, fun _ => h.stores hx.arena⟩

theorem Sound.countP_isOrphan (hx : x.Sound) :
    x.store.links.countP Link.isOrphan = x.engine.orphans.length := by
  rw [hx.queue, List.length_map, List.countP_eq_length_filter, Arena.orphans]

theorem Sound.countP_isResolved (hx : x.Sound) :
    x.store.links.countP Link.isResolved + x.engine.orphans.length = x.store.links.length := by
  rw [← hx.countP_isOrphan, Nat.add_comm, List.length_eq_countP_add_countP Link.isOrphan]
  congr 1
  exact List.countP_congr fun l _ => by simp [Link.isResolved]

/-- A call that no failing call of the store has stopped is counted. -/
theorem Shows.oneMore (h : Node.Shows F n x) (hx : x.Sound) (hroom : Medium.room n.store block)
    (hcalm : n.fault? (submit now block) ≠ some Unreliable.failure) :
    OneMore n.engine.metrics (n.after (submit now block)).engine.metrics := by
  have hfits : Faithful.fits _ x.store.nextSeq block := Faithful.fits_of_room h.2.1 hroom
  have hends : Ends (Node.Shows F) (submit now block) x _ _ := ends_submit hx fun _ => hfits
  have hsubmit := hends n h
  unfold fault? at hcalm
  unfold after
  cases hrun : submit now block n with
  | ok o m =>
    simp only [hrun] at hsubmit ⊢
    obtain ⟨y, hy, ho⟩ := hsubmit
    rw [h.1, hy.1]
    exact ho.oneMore
  | error e m =>
    simp only [hrun] at hsubmit hcalm ⊢
    obtain ⟨y, hy, ⟨hrefused, hnoted⟩ | ⟨-, he, -⟩⟩ := hsubmit
    · rw [h.1, hy.1, hnoted]
      exact oneMore_noted hrefused
    · exact absurd (congrArg some he) hcalm

theorem Shows.fault?_ne (h : Node.Shows False n x) (hx : x.Sound)
    (hroom : Medium.room n.store block) :
    n.fault? (submit now block) ≠ some Unreliable.failure := by
  have hfits : Faithful.fits _ x.store.nextSeq block := Faithful.fits_of_room h.2.1 hroom
  intro hfault
  obtain ⟨y, -, ⟨hrefused, -⟩ | ⟨hF, -⟩⟩ :=
    (ends_submit hx fun _ => hfits).of_error h (eq_error_of_fault? hfault)
  · obtain ⟨fault, he⟩ | he := refusal?_eq_some hrefused <;> cases he
  · exact hF

end Stores

end Node

namespace Audience

variable {b : Backing} {n : b.Ledger} {a : Audience (Unreliable b.Contents)}

/-- Of an engine that nobody else writes past, the counters and the store agree after every
call, whatever failed, and the reorganisations are counted among the events sent. A call that
the store lets through is counted in one way only. -/
theorem counters_of_later (hn : Node.Starts n) (h : Later ⟨n, [], []⟩ a) :
    (∃ before after, n.Lists before ∧ a.node.Lists after ∧
      after.countP Link.isResolved = before.countP Link.isResolved +
        a.node.engine.metrics.accepted + a.node.engine.metrics.promoted ∧
      after.countP Link.isOrphan + a.node.engine.metrics.promoted +
        a.node.engine.metrics.evicted =
          before.countP Link.isOrphan + a.node.engine.metrics.orphaned) ∧
    (a.events.sent = a.published.length ∧
      a.events.kept = a.published.drop
        (a.published.length - Channel.roundUp n.engine.config.eventCapacity) ∧
      a.node.engine.metrics.reorgs = a.published.countP BranchChange.isReorg) ∧
    ∀ now block, Medium.room a.node.store block →
      a.node.mended.fault? (Node.submit now block) ≠ some Unreliable.failure ∧
      (a.node.fault? (Node.submit now block) ≠ some Unreliable.failure →
        Node.OneMore a.node.engine.metrics
          (a.node.after (Node.submit now block)).engine.metrics) := by
  have hcarries := (h.attended_of_starts hn).carries
  obtain ⟨x, hx, hsound, hfresh⟩ := hn.exists_fresh
  obtain ⟨y, hy, hysound, hbalanced⟩ := h.exists_shows
    (P := Node.Balanced x.store.links.length x.store.orphans.length) hx hsound
    (.start hsound hfresh)
    (fun _ _ _ _ _ hsound hr hbalanced => hbalanced.receives hsound hr)
    fun _ _ _ hbalanced => ⟨hbalanced.links_eq, hbalanced.orphans_eq, hbalanced.reorgs_eq⟩
  refine ⟨⟨x.store.links, y.store.links, hx.lists hsound, hy.lists hysound, ?_, ?_⟩, ?_, ?_⟩
  · have hbefore := hsound.countP_isResolved
    have hafter := hysound.countP_isResolved
    have hqueue := congrArg List.length hsound.queue
    have hlinks := hbalanced.links_eq
    have horphans := hbalanced.orphans_eq
    rw [List.length_map] at hqueue
    rw [hy.1]
    omega
  · have hqueue := congrArg List.length hsound.queue
    rw [List.length_map] at hqueue
    rw [hy.1, hysound.countP_isOrphan, hsound.countP_isOrphan, hqueue]
    exact hbalanced.orphans_eq
  · refine ⟨hcarries.sent_eq, hcarries.kept_eq, ?_⟩
    rw [hy.1]
    exact hbalanced.reorgs_eq
  · intro now block hroom
    exact ⟨hy.mended.fault?_ne hysound hroom, hy.oneMore hysound hroom⟩

section Sessions

abbrev Session := Audience (Unreliable Backing.arena.Contents)

theorem later_withOutage (a : Session) : Later a { a with node := a.node.withOutage } :=
  .single (.drift (a := a) rfl)

theorem later_mended (a : Session) : Later a { a with node := a.node.mended } :=
  .single (.drift (a := a) rfl)

theorem later_deliver (a : Session) (d : Delivery) : Later a (a.deliver d) :=
  .single (.deliver d trivial)

/-- A block comes in while the store lets only one orphan go. -/
def stopped (n : Backing.arena.Ledger) (d : Delivery) : Session :=
  deliver ⟨n.withOutage, [], []⟩ d

theorem later_stopped (n : Backing.arena.Ledger) (d : Delivery) :
    Later ⟨n, [], []⟩ (stopped n d) := by
  have houtage : Later (σ := Unreliable Backing.arena.Contents) ⟨n, [], []⟩
      ⟨n.withOutage, [], []⟩ := later_withOutage ⟨n, [], []⟩
  exact houtage.trans (later_deliver _ d)

/-- One of three orphans had to go for a block that was not stored in the end. Two more are
promoted. -/
def recovered : Session :=
  let s := stopped Node.narrowed ⟨0, Node.newcomer⟩
  { s with node := s.node.mended }.deliver ⟨0, .first⟩

theorem later_recovered : Later ⟨Node.narrowed, [], []⟩ recovered :=
  ((later_stopped Node.narrowed ⟨0, Node.newcomer⟩).trans (later_mended _)).trans
    (later_deliver _ ⟨0, .first⟩)

theorem recovered_computed :
    recovered.node.engine.metrics.fates = [1, 0, 0, 0] ∧
    recovered.node.engine.metrics.promoted = 2 ∧
    recovered.node.engine.metrics.evicted = 1 ∧
    recovered.node.fault? (Node.submit 0 .second) = none := by
  decide +kernel

theorem counters_of_recovered : (∃ before after, Node.Lists (b := .arena) Node.narrowed before ∧
      Node.Lists (b := .arena) recovered.node after ∧
      after.countP Link.isResolved = before.countP Link.isResolved + 3 ∧
      after.countP Link.isOrphan + 3 = before.countP Link.isOrphan) ∧
    Node.OneMore recovered.node.engine.metrics
      (recovered.node.after (Node.submit 0 .second)).engine.metrics := by
  obtain ⟨hfates, hpromoted, hevicted, hcalm⟩ := recovered_computed
  obtain ⟨⟨before, after, hbefore, hafter, hresolved, horphans⟩, -, hcalls⟩ :=
    counters_of_later Node.starts_narrowed later_recovered
  simp only [Metrics.fates, List.cons.injEq, and_true] at hfates
  obtain ⟨haccepted, horphaned, -⟩ := hfates
  refine ⟨⟨before, after, hbefore, hafter, ?_, ?_⟩, ?_⟩
  · rw [hresolved, haccepted, hpromoted]
  · rw [hpromoted, hevicted, horphaned] at horphans
    exact horphans
  · exact (hcalls 0 .second trivial).2 (by rw [hcalm]; nofun)

end Sessions

end Audience

end BlockTree
