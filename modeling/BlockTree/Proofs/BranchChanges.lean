import BlockTree.Proofs.Broadcast
import BlockTree.Proofs.Delivery
import BlockTree.Proofs.Following

/-! The moves of the tip that a node publishes while blocks come in and calls fail. Each
starts where the one before it ended, and says how to follow it. -/

namespace BlockTree

/-- The moves lead from one tip to another, each on from where the one before it led. -/
def Leads : Option Link → List BranchChange → Option Link → Prop
  | tip?, [], last? => tip? = last?
  | tip?, change :: changes, last? => change.old? = tip? ∧ Leads (some change.new) changes last?

theorem Leads.append {tip? middle? last? : Option Link} {changes more : List BranchChange}
    (h : Leads tip? changes middle?) (h' : Leads middle? more last?) :
    Leads tip? (changes ++ more) last? := by
  induction changes generalizing tip? with
  | nil =>
    cases h
    exact h'
  | cons change changes ih => exact ⟨h.1, ih h.2⟩

theorem Leads.exists_last {tip : Link} {last? : Option Link} {changes : List BranchChange}
    (h : Leads (some tip) changes last?) : ∃ last, last? = some last := by
  induction changes generalizing tip with
  | nil => exact ⟨tip, h.symm⟩
  | cons change changes ih => exact ih h.2

/-- Only the first of the moves can be one from nowhere. -/
theorem Leads.old_ne_none {tip : Link} {last? : Option Link} {changes : List BranchChange}
    (h : Leads (some tip) changes last?) : ∀ change ∈ changes, change.old? ≠ none := by
  induction changes generalizing tip with
  | nil => simp
  | cons change changes ih =>
    intro c hc
    rcases List.mem_cons.mp hc with he | hc
    · rw [he, h.1]
      simp
    · exact ih h.2 c hc

namespace Arena

variable {a c : Arena} {change : BranchChange}

/-- Both tips of a move are resolved, and the common link is where their paths part. -/
structure Explains (a : Arena) (change : BranchChange) : Prop where
  new : ∃ path, a.Lineage change.new path
  common_none : change.old? = none → change.common? = none
  common_some : ∀ old, change.old? = some old → ∃ oldPath newPath, ∃ d : Delta,
    a.Lineage old oldPath ∧ a.Lineage change.new newPath ∧ d.Parts [] [] oldPath newPath ∧
      change.common? = some d.ancestor

/-- What is resolved is final, so a move is explained for good. -/
theorem Explains.mono (h : a.Explains change)
    (hkeep : ∀ l ∈ a.links, l.isResolved → l ∈ c.links) : c.Explains change := by
  have hlineage {l : Link} {path : List Link} (hl : a.Lineage l path) : c.Lineage l path :=
    hl.mono fun m hm => hkeep m (hl.subset m hm).1 (hl.subset m hm).2
  refine ⟨?_, h.common_none, fun old hold => ?_⟩
  · obtain ⟨path, hpath⟩ := h.new
    exact ⟨path, hlineage hpath⟩
  · obtain ⟨oldPath, newPath, d, ho, hn, hparts, hcommon⟩ := h.common_some old hold
    exact ⟨oldPath, newPath, d, hlineage ho, hlineage hn, hparts, hcommon⟩

end Arena

namespace Node

section Moving

variable {F : Prop} {d : Delivery} {ds : List Delivery} {x y : Node Arena}
  {change : BranchChange} {change? : Option BranchChange} {changes : List BranchChange}

theorem Moves.explains (h : x.Moves change) (hx : x.Sound) : x.store.Explains change := by
  have hbest := hx.arena.bestLink?_eq_some h.best
  refine ⟨hx.arena.chained.exists_lineage hbest.mem hbest.resolved, fun hold => ?_,
    fun old hold => ?_⟩
  · exact h.common_none (h.old.symm.trans hold)
  · exact h.common_some old (h.old.symm.trans hold)

/-- A move that is published is the only thing that takes the tip from its place. -/
structure Publishes (x : Node Arena) (changes : List BranchChange) (y : Node Arena) : Prop where
  leads : Leads x.engine.tip? changes y.engine.tip?
  events : y.engine.events = changes.foldl Channel.publish x.engine.events
  explains : ∀ change ∈ changes, y.store.Explains change

theorem Publishes.nothing (htip : y.engine.tip? = x.engine.tip?)
    (hevents : y.engine.events = x.engine.events) : x.Publishes [] y :=
  ⟨htip.symm, hevents, by simp⟩

theorem Receives.publishes (h : x.Receives F d change? y) (hx : x.Sound) :
    x.Publishes change?.toList y := by
  cases h with
  | refused => exact .nothing rfl rfl
  | aborted _ habort =>
    rcases habort with hy | ⟨-, ⟨k, -, hy⟩ | hy⟩
    · exact .nothing (by rw [hy]) (by rw [hy])
    · exact .nothing (by rw [hy]; rfl) (by rw [hy]; rfl)
    · exact .nothing (by rw [hy, tip_taken]) (by rw [hy, events_taken])
  | @submitted o y ho =>
    have htaken := hx.taken (hx.fresh ho.admitted)
    have hsettles := ho.settles
    cases hchange : o.change? with
    | none =>
      rw [hchange] at hsettles
      obtain ⟨hy, -⟩ := hsettles
      exact .nothing (by rw [hy, tip_taken]) (by rw [hy, events_taken])
    | some change =>
      rw [hchange] at hsettles
      obtain ⟨hy, hmoves⟩ := hsettles
      subst hy
      refine ⟨⟨?_, rfl⟩, ?_, ?_⟩
      · rw [hmoves.old, tip_taken]
      · change (x.taken d.block).engine.events.publish change = x.engine.events.publish change
        rw [events_taken]
      · intro c hc
        rw [List.mem_singleton.mp hc]
        exact hmoves.explains htaken

theorem ReceivesAll.publishes (h : x.ReceivesAll F ds changes y) (hx : x.Sound) :
    x.Publishes changes y := by
  induction h with
  | done => exact .nothing rfl rfl
  | @next x y z d ds change? changes hstep hrest ih =>
    have hfirst := hstep.publishes hx
    have hy := (hstep.sound hx).1
    have hthen := ih hy
    refine ⟨hfirst.leads.append hthen.leads, ?_, ?_⟩
    · rw [List.foldl_append, ← hfirst.events, hthen.events]
    · intro change hchange
      rcases List.mem_append.mp hchange with hchange | hchange
      · exact (hfirst.explains change hchange).mono (hrest.sound hy).2
      · exact hthen.explains change hchange

end Moving

variable {b : Backing} {permitted : ConsensusConfig → Prop} {config : ConsensusConfig}
  {k n m : b.Ledger} {ds : List Delivery} {change : BranchChange}

/-- The links from the genesis link to `l`, as the store is read. -/
def HasPath (n : b.Ledger) (l : Link) (links : List Link) : Prop :=
  ∃ p s, Path.toLink l n.store.store = .ok p s ∧ p.links = links

/-- What the store tells of a move: where the two paths part, whether the old tip was left
for another branch, and how to get from the one path to the other. -/
structure Traces (n : b.Ledger) (change : BranchChange) : Prop where
  common_none : change.common? = none ↔ change.old? = none
  reorg : change.isReorg ↔ ∃ old links, change.old? = some old ∧
    n.HasPath change.new links ∧ old ∉ links
  follows : ∀ old, change.old? = some old → ∃ before after common,
    n.HasPath old before ∧ n.HasPath change.new after ∧
      change.common? = some common ∧ common.Highest before after ∧
        (∃ d s, Delta.between old change.new n.store.store = .ok d s ∧ d.Turns before after) ∧
          ∀ d s, Delta.between old change.new n.store = .ok d s → d.Turns before after

theorem Shows.hasPath {F : Prop} {x : Node Arena} (h : Node.Shows F n x) (hx : x.Sound)
    {l : Link} {path links : List Link} (hpath : x.store.Lineage l path) :
    n.HasPath l links ↔ links = path.reverse := by
  obtain ⟨p, s, hrun, hp⟩ := h.exists_read (hx.arena.reads_toLink hpath)
  constructor
  · intro hlinks
    obtain ⟨q, t, hq, he⟩ := hlinks
    rw [hrun] at hq
    cases hq
    rw [← he, hp]
  · intro he
    exact ⟨p, s, hrun, hp.trans he.symm⟩

theorem Shows.traces {x : Node Arena} (h : Node.Shows True n x) (hx : x.Sound)
    (hchange : x.store.Explains change) : n.Traces change := by
  have hpaths {l : Link} {path links : List Link} (hpath : x.store.Lineage l path) :
      n.HasPath l links ↔ links = path.reverse := h.hasPath hx hpath
  cases hold : change.old? with
  | none =>
    have hnone := hchange.common_none hold
    refine ⟨by simp [hold, hnone], ?_, by simp [hold]⟩
    simp [BranchChange.isReorg, hold]
  | some old =>
    obtain ⟨oldPath, newPath, d, ho, hn, hparts, hcommon⟩ := hchange.common_some old hold
    refine ⟨by simp [hold, hcommon], ?_, ?_⟩
    · -- stored links have hashes of their own, so the old tip is told by its hash
      have hsame : old.hash = d.ancestor.hash ↔ old ∈ newPath := by
        rw [← hparts.ancestor_eq_iff ho]
        have hmem := (ho.subset d.ancestor (hparts.highest ho).mem_before).1
        exact ⟨fun he => (hx.arena.ordered.eq_of_hash ho.mem_links hmem he).symm,
          fun he => congrArg Link.hash he.symm⟩
      simp [BranchChange.isReorg, hold, hcommon, hsame, hpaths hn]
    · intro old' hold'
      obtain rfl : old = old' := Option.some.inj (hold.symm.trans hold')
      have hturns {d : Delta} (hd : d.Parts [] [] oldPath newPath) :
          d.Turns oldPath.reverse newPath.reverse := by
        simpa [Delta.Turns] using hd.follow
      refine ⟨_, _, _, (hpaths ho).mpr rfl, (hpaths hn).mpr rfl, hcommon,
        (hparts.highest ho).reverse, ?_, ?_⟩
      · obtain ⟨d, s, hrun, hd⟩ := h.exists_read (hx.arena.reads_between ho hn)
        exact ⟨d, s, hrun, hturns hd⟩
      · intro d s hrun
        obtain ⟨-, -, -, hd⟩ := Ends.of_ok (hx.arena.reads_between ho hn) h.2 hrun
        exact hturns hd

/-- The moves that an engine publishes start at the tip it found when it was opened, follow
one on the other up to its tip, and can be traced in the store then and later. All of them are
sent, and the latest are kept. -/
theorem traces_of_reopened (h : Reachable permitted k) (hopen : reopen config k = .ok () n)
    (hroom : n.HasRoom ds) :
    n.Tells .lastLink n.engine.tip? ∧
    Leads n.engine.tip? (n.changes ds) (n.feed ds).engine.tip? ∧
    (n.feed ds).engine.events = (n.changes ds).foldl Channel.publish n.engine.events ∧
    (n.feed ds).engine.events.sent = (n.changes ds).length ∧
    (n.feed ds).engine.events.kept = (n.changes ds).drop
      ((n.changes ds).length - Channel.roundUp config.eventCapacity) ∧
    ∀ change ∈ n.changes ds, (n.feed ds).Traces change := by
  obtain ⟨x, hx⟩ := h.exists_mirror
  obtain ⟨y, hy, hye, hcap⟩ := (ends_reopen hx.sound config).of_ok hx.shows hopen
  have hysound : y.Sound := hye ▸ hx.sound.reopened hcap
  obtain ⟨z, hz, hall⟩ := hy.feed hysound hroom
  have hpublishes := hall.publishes hysound
  have hzsound := (hall.sound hysound).1
  have htip : n.engine.tip? = y.store.bestLink? := by
    rw [hy.1, hye]
    rfl
  have hevents : (n.feed ds).engine.events =
      (n.changes ds).foldl Channel.publish n.engine.events := by
    rw [hy.1, hz.1]
    exact hpublishes.events
  have hcarries : (n.feed ds).engine.events.Carries (Channel.roundUp config.eventCapacity)
      (n.changes ds) := by
    rw [hevents, hy.1, hye]
    exact (Channel.carries_ofCapacity config.eventCapacity).foldl_publish _
  refine ⟨(hy.tells hysound.arena .lastLink trivial rfl).mpr htip, ?_, hevents,
    hcarries.sent_eq, hcarries.kept_eq, ?_⟩
  · rw [hy.1, hz.1]
    exact hpublishes.leads
  · intro change hchange
    exact hz.traces hzsound (hpublishes.explains change hchange)

/-- The store fails when it is asked for its best link a third time. -/
def forgetful : Backing.arena.Ledger :=
  (started {} [.window .lastLink 2 1]).after (reopen {})

/-- Two branches of one block each, and then one more block on the later of them. -/
def branches : List Delivery :=
  [⟨0, .first⟩, ⟨0, .second⟩, ⟨0, .rival⟩, ⟨0, .third⟩]

theorem branches_computed :
    (started {} [.window .lastLink 2 1]).fault? (reopen {}) = none ∧
    (forgetful.changes branches).map BranchChange.isReorg = [false, false, true] := by
  decide +kernel

/-- The tip that was not followed in time is followed with the next block. -/
theorem traces_branches : (∀ change ∈ forgetful.changes branches,
      (forgetful.feed branches).Traces change) ∧
    (forgetful.changes branches).map BranchChange.isReorg = [false, false, true] ∧
    (forgetful.feed branches).engine.events.sent = 3 := by
  obtain ⟨hopened, hreorgs⟩ := branches_computed
  obtain ⟨⟨⟩, hopen⟩ : ∃ u, reopen {} (started {} [.window .lastLink 2 1]) = .ok u forgetful :=
    eq_ok_of_fault? hopened
  have hreachable : Reachable (fun _ => True) (started {} [.window .lastLink 2 1]) :=
    reachable_planned trivial (by decide) _
  obtain ⟨-, -, -, hsent, -, htraces⟩ :=
    traces_of_reopened hreachable hopen (hasRoom_arena _ branches)
  have hthree : (forgetful.changes branches).length = 3 := by
    simpa using congrArg List.length hreorgs
  exact ⟨htraces, hreorgs, hsent.trans hthree⟩

end Node

end BlockTree
