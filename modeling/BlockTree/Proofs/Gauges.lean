import BlockTree.Proofs.Convergence
import BlockTree.Proofs.Audience

/-! The two gauges of an engine, and what they are to show. That of the tip moves with the tip.
That of the orphans is written where a block has been stored, so what was evicted for a block
that was not stored in the end is still counted. -/

namespace BlockTree.Node

section Transitions

variable {F : Prop} {gone : Nat} {d : Delivery} {block : Block} {x y : Node Arena}
  {change? : Option BranchChange}

theorem Sound.excess_le (hx : x.Sound) : x.excess ≤ x.engine.orphans.length := by
  have hcap := hx.cap
  rw [excess]
  omega

/-- The gauges show the tip, and the orphans with those that have gone unnoticed. -/
structure Gauged (gone : Nat) (x : Node Arena) : Prop where
  tip : x.engine.metrics.tipHeight = gauge ((x.engine.tip?.bind Link.height?).getD 0)
  orphans : x.engine.metrics.orphanCount = x.engine.orphans.length + gone

namespace Gauged

theorem start (hfresh : x.engine = .ofArena x.engine.config x.store) : Gauged 0 x := by
  refine ⟨?_, ?_⟩
  · rw [hfresh]
    simp only [Engine.ofArena]
  · rw [hfresh]
    simp [Engine.ofArena]

variable (h : Gauged gone x)

include h

theorem noted (e : Error) : Gauged gone (x.noted e) := by
  cases e <;> exact ⟨h.tip, h.orphans⟩

theorem evict {k : Nat} (hk : k ≤ x.engine.orphans.length) : Gauged (gone + k) (x.evict k) := by
  have horphans := h.orphans
  have hlen := length_orphans_evict x k
  refine ⟨h.tip, ?_⟩
  change x.engine.metrics.orphanCount = _
  rw [hlen]
  omega

/-- Both gauges are written after a block was stored, or had no reason to change. -/
theorem taken (block : Block) : Gauged 0 (x.taken block) := by
  have htip := h.tip
  unfold Node.taken
  cases x.store.place block with
  | resolved => exact ⟨htip, (Int.add_zero _).symm⟩
  | orphan => exact ⟨htip, (Int.add_zero _).symm⟩

theorem settled (hs : x.Settles change? y) : Gauged gone y := by
  cases change? with
  | none =>
    rw [hs.1]
    exact h
  | some change =>
    rw [hs.1]
    refine ⟨?_, h.orphans⟩
    simp only [announced, Option.bind_some]

/-- A block that is stored brings the gauges up to date. Of one that is not stored they only
miss how many orphans had to go. -/
theorem receives (hx : x.Sound) (hr : x.Receives F d change? y) :
    (x.store.find? d.block.hash = none ∧ ¬ y.store.find? d.block.hash = none ∧ Gauged 0 y) ∨
    ((x.store.find? d.block.hash = none → y.store.find? d.block.hash = none) ∧
      ∃ k, y.engine.metrics.evicted = x.engine.metrics.evicted + k ∧ Gauged (gone + k) y) := by
  cases hr with
  | @refused e hrefused =>
    refine .inr ⟨id, 0, ?_, h.noted e⟩
    cases e <;> rfl
  | aborted _ habort =>
    obtain rfl | ⟨hgranted, ⟨k, hk, rfl⟩ | rfl⟩ := habort
    · exact .inr ⟨id, 0, rfl, h⟩
    · have hle : k ≤ x.engine.orphans.length := hk.trans ((surplus_le x _).trans hx.excess_le)
      refine .inr ⟨fun hnone => ?_, k, rfl, h.evict hle⟩
      exact Arena.find?_eq_none.mpr fun l hl =>
        Arena.find?_eq_none.mp hnone l (Arena.mem_drop.mp hl).1
    · have hf := hx.fresh hgranted
      exact .inl ⟨hf.unknown, hx.not_lacks_taken hf, h.taken d.block⟩
  | submitted ho =>
    have hf := hx.fresh ho.admitted
    have hstored := hx.not_lacks_taken hf
    rw [← ho.settles.store_eq] at hstored
    exact .inl ⟨hf.unknown, hstored, (h.taken d.block).settled ho.settles⟩

end Gauged

end Transitions

section Runs

variable {b : Backing} {n m : b.Ledger} {x : Node Arena} {gone : Nat}

/-- What an engine that nobody else writes past has been through, with the number of orphans
that were evicted since it was opened or stored a block last. -/
inductive Unnoticed (n : b.Ledger) : Nat → b.Ledger → Prop
  | start : Unnoticed n 0 n
  | stored {gone : Nat} {m : b.Ledger} (now : Int) (block : Block) : Unnoticed n gone m →
    Medium.room m.store block → m.Lacks block.hash →
      ¬ (m.after (submit now block)).Lacks block.hash →
        Unnoticed n 0 (m.after (submit now block))
  | unstored {gone k : Nat} {m : b.Ledger} (now : Int) (block : Block) : Unnoticed n gone m →
    Medium.room m.store block →
      (m.Lacks block.hash → (m.after (submit now block)).Lacks block.hash) →
        (m.after (submit now block)).engine.metrics.evicted = m.engine.metrics.evicted + k →
          Unnoticed n (gone + k) (m.after (submit now block))
  | drift {gone : Nat} {m : b.Ledger} {s : Unreliable b.Contents} : Unnoticed n gone m →
    Medium.drifts m.store s → Unnoticed n gone { m with store := s }

/-- Both stores tell of a block what their arenas do. -/
theorem Shows.deliver_gauged (h : Node.Shows True m x) (hx : x.Sound) (hg : Gauged gone x)
    (now : Int) (block : Block) (hroom : Medium.room m.store block) :
    ∃ y, Node.Shows True (m.after (submit now block)) y ∧ y.Sound ∧
      ((m.Lacks block.hash ∧ ¬ (m.after (submit now block)).Lacks block.hash ∧ Gauged 0 y) ∨
      ((m.Lacks block.hash → (m.after (submit now block)).Lacks block.hash) ∧
        ∃ k, (m.after (submit now block)).engine.metrics.evicted = m.engine.metrics.evicted + k ∧
          Gauged (gone + k) y)) := by
  obtain ⟨y, hy, hreceives⟩ :=
    h.deliver (d := ⟨now, block⟩) hx fun _ => Faithful.fits_of_room h.2.1 hroom
  have hy : Node.Shows True (m.after (submit now block)) y := hy
  obtain ⟨hysound, -⟩ := hreceives.sound hx
  refine ⟨y, hy, hysound, ?_⟩
  have hbefore : m.engine.metrics.evicted = x.engine.metrics.evicted := by rw [h.1]
  have hafter : (m.after (submit now block)).engine.metrics.evicted =
      y.engine.metrics.evicted := by rw [hy.1]
  have hgauged := hg.receives hx hreceives
  rw [← h.lacks hx.arena, ← hy.lacks hysound.arena, ← hbefore, ← hafter] at hgauged
  exact hgauged

theorem Unnoticed.exists_gauged (h : Unnoticed n gone m)
    (hn : ∃ x, Node.Shows True n x ∧ x.Sound ∧ Gauged 0 x) :
    ∃ y, Node.Shows True m y ∧ y.Sound ∧ Gauged gone y := by
  induction h with
  | start => exact hn
  | stored now block _ hroom hlacks hstored ih =>
    obtain ⟨x, hx, hsound, hg⟩ := ih
    obtain ⟨y, hy, hysound, ⟨-, -, hg⟩ | ⟨hnot, -⟩⟩ :=
      hx.deliver_gauged hsound hg now block hroom
    · exact ⟨y, hy, hysound, hg⟩
    · exact absurd (hnot hlacks) hstored
  | unstored now block _ hroom hnot hevicted ih =>
    obtain ⟨x, hx, hsound, hg⟩ := ih
    obtain ⟨y, hy, hysound, ⟨hlacks, hstored, -⟩ | ⟨-, k, hk, hg⟩⟩ :=
      hx.deliver_gauged hsound hg now block hroom
    · exact absurd (hnot hlacks) hstored
    · rw [hevicted, Nat.add_left_cancel_iff] at hk
      exact ⟨y, hy, hysound, hk ▸ hg⟩
  | drift _ hdrift ih =>
    obtain ⟨x, hx, hsound, hg⟩ := ih
    exact ⟨x, hx.drifted hdrift, hsound, hg⟩

/-- Of every run it can be said how many orphans have gone unnoticed. -/
theorem Later.exists_unnoticed (h : Later (fun _ => False) n m)
    (hn : ∃ x, Node.Shows True n x ∧ x.Sound ∧ Gauged 0 x) : ∃ gone, Unnoticed n gone m := by
  induction h with
  | refl => exact ⟨0, .start⟩
  | tail _ hstep ih =>
    obtain ⟨gone, hgone⟩ := ih
    cases hstep with
    | submit now block hroom =>
      obtain ⟨x, hx, hsound, hg⟩ := hgone.exists_gauged hn
      obtain ⟨y, -, -, ⟨hlacks, hstored, -⟩ | ⟨hnot, k, hk, -⟩⟩ :=
        hx.deliver_gauged hsound hg now block hroom
      · exact ⟨0, .stored now block hgone hroom hlacks hstored⟩
      · exact ⟨gone + k, .unstored now block hgone hroom hnot hk⟩
    | reopen config hfalse => exact hfalse.elim
    | drift hdrift => exact ⟨gone, .drift hgone hdrift⟩

/-- Whatever calls failed, the gauge of the tip shows the height of the tip. The gauge of the
orphans shows how many the store holds, and besides those that were evicted since the engine was
opened or stored a block last. -/
theorem gauges_of_later (hn : Starts n) (h : Later (fun _ => False) n m) :
    m.engine.metrics.tipHeight = gauge ((m.engine.tip?.bind Link.height?).getD 0) ∧
    (∃ gone, Unnoticed n gone m) ∧
    ∀ gone, Unnoticed n gone m → ∃ waiting, m.Tells .orphanLinks waiting ∧
      m.engine.metrics.orphanCount = waiting.length + gone := by
  obtain ⟨x, hx, hsound, hfresh⟩ := hn.exists_fresh
  have hstart : ∃ x, Node.Shows True n x ∧ x.Sound ∧ Gauged 0 x :=
    ⟨x, hx, hsound, .start hfresh⟩
  obtain ⟨gone, hgone⟩ := h.exists_unnoticed hstart
  refine ⟨?_, ⟨gone, hgone⟩, ?_⟩
  · obtain ⟨y, hy, -, hg⟩ := hgone.exists_gauged hstart
    rw [hy.1]
    exact hg.tip
  · intro gone hgone
    obtain ⟨y, hy, hysound, hg⟩ := hgone.exists_gauged hstart
    have hqueue := congrArg List.length hysound.queue
    rw [List.length_map] at hqueue
    refine ⟨y.store.orphans, (hy.tells hysound.arena .orphanLinks trivial rfl).mpr rfl, ?_⟩
    rw [hy.1, hg.orphans, hqueue]

end Runs

section Sessions

/-- There is room for one orphan, and the store is going to fail when the second is written. -/
def planned : Backing.arena.Ledger :=
  started crowded [.window .addLink 1 1]

theorem starts_planned : Starts planned :=
  .inl ⟨crowded, ⟨({} : Arena), [.window .addLink 1 1]⟩, trivial, rfl, rfl⟩

theorem later_resumed : Later (fun _ => False) planned resumed :=
  (later_submit planned 0 .second).trans (later_submit interrupted 0 .rival)

theorem resumed_computed :
    (Arena.find? interrupted.store.store Block.second.hash).isSome ∧
    Arena.find? resumed.store.store Block.rival.hash = none ∧
    (interrupted.after (submit 0 .rival)).engine.metrics.evicted =
      interrupted.engine.metrics.evicted + 1 ∧
    resumed.engine.metrics.orphanCount = 1 ∧
    Arena.orphans resumed.store.store = [] := by
  decide +kernel

theorem unnoticed_resumed : Unnoticed planned 1 resumed := by
  obtain ⟨hstored, hunknown, hevicted, -⟩ := resumed_computed
  have hunseen : planned.Lacks Block.second.hash := lacks_of_find? rfl
  have hseen : ¬ interrupted.Lacks Block.second.hash := by
    rintro ⟨s, hs⟩
    have hfind : Arena.find? interrupted.store.store Block.second.hash = none :=
      (EStateM.Result.ok.inj hs).1
    rw [hfind] at hstored
    cases hstored
  have hsecond : Unnoticed planned 0 interrupted :=
    .stored (m := planned) 0 .second .start trivial hunseen hseen
  have hrival : resumed.Lacks Block.rival.hash := lacks_of_find? hunknown
  exact .unstored (k := 1) (m := interrupted) 0 .rival hsecond trivial (fun _ => hrival) hevicted

/-- The orphan that had to go for one that was not stored is still counted. -/
theorem gauges_resumed : (∃ waiting, resumed.Tells .orphanLinks waiting ∧
      resumed.engine.metrics.orphanCount = waiting.length + 1) ∧
    resumed.engine.metrics.tipHeight = gauge ((resumed.engine.tip?.bind Link.height?).getD 0) := by
  obtain ⟨htip, -, horphans⟩ := gauges_of_later starts_planned later_resumed
  exact ⟨horphans 1 unnoticed_resumed, htip⟩

theorem not_gauged_resumed : Starts planned ∧ Later (fun _ => False) planned resumed ∧
    ¬ ∃ waiting, resumed.Tells .orphanLinks waiting ∧
      resumed.engine.metrics.orphanCount = waiting.length := by
  obtain ⟨-, -, -, hcount, hempty⟩ := resumed_computed
  refine ⟨starts_planned, later_resumed, ?_⟩
  rintro ⟨waiting, ⟨s, hs⟩, hgauge⟩
  have hwaiting : Arena.orphans resumed.store.store = waiting := (EStateM.Result.ok.inj hs).1
  rw [hcount, ← hwaiting, hempty] at hgauge
  cases hgauge

end Sessions

end BlockTree.Node
