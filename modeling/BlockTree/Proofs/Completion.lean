import BlockTree.Proofs.OrphanPool
import Mathlib.Data.List.Range

/-! All that a block does to the store when it is taken in. The orphans that wait below it,
through other orphans, are resolved with it, and nothing else is touched. -/

namespace BlockTree

open Node (Anchor)

namespace Link

def risen (l : Link) (height : Nat) (work : Work) : Link :=
  { l with status := .resolved height work }

def fallen (l : Link) : Link :=
  { l with status := .orphan }

theorem fallen_risen {l : Link} (ho : l.isOrphan) (height : Nat) (work : Work) :
    (l.risen height work).fallen = l := by
  have hs := isOrphan_iff.mp ho
  simp [risen, fallen, ← hs]

end Link

/-- The link is an orphan that leads up to a block through stored orphans. Its distance
from the block is counted, and the work up to it. -/
inductive Waits (stored : Link → Prop) (hash : Hash) : Nat → Work → Link → Prop
  | near {l : Link} : stored l → l.isOrphan → l.parentHash = hash →
    Waits stored hash 1 l.block.ownWork l
  | far {p l : Link} {distance : Nat} {work : Work} : Waits stored hash distance work p →
    stored l → l.isOrphan → l.parentHash = p.hash →
      Waits stored hash (distance + 1) (work + l.block.ownWork) l

namespace Waits

variable {known : Link → Prop} {hash : Hash} {distance : Nat} {work : Work} {l : Link}

theorem stored (h : Waits known hash distance work l) : known l := by
  cases h <;> assumption

theorem isOrphan (h : Waits known hash distance work l) : l.isOrphan := by
  cases h <;> assumption

theorem exists_succ (h : Waits known hash distance work l) : ∃ k, distance = k + 1 := by
  cases h with
  | near => exact ⟨0, rfl⟩
  | far => exact ⟨_, rfl⟩

end Waits

namespace Arena

variable {a : Arena} {root : Anchor} {anchors : List Anchor} {u v l : Link}

theorem Ordered.lift_eq (ho : a.Ordered) (hl : l ∈ a.links) (x : Anchor) :
    x.lift l = l.risen (x.height + 1) (x.work + l.block.ownWork) := by
  simp [Anchor.lift, Link.risen, Link.resolved, Link.make, Link.withSeq, ho.hash_eq l hl]

/-- A generation below a root is what waits at one distance from it. -/
theorem Ordered.mem_generation_iff (ho : a.Ordered) {k : Nat} :
    u ∈ a.generation (a.descend^[k] [root]) ↔ ∃ l w, Waits (· ∈ a.links) root.hash (k + 1) w l ∧
      u = l.risen (root.height + (k + 1)) (root.work + w) := by
  induction k generalizing u with
  | zero =>
    rw [Function.iterate_zero_apply, mem_generation]
    constructor
    · rintro ⟨x, hx, l, hl, horphan, hparent, rfl⟩
      rw [List.mem_singleton.mp hx] at hparent ⊢
      exact ⟨l, _, .near hl horphan hparent, ho.lift_eq hl root⟩
    · rintro ⟨l, w, hwaits, rfl⟩
      cases hwaits with
      | near hl horphan hparent =>
        exact ⟨root, by simp, l, hl, horphan, hparent, ho.lift_eq hl root⟩
      | far hp =>
        obtain ⟨k, hk⟩ := hp.exists_succ
        cases hk
  | succ k ih =>
    rw [Function.iterate_succ_apply', descend, mem_generation]
    constructor
    · rintro ⟨x, hx, l, hl, horphan, hparent, rfl⟩
      obtain ⟨v, hv, rfl⟩ := List.mem_map.mp hx
      obtain ⟨p, w, hp, rfl⟩ := ih.mp hv
      refine ⟨l, _, .far hp hl horphan hparent, ?_⟩
      rw [ho.lift_eq hl, ← Nat.add_assoc root.work]
      rfl
    · rintro ⟨l, w, hwaits, rfl⟩
      cases hwaits with
      | @far p _ _ w hp hl horphan hparent =>
        refine ⟨_, List.mem_map_of_mem (ih.mpr ⟨p, w, hp, rfl⟩), l, hl, horphan, hparent, ?_⟩
        rw [ho.lift_eq hl, ← Nat.add_assoc root.work]
        rfl

theorem ofLink_mem_succ {k : Nat} (hu : u ∈ a.generation (a.descend^[k] anchors)) :
    Anchor.ofLink u ∈ a.descend^[k + 1] anchors := by
  rw [Function.iterate_succ_apply']
  exact List.mem_map_of_mem hu

theorem cascade_eq_flatMap (n : Nat) : a.cascade n anchors =
    (List.range n).flatMap fun k => a.generation (a.descend^[k] anchors) := by
  induction n generalizing anchors with
  | zero => rfl
  | succ n ih =>
    rw [cascade, ih, List.range_succ_eq_map, List.flatMap_cons, List.flatMap_map]
    rfl

section Planning

variable (ho : a.Ordered) (hroot : a.find? root.hash = none)

include ho hroot

theorem Ordered.generation_unique {i j : Nat} (hu : u ∈ a.generation (a.descend^[i] [root]))
    (hv : v ∈ a.generation (a.descend^[j] [root])) (he : u.hash = v.hash) : i = j := by
  have hu := ofLink_mem_succ hu
  have hv := ofLink_mem_succ hv
  rcases Nat.lt_trichotomy i j with hlt | heq | hgt
  · exact absurd he (ho.generations_disjoint hroot (Nat.succ_lt_succ hlt) hu hv)
  · exact heq
  · exact absurd he.symm (ho.generations_disjoint hroot (Nat.succ_lt_succ hgt) hv hu)

theorem Ordered.mem_plan : u ∈ a.plan root ↔ ∃ k, u ∈ a.generation (a.descend^[k] [root]) := by
  rw [plan, mem_cascade]
  constructor
  · rintro ⟨k, -, hu⟩
    exact ⟨k, hu⟩
  · rintro ⟨k, hu⟩
    refine ⟨k, ?_, hu⟩
    by_contra hge
    rw [ho.generations_end hroot (by omega)] at hu
    exact List.not_mem_nil hu

/-- Planned are the orphans that wait below the root, with the height and the work that
they have come to. -/
theorem Ordered.mem_plan_iff : u ∈ a.plan root ↔ ∃ l d w,
    Waits (· ∈ a.links) root.hash d w l ∧ u = l.risen (root.height + d) (root.work + w) := by
  rw [ho.mem_plan hroot]
  constructor
  · rintro ⟨k, hu⟩
    obtain ⟨l, w, hwaits, he⟩ := ho.mem_generation_iff.mp hu
    exact ⟨l, k + 1, w, hwaits, he⟩
  · rintro ⟨l, d, w, hwaits, he⟩
    obtain ⟨k, rfl⟩ := hwaits.exists_succ
    exact ⟨k, ho.mem_generation_iff.mpr ⟨l, w, hwaits, he⟩⟩

theorem Ordered.hash_mem_plan (hl : l ∈ a.links) : l.hash ∈ (a.plan root).map Link.hash ↔
    ∃ d w, Waits (· ∈ a.links) root.hash d w l := by
  rw [List.mem_map]
  constructor
  · rintro ⟨u, hu, he⟩
    obtain ⟨m, d, w, hwaits, rfl⟩ := (ho.mem_plan_iff hroot).mp hu
    have hsame : m = l := ho.eq_of_hash hwaits.stored hl he
    exact ⟨d, w, hsame ▸ hwaits⟩
  · rintro ⟨d, w, hwaits⟩
    exact ⟨_, (ho.mem_plan_iff hroot).mpr ⟨l, d, w, hwaits, rfl⟩, rfl⟩

theorem Ordered.mem_map_fallen : l ∈ (a.plan root).map Link.fallen ↔
    ∃ d w, Waits (· ∈ a.links) root.hash d w l := by
  rw [List.mem_map]
  constructor
  · rintro ⟨u, hu, rfl⟩
    obtain ⟨l, d, w, hwaits, rfl⟩ := (ho.mem_plan_iff hroot).mp hu
    exact ⟨d, w, by rwa [Link.fallen_risen hwaits.isOrphan]⟩
  · rintro ⟨d, w, hwaits⟩
    exact ⟨_, (ho.mem_plan_iff hroot).mpr ⟨l, d, w, hwaits, rfl⟩,
      Link.fallen_risen hwaits.isOrphan _ _⟩

/-- Who is planned first is in no later generation. -/
theorem Ordered.pairwise_plan : (a.plan root).Pairwise fun u v => ∀ i j,
    u ∈ a.generation (a.descend^[i] [root]) → v ∈ a.generation (a.descend^[j] [root]) →
      i ≤ j := by
  rw [plan, cascade_eq_flatMap, List.pairwise_flatMap]
  refine ⟨fun k _ => List.pairwise_of_forall_mem_list ?_, ?_⟩
  · intro u hu v hv i j hi hj
    exact Nat.le_of_eq ((ho.generation_unique hroot hi hu rfl).trans
      (ho.generation_unique hroot hv hj rfl))
  · refine (List.pairwise_lt_range).imp fun {k k'} hlt u hu v hv i j hi hj => ?_
    rw [ho.generation_unique hroot hi hu rfl, ho.generation_unique hroot hj hv rfl]
    exact Nat.le_of_lt hlt

/-- The orphans that the plan resolves, in its order: the nearer ones come first, and so no
parent comes after its child. -/
theorem Ordered.pairwise_map_fallen : ((a.plan root).map Link.fallen).Pairwise fun l m =>
    l.parentHash ≠ m.hash ∧ ∀ d e w v, Waits (· ∈ a.links) root.hash d w l →
      Waits (· ∈ a.links) root.hash e v m → d ≤ e := by
  refine List.pairwise_map.mpr ((ho.pairwise_plan hroot).imp_of_mem ?_)
  intro u v hu hv hle
  obtain ⟨i, hi⟩ := (ho.mem_plan hroot).mp hu
  obtain ⟨j, hj⟩ := (ho.mem_plan hroot).mp hv
  have hij := hle i j hi hj
  constructor
  · -- the parent is one generation nearer, and no hash is in two generations
    intro hparent
    obtain ⟨x, hx, l, -, -, hl, rfl⟩ := mem_generation.mp hi
    exact ho.generations_disjoint hroot (Nat.lt_succ_of_le hij) hx (ofLink_mem_succ hj)
      (hl.symm.trans hparent)
  · intro d e w z hwaits hwaits'
    obtain ⟨d, rfl⟩ := hwaits.exists_succ
    obtain ⟨e, rfl⟩ := hwaits'.exists_succ
    have hd := ho.mem_generation_iff.mpr ⟨_, w, hwaits, rfl⟩
    have he := ho.mem_generation_iff.mpr ⟨_, z, hwaits', rfl⟩
    rw [ho.generation_unique hroot hd hi rfl, ho.generation_unique hroot he hj rfl]
    exact Nat.succ_le_succ hij

end Planning

end Arena

namespace Node

section Placing

variable {x y : Node Arena} {block : Block} {change? : Option BranchChange}

/-- The hash of the best link changes just when a move is published. -/
theorem Settles.isSome_iff (hx : x.Sound) (hf : x.Fresh block)
    (htip : x.engine.tip? = x.store.bestLink?) (h : (x.taken block).Settles change? y) :
    change?.isSome ↔ x.store.bestLink?.map Link.hash ≠ y.store.bestLink?.map Link.hash := by
  have htaken := hx.taken hf
  rw [h.store_eq]
  cases change? with
  | none =>
    have hsame := h.2
    rw [tip_taken, htip] at hsame
    simp [hsame]
  | some change =>
    obtain ⟨-, hmoves⟩ := h
    have haway := hmoves.away
    rw [tip_taken, htip] at haway
    -- the best link so far is still stored, so its hash tells it from the new one
    refine iff_of_true rfl fun he => haway ?_
    rw [hmoves.best, Option.map_some, Option.map_eq_some_iff] at he
    obtain ⟨l, hl, he⟩ := he
    have hbest := hx.arena.bestLink?_eq_some hl
    rw [hl, htaken.arena.ordered.eq_of_hash (hx.mem_taken hf hbest.mem hbest.resolved)
      (htaken.arena.bestLink?_eq_some hmoves.best).mem he]

/-- An orphan that comes in leaves the resolved links as they are. -/
theorem Sound.mem_taken_of_orphan (hx : x.Sound) (hf : x.Fresh block)
    (hs : x.store.place block = .orphan) {l : Link} (hr : l.isResolved) :
    l ∈ (x.taken block).store.links ↔ l ∈ x.store.links := by
  refine ⟨fun hl => ?_, fun hl => hx.mem_taken hf hl hr⟩
  rw [hx.mem_taken_iff hf, hs] at hl
  rcases hl with rfl | hl | ⟨hl, -⟩
  · simp [stored, hs, Link.isResolved, Link.isOrphan, LinkStatus.isOrphan, Link.make,
      Link.withSeq] at hr
  · simp [Arena.promotions] at hl
  · exact (hx.mem_evict hr).mp hl

theorem Sound.bestLink?_taken_of_orphan (hx : x.Sound) (hf : x.Fresh block)
    (hs : x.store.place block = .orphan) :
    (x.taken block).store.bestLink? = x.store.bestLink? := by
  have hmem {l : Link} (hr : l.isResolved) := hx.mem_taken_of_orphan hf hs hr
  ext l
  rw [(hx.taken hf).arena.bestLink?_iff, hx.arena.bestLink?_iff]
  constructor
  · intro hl
    exact ⟨(hmem hl.resolved).mp hl.mem, hl.resolved,
      fun m hm hr => hl.better m ((hmem hr).mpr hm) hr⟩
  · intro hl
    exact ⟨(hmem hl.resolved).mpr hl.mem, hl.resolved,
      fun m hm hr => hl.better m ((hmem hr).mp hm) hr⟩

theorem Settles.eq_none_of_orphan (hx : x.Sound) (hf : x.Fresh block)
    (htip : x.engine.tip? = x.store.bestLink?) (h : (x.taken block).Settles change? y)
    (hs : x.store.place block = .orphan) : change? = none := by
  cases change? with
  | none => rfl
  | some change =>
    obtain ⟨-, hmoves⟩ := h
    refine absurd ?_ hmoves.away
    rw [tip_taken, htip, ← hx.bestLink?_taken_of_orphan hf hs, hmoves.best]

end Placing

variable {b : Backing} {n m : b.Ledger}

/-- The store has never failed the engine so far, nor those before it. -/
def Calm (n : b.Ledger) : Prop :=
  ∃ k, Opened (fun _ => True) k ∧
    Relation.ReflTransGen (fun k m => k.store.outages = [] ∧ Step (fun _ => True) k m) k n

theorem Calm.exists_shows (h : Calm n) :
    ∃ x, Node.Shows True n x ∧ x.Sound ∧ x.engine.tip? = x.store.bestLink? := by
  obtain ⟨k, ⟨config, s, -, hdrift, hopen⟩, hlater⟩ := h
  induction hlater with
  | refl =>
    obtain ⟨hshows, hsound⟩ := Opened.shows_blank (n := k) ⟨config, s, rfl, hdrift, hopen⟩
    exact ⟨blank config, hshows, hsound, rfl⟩
  | tail _ hstep ih =>
    obtain ⟨x, hx, hsound, htip⟩ := ih
    obtain ⟨hcalm, hstep⟩ := hstep
    cases hstep with
    | submit now block hroom =>
      obtain ⟨y, hy, hreceives⟩ := (hx.of_calm hcalm).deliver (d := ⟨now, block⟩) hsound
        fun _ => Faithful.fits_of_room hx.2.1 hroom
      exact ⟨y, ⟨hy.1, hy.2.1, fun _ => trivial⟩, (hreceives.sound hsound).1,
        hreceives.settled htip⟩
    | reopen config =>
      have hopen := ends_reopen (σ := Unreliable b.Contents) (F := True) hsound config
      obtain ⟨y, hy, ⟨-, rfl, hcap⟩ | ⟨-, rfl, -⟩⟩ := exists_after hopen hx
      · exact ⟨_, hy, hsound.reopened hcap, rfl⟩
      · exact ⟨y, hy, hsound, htip⟩
    | drift hd =>
      exact ⟨x, hx.drifted hd, hsound, htip⟩

/-- The orphans of the store, the oldest first. -/
def ListsOrphans (n : b.Ledger) (orphans : List Link) : Prop :=
  orphans.Pairwise (fun l k => l.seq < k.seq) ∧ ∀ l, l ∈ orphans ↔ n.Stores l ∧ l.isOrphan

/-- The link has come in as an orphan, and the oldest orphans made room for it. -/
structure Queued (n m : b.Ledger) (link : Link) (o : Outcome) : Prop where
  parent_ne_zero : link.parentHash.isZero = false
  unfounded : ∀ p, n.Stores p → p.hash = link.parentHash → p.isOrphan
  promoted : o.promoted = []
  still : o.change? = none
  stores : ∃ orphans, n.ListsOrphans orphans ∧ ∀ l, m.Stores l ↔ l = link ∨ n.Stores l ∧
    l ∉ orphans.take (orphans.length + 1 - n.engine.config.maxOrphans)

/-- The link has come in as a resolved one, and with it all that waited below it. -/
structure Completes (n m : b.Ledger) (link : Link) (height : Nat) (work : Work) (o : Outcome) :
    Prop where
  founded : link.parentHash.isZero ∧ height = 0 ∧ work = 0 ∨ ∃ p, n.Stores p ∧ link.Above p
  promoted : ∃ orphans : List Link, o.promoted = orphans.map Link.hash ∧ o.promoted.Nodup ∧
    (∀ l, l ∈ orphans ↔ ∃ d w, Waits n.Stores link.hash d w l) ∧
    orphans.Pairwise fun l k => l.parentHash ≠ k.hash ∧ ∀ d e w v,
      Waits n.Stores link.hash d w l → Waits n.Stores link.hash e v k → d ≤ e
  stores : ∀ l, m.Stores l ↔ l = link ∨
    (∃ k d w, Waits n.Stores link.hash d w k ∧ l = k.risen (height + d) (work + w)) ∨
    n.Stores l ∧ ¬ ∃ d w, Waits n.Stores link.hash d w l

section Submitting

variable {F G : Prop} {x y : Node Arena} {now : Int} {block : Block} {o : Outcome}

theorem Sound.mem_evict_iff (hx : x.Sound) (k : Nat) {l : Link} :
    l ∈ (x.evict k).store.links ↔ l ∈ x.store.links ∧ l ∉ x.store.orphans.take k := by
  refine Arena.mem_drop.trans (and_congr_right fun hl => not_congr ?_)
  rw [hx.queue, ← List.map_take, List.mem_map]
  constructor
  · rintro ⟨o, ho, he⟩
    have hmem := (List.mem_filter.mp (List.mem_of_mem_take ho)).1
    rwa [← hx.arena.ordered.eq_of_hash hmem hl he]
  · exact fun ho => ⟨l, ho, rfl⟩

theorem Submitted.queued (h : x.Submitted now block o y) (hn : Node.Shows F n x)
    (hm : Node.Shows G m y) (hx : x.Sound) (htip : x.engine.tip? = x.store.bestLink?)
    (hs : x.store.place block = .orphan) : Queued n m (x.stored block) o := by
  have hf := hx.fresh h.admitted
  have hplace : block.prevHash.isZero = false ∧
      ∀ p ∈ x.store.links, p.hash = block.prevHash → p.isOrphan := by
    rcases hx.place_cases hf with ⟨-, hr⟩ | ⟨-, p, -, habove⟩ | ⟨hz, -, hp⟩
    · rw [hr] at hs
      cases hs
    · have hr := habove.resolved
      simp [Link.isResolved, Link.isOrphan, LinkStatus.isOrphan, Link.make, hs] at hr
    · exact ⟨hz, hp⟩
  refine ⟨hplace.1, ?_, ?_, h.settles.eq_none_of_orphan hx hf htip hs, x.store.orphans, ?_, ?_⟩
  · intro p hp
    exact hplace.2 p ((hn.stores hx.arena).mp hp)
  · rw [h.promoted_eq, hs, Arena.promotions, List.map_nil]
  · refine ⟨hx.arena.ordered.sorted.sublist List.filter_sublist, fun l => ?_⟩
    rw [hn.stores hx.arena]
    exact List.mem_filter
  · intro l
    have hlen : x.store.orphans.length = x.engine.orphans.length := by
      rw [hx.queue, List.length_map]
    rw [hm.stores (h.settles.sound (hx.taken hf)).arena, h.settles.store_eq,
      hx.mem_taken_iff hf, hs, hn.stores hx.arena, hn.1, hlen]
    simp only [Arena.promotions, List.not_mem_nil, List.map_nil, not_false_eq_true, and_true,
      false_or, cleared]
    rw [hx.mem_evict_iff]
    rfl

theorem Submitted.completes (h : x.Submitted now block o y) (hn : Node.Shows F n x)
    (hm : Node.Shows G m y) (hx : x.Sound) {height work : Nat}
    (hs : x.store.place block = .resolved height work) :
    Completes n m (x.stored block) height work o := by
  have hf := hx.fresh h.admitted
  have hstores := hn.stores_eq hx.arena
  have ho := hx.arena.ordered
  have hroot : x.store.find? (Anchor.mk block.hash height work).hash = none := hf.unknown
  have hpromoted : o.promoted =
      ((x.store.plan ⟨block.hash, height, work⟩).map Link.fallen).map Link.hash := by
    rw [h.promoted_eq, hs, List.map_map]
    rfl
  refine ⟨?_, ⟨_, hpromoted, ?_, ?_, ?_⟩, ?_⟩
  · rcases hx.place_cases hf with ⟨hz, hr⟩ | ⟨-, p, hp, habove⟩ | ⟨-, hr, -⟩
    · rw [hr] at hs
      cases hs
      exact .inl ⟨hz, rfl, rfl⟩
    · exact .inr ⟨p, (hn.stores hx.arena).mpr hp, habove.withSeq _⟩
    · rw [hr] at hs
      cases hs
  · rw [hpromoted, List.map_map]
    exact ho.nodup_cascade hroot _
  · intro l
    rw [hstores]
    exact ho.mem_map_fallen hroot
  · rw [hstores]
    exact ho.pairwise_map_fallen hroot
  · intro l
    rw [hm.stores (h.settles.sound (hx.taken hf)).arena, h.settles.store_eq,
      hx.mem_taken_iff hf, hs, hstores]
    refine or_congr Iff.rfl (or_congr (ho.mem_plan_iff hroot) (and_congr_right fun hl => ?_))
    exact not_congr (ho.hash_mem_plan hroot hl)

end Submitting

/-- What a block that is taken in does to the store, if no call has ever failed: the new
link is the latest, what waits below a resolved one is resolved with it, nothing else is
touched, and the tip moves just when the best link does. -/
theorem completed_of_submit (h : Calm n) {now : Int} {block : Block} {o : Outcome}
    (hroom : Medium.room n.store block) (hsubmit : submit now block n = .ok o m) :
    ∃ link : Link, link.hash = block.hash ∧ link.block = block ∧ link.status = o.status ∧
      o.hash = block.hash ∧ b.nextSeq n.store.store = .ok link.seq ∧
      (∀ l, n.Stores l → l.hash ≠ link.hash ∧ l.seq < link.seq) ∧ m.Stores link ∧
      (o.status = .orphan ∧ Queued n m link o ∨
        ∃ height work, o.status = .resolved height work ∧ Completes n m link height work o) ∧
      ∃ before? after?, n.Tells .lastLink before? ∧ m.Tells .lastLink after? ∧
        (o.change?.isSome ↔ before?.map Link.hash ≠ after?.map Link.hash) := by
  obtain ⟨x, hx, hsound, htip⟩ := h.exists_shows
  have hfits : Faithful.fits _ x.store.nextSeq block := Faithful.fits_of_room hx.2.1 hroom
  obtain ⟨y, hy, ho⟩ := (ends_submit hsound fun _ => hfits).of_ok hx hsubmit
  have hf := hsound.fresh ho.admitted
  have hysound := ho.settles.sound (hsound.taken hf)
  refine ⟨x.stored block, rfl, rfl, ho.status_eq.symm, ho.hash_eq, hx.nextSeq, ?_, ?_, ?_, ?_⟩
  · intro l hl
    have hmem := (hx.stores hsound.arena).mp hl
    exact ⟨Arena.find?_eq_none.mp hf.unknown l hmem, hsound.arena.ordered.seq_lt l hmem⟩
  · rw [hy.stores hysound.arena, ho.settles.store_eq, hsound.mem_taken_iff hf]
    exact .inl rfl
  · cases hs : x.store.place block with
    | orphan => exact .inl ⟨ho.status_eq.trans hs, ho.queued hx hy hsound htip hs⟩
    | resolved height work =>
      exact .inr ⟨height, work, ho.status_eq.trans hs, ho.completes hx hy hsound hs⟩
  · refine ⟨x.store.bestLink?, y.store.bestLink?, ?_, ?_, ho.settles.isSome_iff hsound hf htip⟩
    · exact (hx.tells hsound.arena .lastLink trivial rfl).mpr rfl
    · exact (hy.tells hysound.arena .lastLink trivial rfl).mpr rfl

section Sessions

theorem Calm.feed {n : Backing.arena.Ledger} {ds : List Delivery} (h : Calm n)
    (hcalm : ∀ k < ds.length, (n.feed (ds.take k)).store.outages = []) : Calm (n.feed ds) := by
  induction ds generalizing n with
  | nil => exact h
  | cons d ds ih =>
    obtain ⟨k, hk, hlater⟩ := h
    have hdeliver : Calm (n.deliver d) :=
      ⟨k, hk, hlater.tail ⟨hcalm 0 (Nat.succ_pos _), .submit d.now d.block trivial⟩⟩
    exact ih hdeliver fun k hk => hcalm (k + 1) (Nat.succ_lt_succ hk)

theorem threeWait_computed :
    (∀ k < 3, ((started {} []).feed
      ([⟨0, .second⟩, ⟨0, .rival⟩, ⟨0, .third⟩].take k)).store.outages = []) ∧
    (said (submit 0 .first threeWait)).map Outcome.promoted =
      .ok [Block.second.hash, Block.rival.hash, Block.third.hash] := by
  decide +kernel

theorem calm_threeWait : Calm threeWait :=
  Calm.feed ⟨_, opened_started trivial (by decide), .refl⟩ threeWait_computed.1

/-- Two orphans waited at the same distance, and one below them. -/
theorem completed_threeWait : ∃ o m link height work, submit 0 .first threeWait = .ok o m ∧
    o.promoted = [Block.second.hash, Block.rival.hash, Block.third.hash] ∧
    link.hash = Block.first.hash ∧ Completes threeWait m link height work o := by
  obtain ⟨o, ho, hpromoted⟩ := exists_of_map_said threeWait_computed.2
  obtain ⟨link, hhash, -, -, -, -, -, -, hcases, -⟩ := completed_of_submit calm_threeWait trivial ho
  obtain ⟨-, hqueued⟩ | ⟨height, work, -, hcompletes⟩ := hcases
  · exact absurd (hpromoted.symm.trans hqueued.promoted) (List.cons_ne_nil _ _)
  · exact ⟨o, _, link, height, work, ho, hpromoted, hhash, hcompletes⟩

end Sessions

end Node

end BlockTree
