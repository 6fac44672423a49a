import BlockTree.Engine
import BlockTree.Proofs.Lineage
import Mathlib.Logic.Function.Iterate

/-! The orphans that wait below a new link, generation by generation. A link has one
parent, so no orphan is met twice, and there are no more generations than orphans. -/

namespace BlockTree

open Node (Anchor)

def Block.ownWork (block : Block) : Work :=
  (Work.ofBits block.header.bits).toOption.getD 0

theorem Block.ownWork_eq {block : Block} {own : Work}
    (h : Work.ofBits block.header.bits = .ok own) : block.ownWork = own := by
  simp [ownWork, h, Except.toOption]

def Node.Anchor.lift (x : Anchor) (l : Link) : Link :=
  (Link.resolved l.block (x.height + 1) (x.work + l.block.ownWork)).withSeq l.seq

@[simp] theorem Node.Anchor.hash_lift (x : Anchor) (l : Link) :
    (x.lift l).hash = l.block.hash := rfl

@[simp] theorem Node.Anchor.parentHash_lift (x : Anchor) (l : Link) :
    (x.lift l).parentHash = l.parentHash := rfl

@[simp] theorem Node.Anchor.hash_ofLink (l : Link) : (Anchor.ofLink l).hash = l.hash := rfl

namespace Arena

variable {a : Arena} {root : Anchor} {anchors : List Anchor}

def waiting (a : Arena) (hash : Hash) : List Link :=
  (a.children hash).filter Link.isOrphan

def generation (a : Arena) (anchors : List Anchor) : List Link :=
  anchors.flatMap fun x => (a.waiting x.hash).map x.lift

def descend (a : Arena) (anchors : List Anchor) : List Anchor :=
  (a.generation anchors).map .ofLink

def cascade (a : Arena) : Nat → List Anchor → List Link
  | 0, _ => []
  | n + 1, anchors => a.generation anchors ++ a.cascade n (a.descend anchors)

theorem mem_waiting {hash : Hash} {l : Link} :
    l ∈ a.waiting hash ↔ l ∈ a.links ∧ l.isOrphan ∧ l.parentHash = hash := by
  simp only [waiting, children, List.mem_filter, beq_iff_eq]
  constructor
  · rintro ⟨⟨hl, hp⟩, ho⟩
    exact ⟨hl, ho, hp⟩
  · rintro ⟨hl, ho, hp⟩
    exact ⟨⟨hl, hp⟩, ho⟩

theorem mem_generation {u : Link} : u ∈ a.generation anchors ↔
    ∃ x ∈ anchors, ∃ o ∈ a.links, o.isOrphan ∧ o.parentHash = x.hash ∧ x.lift o = u := by
  simp [generation, mem_waiting, and_assoc]

theorem mem_cascade {n : Nat} {u : Link} :
    u ∈ a.cascade n anchors ↔ ∃ k < n, u ∈ a.generation (a.descend^[k] anchors) := by
  induction n generalizing anchors with
  | zero => simp [cascade]
  | succ n ih =>
    rw [cascade, List.mem_append, ih]
    constructor
    · rintro (h | ⟨k, hk, h⟩)
      · exact ⟨0, Nat.succ_pos n, h⟩
      · exact ⟨k + 1, Nat.succ_lt_succ hk, by rwa [Function.iterate_succ_apply]⟩
    · rintro ⟨k, hk, h⟩
      cases k with
      | zero => exact .inl h
      | succ k =>
        rw [Function.iterate_succ_apply] at h
        exact .inr ⟨k, Nat.lt_of_succ_lt_succ hk, h⟩

theorem iterate_descend_nil (k : Nat) : a.descend^[k] [] = [] := by
  induction k with
  | zero => rfl
  | succ k ih => rw [Function.iterate_succ_apply']; simp [ih, descend, generation]

theorem Ordered.mem_iterate_descend (ho : a.Ordered) {k : Nat} {x : Anchor}
    (h : x ∈ a.descend^[k + 1] anchors) : ∃ o ∈ a.links, o.isOrphan ∧ o.hash = x.hash ∧
      ∃ y ∈ a.descend^[k] anchors, o.parentHash = y.hash := by
  rw [Function.iterate_succ_apply', descend, List.mem_map] at h
  obtain ⟨u, hu, rfl⟩ := h
  obtain ⟨y, hy, o, hmem, horphan, hparent, rfl⟩ := mem_generation.mp hu
  exact ⟨o, hmem, horphan, by simp [ho.hash_eq o hmem], y, hy, hparent⟩

/-- A hash in two generations would take its parents up to the root, which is not stored. -/
theorem Ordered.generations_disjoint (ho : a.Ordered) (hroot : a.find? root.hash = none)
    {i j : Nat} (hij : i < j) {x y : Anchor} (hx : x ∈ a.descend^[i] [root])
    (hy : y ∈ a.descend^[j] [root]) : x.hash ≠ y.hash := by
  induction i generalizing j x y with
  | zero =>
    obtain ⟨j, rfl⟩ : ∃ k, j = k + 1 := ⟨j - 1, by omega⟩
    obtain ⟨o, hmem, -, hh, -⟩ := ho.mem_iterate_descend hy
    have hxr : x = root := by simpa using hx
    rw [hxr, ← hh]
    exact (find?_eq_none.mp hroot o hmem).symm
  | succ i ih =>
    obtain ⟨j, rfl⟩ : ∃ k, j = k + 1 := ⟨j - 1, by omega⟩
    obtain ⟨o, hmem, -, hh, p, hp, hop⟩ := ho.mem_iterate_descend hx
    obtain ⟨o', hmem', -, hh', q, hq, hoq⟩ := ho.mem_iterate_descend hy
    intro he
    have hsame : o = o' := ho.eq_of_hash hmem hmem' (by rw [hh, hh', he])
    exact ih (Nat.lt_of_succ_lt_succ hij) hp hq (by rw [← hop, ← hoq, hsame])

theorem Ordered.nodup_generation (ho : a.Ordered) (hn : (anchors.map Anchor.hash).Nodup) :
    ((a.generation anchors).map Link.hash).Nodup := by
  have hflat : (a.generation anchors).map Link.hash =
      anchors.flatMap fun x => (a.waiting x.hash).map Link.hash := by
    rw [generation, List.map_flatMap]
    apply List.flatMap_congr
    intro x _
    rw [List.map_map]
    apply List.map_congr_left
    intro l hl
    exact (ho.hash_eq l (mem_waiting.mp hl).1).symm
  rw [hflat, List.nodup_flatMap]
  refine ⟨fun x _ => ?_, ?_⟩
  · have hsub : (a.waiting x.hash).Sublist a.links :=
      List.filter_sublist.trans List.filter_sublist
    exact ho.nodup.sublist (hsub.map Link.hash)
  · refine (List.pairwise_map.mp hn).imp ?_
    intro x y hne
    refine List.disjoint_left.mpr ?_
    intro h hx hy
    obtain ⟨l, hl, rfl⟩ := List.mem_map.mp hx
    obtain ⟨m, hm, he⟩ := List.mem_map.mp hy
    obtain ⟨hl, -, hlx⟩ := mem_waiting.mp hl
    obtain ⟨hm, -, hmy⟩ := mem_waiting.mp hm
    rw [ho.eq_of_hash hm hl he] at hmy
    exact hne (hlx.symm.trans hmy)

theorem Ordered.nodup_iterate_descend (ho : a.Ordered) (k : Nat) :
    ((a.descend^[k] [root]).map Anchor.hash).Nodup := by
  induction k with
  | zero => simp
  | succ k ih =>
    rw [Function.iterate_succ_apply', descend, List.map_map]
    exact ho.nodup_generation ih

theorem Ordered.nodup_cascade (ho : a.Ordered) (hroot : a.find? root.hash = none) (n : Nat) :
    ((a.cascade n [root]).map Link.hash).Nodup := by
  have hfrom : ∀ n k, ((a.cascade n (a.descend^[k] [root])).map Link.hash).Nodup := by
    intro n
    induction n with
    | zero => simp [cascade]
    | succ n ih =>
      intro k
      rw [cascade, List.map_append]
      refine List.Nodup.append (ho.nodup_generation (ho.nodup_iterate_descend k)) ?_ ?_
      · rw [← Function.iterate_succ_apply' a.descend]
        exact ih (k + 1)
      · rw [List.disjoint_left]
        intro h hx hy
        obtain ⟨u, hu, rfl⟩ := List.mem_map.mp hx
        obtain ⟨v, hv, he⟩ := List.mem_map.mp hy
        obtain ⟨j, -, hv⟩ := mem_cascade.mp hv
        rw [← Function.iterate_succ_apply' a.descend, ← Function.iterate_add_apply] at hv
        have hxk : Anchor.ofLink u ∈ a.descend^[k + 1] [root] := by
          rw [Function.iterate_succ_apply']
          exact List.mem_map_of_mem hu
        have hyk : Anchor.ofLink v ∈ a.descend^[j + (k + 1) + 1] [root] := by
          rw [Function.iterate_succ_apply']
          exact List.mem_map_of_mem hv
        exact ho.generations_disjoint hroot (by omega) hxk hyk he.symm
  exact hfrom n 0

theorem Ordered.cascade_replaces (ho : a.Ordered) {n : Nat} {u : Link}
    (hu : u ∈ a.cascade n anchors) : a.Replaces u := by
  obtain ⟨k, -, hu⟩ := mem_cascade.mp hu
  obtain ⟨x, -, o, hmem, horphan, -, rfl⟩ := mem_generation.mp hu
  exact ⟨o, hmem, horphan, by simp [ho.hash_eq o hmem], rfl, rfl⟩

theorem Ordered.length_cascade_le (ho : a.Ordered) (hroot : a.find? root.hash = none) (n : Nat) :
    (a.cascade n [root]).length ≤ a.orphans.length := by
  have hsub : ((a.cascade n [root]).map Link.hash).Subperm (a.orphans.map Link.hash) := by
    refine List.subperm_of_subset (ho.nodup_cascade hroot n) ?_
    intro h hh
    obtain ⟨u, hu, rfl⟩ := List.mem_map.mp hh
    obtain ⟨o, hmem, horphan, he, -⟩ := ho.cascade_replaces hu
    exact List.mem_map.mpr ⟨o, List.mem_filter.mpr ⟨hmem, horphan⟩, he⟩
  simpa using hsub.length_le

theorem le_length_cascade {n : Nat} (h : a.descend^[n] anchors ≠ []) :
    n ≤ (a.cascade n anchors).length := by
  induction n generalizing anchors with
  | zero => simp
  | succ n ih =>
    rw [Function.iterate_succ_apply] at h
    have hne : a.generation anchors ≠ [] := by
      intro he
      rw [descend, he, List.map_nil, iterate_descend_nil] at h
      exact h rfl
    have := List.length_pos_iff.mpr hne
    have := ih h
    simp only [cascade, List.length_append]
    omega

/-- Each generation takes up an orphan of its own, so they run out. -/
theorem Ordered.generations_end (ho : a.Ordered) (hroot : a.find? root.hash = none) {n : Nat}
    (hn : a.orphans.length < n) : a.descend^[n] [root] = [] := by
  by_contra hne
  have := le_length_cascade hne
  have := ho.length_cascade_le hroot n
  omega

theorem cascade_nil (n : Nat) : a.cascade n [] = [] := by
  induction n with
  | zero => rfl
  | succ n ih => simpa [cascade, generation, descend] using ih

theorem cascade_of_end {m n : Nat} (hend : a.descend^[m] anchors = []) (hmn : m ≤ n) :
    a.cascade n anchors = a.cascade m anchors := by
  induction m generalizing n anchors with
  | zero =>
    rw [Function.iterate_zero_apply] at hend
    rw [hend, cascade_nil, cascade_nil]
  | succ m ih =>
    obtain ⟨n, rfl⟩ : ∃ k, n = k + 1 := ⟨n - 1, by omega⟩
    rw [cascade, cascade, ih hend (Nat.le_of_succ_le_succ hmn)]

/-- All orphans that wait below a root, resolved, the nearest first. One generation
more than there are orphans is none. -/
def plan (a : Arena) (root : Anchor) : List Link :=
  a.cascade (a.orphans.length + 1) [root]

theorem Ordered.cascade_eq_plan (ho : a.Ordered) (hroot : a.find? root.hash = none) {n : Nat}
    (hn : a.orphans.length < n) : a.cascade n [root] = a.plan root :=
  cascade_of_end (ho.generations_end hroot (Nat.lt_succ_self _)) hn

theorem eq_or_planned {n k : Nat} (hk : k < n) {x : Anchor} (hx : x ∈ a.descend^[k] [root]) :
    x = root ∨ ∃ u ∈ a.cascade n [root],
      Anchor.ofLink u = x ∧ u.status = .resolved x.height x.work := by
  cases k with
  | zero => exact .inl (List.mem_singleton.mp hx)
  | succ k =>
    rw [Function.iterate_succ_apply', descend, List.mem_map] at hx
    obtain ⟨u, hu, hx⟩ := hx
    subst hx
    refine .inr ⟨u, mem_cascade.mpr ⟨k, by omega, hu⟩, rfl, ?_⟩
    obtain ⟨y, -, o, -, -, -, ho⟩ := mem_generation.mp hu
    subst ho
    rfl

/-- The generations end before the plan does, so what is planned is an anchor in it. -/
theorem Ordered.ofLink_mem_descend (ho : a.Ordered) (hroot : a.find? root.hash = none) {n : Nat}
    (hn : a.orphans.length < n) {u : Link} (hu : u ∈ a.cascade n [root]) :
    ∃ k < n, Anchor.ofLink u ∈ a.descend^[k] [root] := by
  obtain ⟨k, hk, hu⟩ := mem_cascade.mp hu
  have hx : Anchor.ofLink u ∈ a.descend^[k + 1] [root] := by
    rw [Function.iterate_succ_apply']
    exact List.mem_map_of_mem hu
  refine ⟨k + 1, ?_, hx⟩
  by_contra hge
  have hkn : k + 1 = n := by omega
  rw [hkn, ho.generations_end hroot hn] at hx
  exact List.not_mem_nil hx

theorem Ordered.cascades {link : Link} {h w : Nat} (ho : a.Ordered) (hc : a.Chained)
    (hs : link.status = .resolved h w) (hroot : a.find? link.hash = none)
    (hbase : link.parentHash.isZero ∧ link.status = .resolved 0 0 ∨
      link.parentHash.isZero = false ∧ ∃ p ∈ a.links, link.Above p)
    (hvalid : ∃ own, Work.ofBits link.block.header.bits = .ok own) :
    a.Cascades link (a.plan ⟨link.hash, h, w⟩) := by
  have hn : a.orphans.length < a.orphans.length + 1 := Nat.lt_succ_self _
  rw [plan]
  generalize a.orphans.length + 1 = n at hn ⊢
  have hlink : Anchor.ofLink link = ⟨link.hash, h, w⟩ := by
    simp [Anchor.ofLink, Link.height?, Link.work?, LinkStatus.height?, LinkStatus.work?, hs]
  refine ⟨hbase, ?_, ?_, hvalid⟩
  · intro u hu
    obtain ⟨k, hk, hu⟩ := mem_cascade.mp hu
    obtain ⟨x, hx, o, hmem, horphan, hparent, he⟩ := mem_generation.mp hu
    obtain ⟨own, hown⟩ := hc.valid o hmem
    have hanchor : ∃ p ∈ link :: a.cascade n [⟨link.hash, h, w⟩],
        Anchor.ofLink p = x ∧ p.status = .resolved x.height x.work := by
      rcases eq_or_planned hk hx with he | ⟨p, hp, hpx⟩
      · exact ⟨link, List.mem_cons_self, hlink.trans he.symm, by rw [he, hs]⟩
      · exact ⟨p, List.mem_cons_of_mem _ hp, hpx⟩
    obtain ⟨p, hp, hpx, hps⟩ := hanchor
    subst hpx he
    exact ⟨p, hp, hparent.symm, _, _, own, hps, hown, by simp [Anchor.lift, Link.resolved,
      Link.make, Link.withSeq, Block.ownWork_eq hown]⟩
  · intro l hl horphan hparent
    have hup : ∃ k < n, ∃ x ∈ a.descend^[k] [⟨link.hash, h, w⟩], l.parentHash = x.hash := by
      rcases List.mem_cons.mp hparent with he | hm
      · exact ⟨0, by omega, ⟨link.hash, h, w⟩, by simp, he⟩
      · obtain ⟨u, hu, he⟩ := List.mem_map.mp hm
        obtain ⟨k, hk, hx⟩ := ho.ofLink_mem_descend hroot hn hu
        exact ⟨k, hk, _, hx, he.symm⟩
    obtain ⟨k, hk, x, hx, he⟩ := hup
    refine List.mem_map.mpr ⟨x.lift l, mem_cascade.mpr ⟨k, hk, ?_⟩, ?_⟩
    · exact mem_generation.mpr ⟨x, hx, l, hl, horphan, he, rfl⟩
    · simp [ho.hash_eq l hl]

end Arena

end BlockTree
