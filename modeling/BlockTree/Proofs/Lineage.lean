import BlockTree.Proofs.Pointers
import Mathlib.Data.List.Perm.Subperm

/-! The tree that the links of an arena make. Every resolved link stands on a stored
resolved parent, down to the genesis link, and no orphan stands on a resolved one. -/

namespace BlockTree

theorem Work.ofTarget_le (target : Nat) : Work.ofTarget target ≤ 2 ^ 256 :=
  Nat.div_le_self _ _

theorem Work.ofBits_le {bits : UInt32} {own : Work} (h : Work.ofBits bits = .ok own) :
    own ≤ 2 ^ 256 := by
  unfold Work.ofBits at h
  cases he : Target.expand bits with
  | error fault => simp [he] at h
  | ok target =>
    simp only [he, Except.ok.injEq] at h
    exact h ▸ Work.ofTarget_le target

theorem Target.lt_of_expand {bits : UInt32} {target : Nat}
    (h : Target.expand bits = .ok target) : target < 2 ^ 256 := by
  unfold Target.expand at h
  by_cases hneg : Target.signed bits ∧ Target.mantissa bits ≠ 0
  · simp [hneg] at h
  · by_cases hzero : Target.magnitude bits = 0
    · simp [hneg, hzero] at h
    · by_cases hover : 2 ^ 256 ≤ Target.magnitude bits
      · rw [if_neg hneg, if_neg hzero, if_pos hover] at h
        cases h
      · rw [if_neg hneg, if_neg hzero, if_neg hover] at h
        cases h
        exact Nat.lt_of_not_le hover

theorem Work.ofBits_pos {bits : UInt32} {own : Work} (h : Work.ofBits bits = .ok own) :
    0 < own := by
  unfold Work.ofBits at h
  cases he : Target.expand bits with
  | error fault => simp [he] at h
  | ok target =>
    simp only [he, Except.ok.injEq] at h
    rw [← h, Work.ofTarget]
    exact Nat.div_pos (Target.lt_of_expand he) (Nat.succ_pos _)

structure Link.Above (l p : Link) : Prop where
  hash_eq : p.hash = l.parentHash
  status_eq : ∃ h w own : Nat, p.status = .resolved h w ∧
    Work.ofBits l.block.header.bits = .ok own ∧ l.status = .resolved (h + 1) (w + own)

namespace Link.Above

variable {l p : Link}

theorem isResolved (h : l.Above p) : p.isResolved := by
  obtain ⟨h, w, -, hs, -⟩ := h.status_eq
  exact Link.isResolved_iff.mpr ⟨h, w, hs⟩

theorem resolved (h : l.Above p) : l.isResolved := by
  obtain ⟨_, _, _, -, -, hs⟩ := h.status_eq
  exact Link.isResolved_iff.mpr ⟨_, _, hs⟩

theorem isGenesis (h : l.Above p) : l.isGenesis = false := by
  obtain ⟨_, _, _, -, -, hs⟩ := h.status_eq
  simp [Link.isGenesis, Link.height?, LinkStatus.height?, hs]

theorem withSeq (h : l.Above p) (seq : Nat) : (l.withSeq seq).Above p :=
  ⟨h.hash_eq, h.status_eq⟩

end Link.Above

namespace Arena

variable {a b : Arena} {link : Link} {promoted : List Link}

structure Chained (a : Arena) : Prop where
  root : ∀ l ∈ a.links, l.parentHash.isZero → l.status = .resolved 0 0
  stands : ∀ l ∈ a.links, l.isResolved → l.parentHash.isZero = false → ∃ p ∈ a.links, l.Above p
  waits : ∀ l ∈ a.links, l.isOrphan → ∀ p ∈ a.links, p.hash = l.parentHash → p.isOrphan
  valid : ∀ l ∈ a.links, ∃ own, Work.ofBits l.block.header.bits = .ok own

theorem chained_empty : Chained {} where
  root := by simp
  stands := by simp
  waits := by simp
  valid := by simp

namespace Chained

variable (hc : a.Chained)

include hc

theorem isZero_of_isGenesis {l : Link} (hl : l ∈ a.links) (hg : l.isGenesis) :
    l.parentHash.isZero := by
  by_contra hz
  obtain ⟨p, -, hp⟩ :=
    hc.stands l hl (Link.isResolved_of_isGenesis hg) (by simpa using hz)
  rw [hp.isGenesis] at hg
  exact absurd hg (by simp)

theorem isGenesis_of_isZero {l : Link} (hl : l ∈ a.links) (hz : l.parentHash.isZero) :
    l.isGenesis :=
  Link.isGenesis_iff.mpr ⟨0, hc.root l hl hz⟩

theorem parent_ne_zero_of_isOrphan {l : Link} (hl : l ∈ a.links) (ho : l.isOrphan) :
    l.parentHash.isZero = false := by
  apply Bool.eq_false_iff.mpr
  intro hz
  have hs := hc.root l hl hz
  rw [Link.isOrphan_iff.mp ho] at hs
  exact absurd hs (by simp)

theorem drop {hashes : List Hash} (horphan : ∀ l ∈ a.links, l.hash ∈ hashes → l.isOrphan) :
    (a.drop hashes).Chained where
  root l hl := hc.root l (mem_drop.mp hl).1
  stands l hl hr hz := by
    obtain ⟨p, hp, habove⟩ := hc.stands l (mem_drop.mp hl).1 hr hz
    refine ⟨p, mem_drop.mpr ⟨hp, fun hm => ?_⟩, habove⟩
    have := horphan p hp hm
    have := habove.isResolved
    simp_all [Link.isResolved]
  waits l hl ho p hp := hc.waits l (mem_drop.mp hl).1 ho p (mem_drop.mp hp).1
  valid l hl := hc.valid l (mem_drop.mp hl).1

theorem file_orphan (ho : a.Ordered) (hf : a.Files link []) (horphan : link.isOrphan)
    (hz : link.parentHash.isZero = false)
    (hparent : ∀ p ∈ a.links, p.hash = link.parentHash → p.isOrphan)
    (hvalid : ∃ own, Work.ofBits link.block.header.bits = .ok own) :
    (a.file link []).Chained := by
  have hmem : ∀ {l}, l ∈ (a.file link []).links ↔ l = link.withSeq a.nextSeq ∨ l ∈ a.links := by
    intro l
    rw [hf.mem_file ho]
    simp
  refine ⟨?_, ?_, ?_, ?_⟩
  · intro l hl hlz
    rcases hmem.mp hl with rfl | hl
    · simp [hz] at hlz
    · exact hc.root l hl hlz
  · intro l hl hr hlz
    rcases hmem.mp hl with rfl | hl
    · simp [Link.isResolved, horphan] at hr
    · obtain ⟨p, hp, habove⟩ := hc.stands l hl hr hlz
      exact ⟨p, hmem.mpr (.inr hp), habove⟩
  · intro l hl hlo p hp hph
    rcases hmem.mp hp with rfl | hp
    · simpa using horphan
    · rcases hmem.mp hl with rfl | hl
      · exact hparent p hp hph
      · exact hc.waits l hl hlo p hp hph
  · intro l hl
    rcases hmem.mp hl with rfl | hl
    · exact hvalid
    · exact hc.valid l hl

end Chained

/-- Replacements that resolve, with a new link, all that waits below it. -/
structure Cascades (a : Arena) (link : Link) (promoted : List Link) : Prop where
  base : link.parentHash.isZero ∧ link.status = .resolved 0 0 ∨
    link.parentHash.isZero = false ∧ ∃ p ∈ a.links, link.Above p
  stands : ∀ u ∈ promoted, ∃ p ∈ link :: promoted, u.Above p
  complete : ∀ l ∈ a.links, l.isOrphan → l.parentHash ∈ (link :: promoted).map Link.hash →
    l.hash ∈ promoted.map Link.hash
  valid : ∃ own, Work.ofBits link.block.header.bits = .ok own

theorem Cascades.isResolved (h : a.Cascades link promoted) : link.isResolved := by
  rcases h.base with ⟨-, hs⟩ | ⟨-, p, -, hp⟩
  · exact Link.isResolved_iff.mpr ⟨0, 0, hs⟩
  · exact hp.resolved

theorem Chained.file (hc : a.Chained) (ho : a.Ordered) (hf : a.Files link promoted)
    (h : a.Cascades link promoted) : (a.file link promoted).Chained := by
  have hmem {l : Link} : l ∈ (a.file link promoted).links ↔ l = link.withSeq a.nextSeq ∨
      l ∈ promoted ∨ l ∈ a.links ∧ l.hash ∉ promoted.map Link.hash := hf.mem_file ho
  have hkept {p : Link} (hp : p ∈ a.links) (hr : p.isResolved) :
      p ∈ (a.file link promoted).links := hf.mem_file_of_isResolved ho hp hr
  have hnot {u : Link} (hu : u ∈ promoted) : u.isResolved := (hf.lifted u hu).1
  refine ⟨?_, ?_, ?_, ?_⟩
  · intro l hl hz
    rcases hmem.mp hl with rfl | hl | ⟨hl, -⟩
    · rcases h.base with ⟨-, hs⟩ | ⟨hn, -⟩
      · exact hs
      · simp [hn] at hz
    · obtain ⟨o, hmo, horphan, -, hb, -⟩ := hf.replaces l hl
      have := hc.parent_ne_zero_of_isOrphan hmo horphan
      rw [Link.parentHash, hb] at this
      simp [Link.parentHash, this] at hz
    · exact hc.root l hl hz
  · intro l hl hr hz
    rcases hmem.mp hl with rfl | hl | ⟨hl, -⟩
    · rcases h.base with ⟨hn, -⟩ | ⟨-, p, hp, habove⟩
      · simp [hn] at hz
      · exact ⟨p, hkept hp habove.isResolved, habove.withSeq _⟩
    · obtain ⟨p, hp, habove⟩ := h.stands l hl
      rcases List.mem_cons.mp hp with rfl | hp
      · exact ⟨p.withSeq a.nextSeq, hmem.mpr (.inl rfl), habove.hash_eq, habove.status_eq⟩
      · exact ⟨p, hmem.mpr (.inr (.inl hp)), habove⟩
    · obtain ⟨p, hp, habove⟩ := hc.stands l hl hr hz
      exact ⟨p, hkept hp habove.isResolved, habove⟩
  · intro l hl hlo p hp hph
    rcases hmem.mp hl with rfl | hl | ⟨hl, hnp⟩
    · have := h.isResolved
      simp_all [Link.isResolved]
    · have := hnot hl
      simp_all [Link.isResolved]
    · rcases hmem.mp hp with rfl | hp | ⟨hp, -⟩
      · exact absurd (h.complete l hl hlo (by simp [← hph])) hnp
      · refine absurd (h.complete l hl hlo ?_) hnp
        rw [← hph]
        exact List.mem_cons_of_mem _ (List.mem_map_of_mem hp)
      · exact hc.waits l hl hlo p hp hph
  · intro l hl
    rcases hmem.mp hl with rfl | hl | ⟨hl, -⟩
    · exact h.valid
    · obtain ⟨o, hmo, -, -, hb, -⟩ := hf.replaces l hl
      rw [← hb]
      exact hc.valid o hmo
    · exact hc.valid l hl

/-- The links from a resolved one down to the genesis link. -/
inductive Lineage (a : Arena) : Link → List Link → Prop
  | root {l : Link} : l ∈ a.links → l.parentHash.isZero → l.status = .resolved 0 0 →
    Lineage a l [l]
  | child {l p : Link} {path : List Link} : l ∈ a.links → l.parentHash.isZero = false →
    l.Above p → Lineage a p path → Lineage a l (l :: path)

namespace Lineage

variable {l : Link} {path : List Link}

theorem mem_links (h : a.Lineage l path) : l ∈ a.links := by
  cases h <;> assumption

theorem subset (h : a.Lineage l path) : ∀ m ∈ path, m ∈ a.links ∧ m.isResolved := by
  induction h with
  | root hl hz hs => simpa using ⟨hl, Link.isResolved_iff.mpr ⟨0, 0, hs⟩⟩
  | child hl hz habove _ ih =>
    intro m hm
    rcases List.mem_cons.mp hm with rfl | hm
    · exact ⟨hl, habove.resolved⟩
    · exact ih m hm

theorem mono (h : a.Lineage l path) (hkeep : ∀ m ∈ path, m ∈ b.links) : b.Lineage l path := by
  induction h with
  | root _ hz hs => exact .root (hkeep _ (by simp)) hz hs
  | child _ hz habove _ ih =>
    exact .child (hkeep _ (by simp)) hz habove (ih fun m hm => hkeep m (by simp [hm]))

/-- The height counts the links below, and each of them adds a bounded work. -/
theorem length_eq (h : a.Lineage l path) {n w : Nat} (hs : l.status = .resolved n w) :
    path.length = n + 1 ∧ w ≤ n * 2 ^ 256 := by
  induction h generalizing n w with
  | root hl hz hr =>
    rw [hr] at hs
    cases hs
    simp
  | child hl hz habove _ ih =>
    obtain ⟨n', w', own, hp, hown, hr⟩ := habove.status_eq
    have hi := ih hp
    rw [hr] at hs
    cases hs
    refine ⟨by simp [hi.1], ?_⟩
    rw [Nat.succ_mul]
    exact Nat.add_le_add hi.2 (Work.ofBits_le hown)

theorem height_le (h : a.Lineage l path) {n w : Nat} (hs : l.status = .resolved n w) :
    ∀ m ∈ path, ∃ n' w' : Nat, m.status = .resolved n' w' ∧ n' ≤ n := by
  induction h generalizing n w with
  | root hl hz hr =>
    intro m hm
    rw [List.mem_singleton.mp hm]
    exact ⟨n, w, hs, Nat.le_refl _⟩
  | child hl hz habove _ ih =>
    intro m hm
    rcases List.mem_cons.mp hm with rfl | hm
    · exact ⟨n, w, hs, Nat.le_refl _⟩
    · obtain ⟨n', w', own, hp, -, hr⟩ := habove.status_eq
      obtain ⟨k, v, hk, hle⟩ := ih hp m hm
      rw [hr] at hs
      cases hs
      exact ⟨k, v, hk, Nat.le_succ_of_le hle⟩

theorem not_mem_of_height_lt (h : a.Lineage l path) {n w k v : Nat} {m : Link}
    (hs : l.status = .resolved n w) (hm : m.status = .resolved k v) (hlt : n < k) :
    m ∉ path := by
  intro hmem
  obtain ⟨k', v', hk, hle⟩ := h.height_le hs m hmem
  rw [hm] at hk
  cases hk
  omega

theorem nodup (h : a.Lineage l path) : path.Nodup := by
  induction h with
  | root => simp
  | child hl hz habove hpath ih =>
    obtain ⟨n, w, own, hp, -, hr⟩ := habove.status_eq
    exact List.nodup_cons.mpr ⟨hpath.not_mem_of_height_lt hp hr (Nat.lt_succ_self n), ih⟩

theorem height_lt (h : a.Lineage l path) {n w : Nat} (hs : l.status = .resolved n w) :
    n < (a.links.filter Link.isResolved).length := by
  have hsub : path.Subperm (a.links.filter Link.isResolved) :=
    List.subperm_of_subset h.nodup fun m hm => List.mem_filter.mpr (h.subset m hm)
  have := hsub.length_le
  have := (h.length_eq hs).1
  omega

theorem length_le (h : a.Lineage l path) : path.length ≤ a.links.length :=
  (List.subperm_of_subset h.nodup fun m hm => (h.subset m hm).1).length_le

theorem head_eq (h : a.Lineage l path) : ∃ rest, path = l :: rest := by
  cases h with
  | root => exact ⟨[], rfl⟩
  | child => exact ⟨_, rfl⟩

theorem ne_nil (h : a.Lineage l path) : path ≠ [] := by
  obtain ⟨rest, rfl⟩ := h.head_eq
  simp

theorem isResolved (h : a.Lineage l path) : l.isResolved := by
  obtain ⟨rest, rfl⟩ := h.head_eq
  exact (h.subset l (by simp)).2

theorem isGenesis_getLast (h : a.Lineage l path) (hne : path ≠ []) :
    (path.getLast hne).isGenesis := by
  induction h with
  | root hl hz hs => simpa using Link.isGenesis_iff.mpr ⟨0, hs⟩
  | child hl hz habove hpath ih =>
    obtain ⟨rest, rfl⟩ := hpath.head_eq
    rw [List.getLast_cons (by simp)]
    exact ih (by simp)

theorem exists_genesis (h : a.Lineage l path) : ∃ g ∈ path, g.isGenesis :=
  ⟨_, List.getLast_mem h.ne_nil, h.isGenesis_getLast h.ne_nil⟩

theorem unique (h : a.Lineage l path) (ho : a.Ordered) {path' : List Link}
    (h' : a.Lineage l path') : path = path' := by
  induction h generalizing path' with
  | root hl hz hs =>
    cases h' with
    | root => rfl
    | child _ hz' => simp [hz] at hz'
  | child hl hz habove hpath ih =>
    cases h' with
    | root _ hz' => simp [hz] at hz'
    | child _ _ habove' hpath' =>
      have : _ = _ := ho.eq_of_hash hpath.mem_links hpath'.mem_links
        (habove.hash_eq.trans habove'.hash_eq.symm)
      subst this
      rw [ih hpath']

theorem exists_parent (h : a.Lineage l path) {n w : Nat} (hs : l.status = .resolved (n + 1) w) :
    ∃ (p : Link) (rest : List Link) (w' : Nat), path = l :: rest ∧ a.Lineage p rest ∧
      l.parentHash.isZero = false ∧ l.Above p ∧ p.status = .resolved n w' := by
  cases h with
  | root hl hz hr =>
    rw [hr] at hs
    cases hs
  | child hl hz habove hpath =>
    obtain ⟨n', w', own, hp, -, hr⟩ := habove.status_eq
    rw [hr] at hs
    cases hs
    exact ⟨_, _, w', rfl, hpath, hz, habove, hp⟩

end Lineage

theorem Chained.exists_lineage (hc : a.Chained) {l : Link} (hl : l ∈ a.links)
    (hr : l.isResolved) : ∃ path, a.Lineage l path := by
  obtain ⟨n, w, hs⟩ := Link.isResolved_iff.mp hr
  induction n generalizing l w with
  | zero =>
    have hz := hc.isZero_of_isGenesis hl (Link.isGenesis_iff.mpr ⟨w, hs⟩)
    exact ⟨[l], .root hl hz (hc.root l hl hz)⟩
  | succ n ih =>
    have hz : l.parentHash.isZero = false := by
      apply Bool.eq_false_iff.mpr
      intro hz
      rw [hc.root l hl hz] at hs
      cases hs
    obtain ⟨p, hp, habove⟩ := hc.stands l hl hr hz
    obtain ⟨n', w', own, hps, -, hls⟩ := habove.status_eq
    rw [hls] at hs
    cases hs
    obtain ⟨path, hpath⟩ := ih hp habove.isResolved w' hps
    exact ⟨l :: path, .child hl hz habove hpath⟩

theorem Chained.height_lt (hc : a.Chained) {l : Link} (hl : l ∈ a.links) {n w : Nat}
    (hs : l.status = .resolved n w) : n < (a.links.filter Link.isResolved).length := by
  obtain ⟨path, hpath⟩ := hc.exists_lineage hl (Link.isResolved_iff.mpr ⟨n, w, hs⟩)
  exact hpath.height_lt hs

theorem Chained.work_le (hc : a.Chained) {l : Link} (hl : l ∈ a.links) {n w : Nat}
    (hs : l.status = .resolved n w) : w ≤ n * 2 ^ 256 := by
  obtain ⟨path, hpath⟩ := hc.exists_lineage hl (Link.isResolved_iff.mpr ⟨n, w, hs⟩)
  exact (hpath.length_eq hs).2

/-- Every step up from the genesis link adds some work. -/
theorem Chained.work_pos (hc : a.Chained) (hl : l ∈ a.links) {height work : Nat}
    (hs : l.status = .resolved height work) (hg : l.isGenesis = false) : 0 < work := by
  have hz : l.parentHash.isZero = false := by
    apply Bool.eq_false_iff.mpr
    intro hz
    have := hc.isGenesis_of_isZero hl hz
    simp [this] at hg
  obtain ⟨p, -, habove⟩ := hc.stands l hl (Link.isResolved_iff.mpr ⟨_, _, hs⟩) hz
  obtain ⟨h, w, own, -, hown, hs'⟩ := habove.status_eq
  rw [hs'] at hs
  cases hs
  exact Nat.add_pos_right w (Work.ofBits_pos hown)

end Arena

end BlockTree
