import BlockTree.Proofs.Filing

/-! The pointers of an arena. They move with each link that is resolved, and still
point to the one genesis link and to the best of all resolved links. -/

namespace BlockTree

namespace Link

variable {l m n : Link}

theorem isResolved_iff : l.isResolved ↔ ∃ h w : Nat, l.status = .resolved h w := by
  cases hs : l.status <;> simp [isResolved, isOrphan, LinkStatus.isOrphan, hs]

theorem isOrphan_iff : l.isOrphan ↔ l.status = .orphan := by
  cases hs : l.status <;> simp [isOrphan, LinkStatus.isOrphan, hs]

theorem isGenesis_iff : l.isGenesis ↔ ∃ w : Nat, l.status = .resolved 0 w := by
  cases hs : l.status <;> simp [isGenesis, height?, LinkStatus.height?, hs]

theorem isOrphan_eq_false_iff : l.isOrphan = false ↔ l.isResolved := by
  simp [isResolved]

theorem isResolved_of_isGenesis (h : l.isGenesis) : l.isResolved := by
  obtain ⟨w, hs⟩ := isGenesis_iff.mp h
  exact isResolved_iff.mpr ⟨0, w, hs⟩

theorem isGenesis_of_isOrphan (h : l.isOrphan) : l.isGenesis = false := by
  simp [isGenesis, height?, LinkStatus.height?, isOrphan_iff.mp h]

@[simp] theorem isResolved_withSeq (seq : Nat) : (l.withSeq seq).isResolved = l.isResolved := rfl

@[simp] theorem isOrphan_withSeq (seq : Nat) : (l.withSeq seq).isOrphan = l.isOrphan := rfl

@[simp] theorem isGenesis_withSeq (seq : Nat) : (l.withSeq seq).isGenesis = l.isGenesis := rfl

@[simp] theorem hash_withSeq (seq : Nat) : (l.withSeq seq).hash = l.hash := rfl

@[simp] theorem seq_withSeq (seq : Nat) : (l.withSeq seq).seq = seq := rfl

@[simp] theorem parentHash_withSeq (seq : Nat) : (l.withSeq seq).parentHash = l.parentHash := rfl

theorem betterTip_iff {h w h' w' : Nat} (hl : l.status = .resolved h w)
    (hm : m.status = .resolved h' w') : l.betterTip m ↔ w' < w ∨ w = w' ∧ l.seq < m.seq := by
  simp [betterTip, hl, hm]

theorem isResolved_of_betterTip (h : l.betterTip m) : l.isResolved := by
  cases hl : l.status with
  | orphan => simp [betterTip, hl] at h
  | resolved => simp [isResolved, isOrphan, LinkStatus.isOrphan, hl]

theorem betterTip_trans (hn : n.isResolved) (hlm : l.betterTip m) (hmn : m.betterTip n) :
    l.betterTip n := by
  obtain ⟨_, _, hl⟩ := isResolved_iff.mp (isResolved_of_betterTip hlm)
  obtain ⟨_, _, hm⟩ := isResolved_iff.mp (isResolved_of_betterTip hmn)
  obtain ⟨_, _, hn⟩ := isResolved_iff.mp hn
  have h := (betterTip_iff hl hm).mp hlm
  have h' := (betterTip_iff hm hn).mp hmn
  exact (betterTip_iff hl hn).mpr (by omega)

theorem betterTip_asymm (hlm : l.betterTip m) (hml : m.betterTip l) : False := by
  obtain ⟨_, _, hl⟩ := isResolved_iff.mp (isResolved_of_betterTip hlm)
  obtain ⟨_, _, hm⟩ := isResolved_iff.mp (isResolved_of_betterTip hml)
  have h := (betterTip_iff hl hm).mp hlm
  have h' := (betterTip_iff hm hl).mp hml
  omega

theorem betterTip_total (hl : l.isResolved) (hm : m.isResolved) (hne : l.seq ≠ m.seq) :
    l.betterTip m ∨ m.betterTip l := by
  obtain ⟨_, _, hl⟩ := isResolved_iff.mp hl
  obtain ⟨_, _, hm⟩ := isResolved_iff.mp hm
  rw [betterTip_iff hl hm, betterTip_iff hm hl]
  omega

/-- More work comes first, and of equal work the link that was stored earlier. -/
theorem betterTip_all_iff {stored : Link → Prop} {h w : Nat} (hl : l.status = .resolved h w) :
    (∀ m, stored m → m.isResolved → m ≠ l → l.betterTip m) ↔
      ∀ m, stored m → m ≠ l → ∀ h' w', m.status = .resolved h' w' →
        w' < w ∨ w = w' ∧ l.seq < m.seq := by
  constructor
  · intro hbetter m hm hne h' w' hs'
    exact (betterTip_iff hl hs').mp (hbetter m hm (isResolved_iff.mpr ⟨h', w', hs'⟩) hne)
  · intro hahead m hm hr hne
    obtain ⟨h', w', hs'⟩ := isResolved_iff.mp hr
    exact (betterTip_iff hl hs').mpr (hahead m hm hne h' w' hs')

end Link

namespace Arena

variable {a b : Arena} {link u : Link} {promoted : List Link}

/-- A stored resolved link that is better than every other one. -/
structure IsBest (a : Arena) (l : Link) : Prop where
  mem : l ∈ a.links
  resolved : l.isResolved
  better : ∀ m ∈ a.links, m.isResolved → m ≠ l → l.betterTip m

structure Pointed (a : Arena) : Prop where
  genesis_mem : ∀ h, a.genesis? = some h → ∃ l ∈ a.links, l.hash = h ∧ l.isGenesis
  genesis_eq : ∀ l ∈ a.links, l.isGenesis → a.genesis? = some l.hash
  best_none : a.best? = none → ∀ l ∈ a.links, l.isOrphan
  best_some : ∀ h, a.best? = some h → ∃ l, a.IsBest l ∧ l.hash = h

theorem pointed_empty : Pointed {} where
  genesis_mem := by simp
  genesis_eq := by simp
  best_none := by simp
  best_some := by simp

/-- Pointers do not depend on what is not resolved. -/
theorem Pointed.of_resolved (hp : a.Pointed) (hg : b.genesis? = a.genesis?)
    (hb : b.best? = a.best?) (hm : ∀ l : Link, l.isResolved → (l ∈ b.links ↔ l ∈ a.links)) :
    b.Pointed where
  genesis_mem h he := by
    obtain ⟨l, hl, hh, hlg⟩ := hp.genesis_mem h (hg ▸ he)
    exact ⟨l, (hm l (Link.isResolved_of_isGenesis hlg)).mpr hl, hh, hlg⟩
  genesis_eq l hl hlg :=
    hg ▸ hp.genesis_eq l ((hm l (Link.isResolved_of_isGenesis hlg)).mp hl) hlg
  best_none he l hl := by
    by_contra ho
    have hr : l.isResolved := Link.isOrphan_eq_false_iff.mp (by simpa using ho)
    exact ho (hp.best_none (hb ▸ he) l ((hm l hr).mp hl))
  best_some h he := by
    obtain ⟨l, hl, hh⟩ := hp.best_some h (hb ▸ he)
    exact ⟨l, ⟨(hm l hl.resolved).mpr hl.mem, hl.resolved,
      fun m hmb hr => hl.better m ((hm m hr).mp hmb) hr⟩, hh⟩

section Notice

variable {c : Link} (hu : u.isResolved)
  (hm : ∀ l : Link, l.isResolved → (l ∈ b.links ↔ l = u ∨ l ∈ a.links))

include hu hm

theorem isBest_first (ha : ∀ l ∈ a.links, l.isOrphan) : b.IsBest u := by
  refine ⟨(hm u hu).mpr (.inl rfl), hu, ?_⟩
  intro m hmb hr hne
  have hma := ((hm m hr).mp hmb).resolve_left hne
  have ho := ha m hma
  simp [Link.isResolved, ho] at hr

/-- What is better than the best link is better than all of them. -/
theorem IsBest.overtaken (hc : a.IsBest c) (hbetter : u.betterTip c) : b.IsBest u := by
  refine ⟨(hm u hu).mpr (.inl rfl), hu, ?_⟩
  intro m hmb hr hne
  have hma := ((hm m hr).mp hmb).resolve_left hne
  by_cases hmc : m = c
  · exact hmc ▸ hbetter
  · exact Link.betterTip_trans hr hbetter (hc.better m hma hr hmc)

theorem IsBest.kept (hc : a.IsBest c) (ho : b.Ordered) (hnew : u ∉ a.links)
    (hbetter : ¬ u.betterTip c) : b.IsBest c := by
  have hub : u ∈ b.links := (hm u hu).mpr (.inl rfl)
  have hcb : c ∈ b.links := (hm c hc.resolved).mpr (.inr hc.mem)
  refine ⟨hcb, hc.resolved, ?_⟩
  intro m hmb hr hmc
  rcases (hm m hr).mp hmb with he | hma
  · have hseq : u.seq ≠ c.seq := by
      intro hs
      have huc := ho.eq_of_seq hub hcb hs
      exact hnew (huc ▸ hc.mem)
    rw [he]
    exact (Link.betterTip_total hu hc.resolved hseq).resolve_left hbetter
  · exact hc.better m hma hr hmc

/-- A newly resolved link need only be compared with the best one before it. -/
theorem Pointed.exists_isBest_notice (hp : a.Pointed) (ho : b.Ordered) (hb : b.best? = a.best?)
    (hnew : u ∉ a.links) : ∃ l, b.IsBest l ∧ (b.notice u).best? = some l.hash := by
  cases hba : a.best? with
  | none =>
    refine ⟨u, isBest_first hu hm (hp.best_none hba), ?_⟩
    simp [Arena.notice, hb, hba, hu]
  | some k =>
    obtain ⟨c, hc, hck⟩ := hp.best_some k hba
    have hcb : c ∈ b.links := (hm c hc.resolved).mpr (.inr hc.mem)
    have hcurrent : b.best?.bind b.find? = some c := by
      rw [hb, hba, ← hck, Option.bind_some, ho.find?_mem hcb]
    by_cases hbetter : u.betterTip c
    · refine ⟨u, hc.overtaken hu hm hbetter, ?_⟩
      simp [Arena.notice, hcurrent, hbetter]
    · refine ⟨c, hc.kept hu hm ho hnew hbetter, ?_⟩
      simp only [Arena.notice, hcurrent, hbetter]
      rw [hb, hba, hck]
      rfl

theorem Pointed.notice (hp : a.Pointed) (ho : b.Ordered) (hg : b.genesis? = a.genesis?)
    (hb : b.best? = a.best?) (hnew : u ∉ a.links) (hfirst : u.isGenesis → a.genesis? = none) :
    (b.notice u).Pointed := by
  have hub : u ∈ b.links := (hm u hu).mpr (.inl rfl)
  obtain ⟨c, hc, hbest⟩ := hp.exists_isBest_notice hu hm ho hb hnew
  refine ⟨?_, ?_, ?_, ?_⟩
  · intro h he
    by_cases hug : u.isGenesis
    · simp only [Arena.notice, hug, if_true, Option.some.injEq] at he
      exact ⟨u, hub, he, hug⟩
    · simp only [Arena.notice, hug] at he
      obtain ⟨l, hl, hh, hlg⟩ := hp.genesis_mem h (by simpa [hg] using he)
      exact ⟨l, (hm l (Link.isResolved_of_isGenesis hlg)).mpr (.inr hl), hh, hlg⟩
  · intro l hl hlg
    rcases (hm l (Link.isResolved_of_isGenesis hlg)).mp hl with he | hla
    · subst he
      simp [Arena.notice, hlg]
    · have he := hp.genesis_eq l hla hlg
      have hug : u.isGenesis = false := by
        apply Bool.eq_false_iff.mpr
        intro hug
        rw [hfirst hug] at he
        cases he
      simp [Arena.notice, hug, hg, he]
  · intro he
    rw [hbest] at he
    cases he
  · intro h he
    rw [hbest, Option.some.injEq] at he
    exact ⟨c, ⟨hc.mem, hc.resolved, hc.better⟩, he⟩

end Notice

theorem Pointed.drop (hp : a.Pointed) {hashes : List Hash}
    (horphan : ∀ l ∈ a.links, l.hash ∈ hashes → l.isOrphan) : (a.drop hashes).Pointed := by
  refine hp.of_resolved (b := a.drop hashes) rfl rfl ?_
  intro l hr
  rw [mem_drop]
  refine ⟨And.left, fun hl => ⟨hl, fun hm => ?_⟩⟩
  have := horphan l hl hm
  simp [Link.isResolved, this] at hr

theorem Pointed.push (hp : a.Pointed) (ho : a.Ordered) (hfresh : a.find? link.hash = none)
    (hhash : link.hash = link.block.hash) (hfirst : link.isGenesis → a.genesis? = none) :
    ((a.push link).noticeResolved (link.withSeq a.nextSeq)).Pointed := by
  have hmem : ∀ l, l ∈ (a.push link).links ↔ l = link.withSeq a.nextSeq ∨ l ∈ a.links := by
    intro l
    simp [Arena.push, or_comm]
  by_cases hr : link.isResolved
  · rw [noticeResolved, if_pos (by simpa using hr)]
    refine hp.notice (by simpa using hr) (fun l _ => hmem l) (ho.push hfresh hhash) rfl rfl ?_
      (by simpa using hfirst)
    intro hm
    exact find?_eq_none.mp hfresh _ hm rfl
  · rw [noticeResolved, if_neg (by simpa using hr)]
    refine hp.of_resolved (b := a.push link) rfl rfl ?_
    intro l hl
    rw [hmem]
    refine ⟨fun h => h.resolve_left ?_, .inr⟩
    rintro rfl
    exact hr (by simpa using hl)

/-- An orphan's record changes, and it may have become resolved by that. -/
theorem Pointed.amend (hp : a.Pointed) (ho : a.Ordered) (h : a.Amends u)
    (hhash : u.hash = u.block.hash) (hfirst : u.isGenesis → a.genesis? = none) :
    (a.replace u).Pointed := by
  let b : Arena := { a with links := (a.replace u).links }
  have hb : a.replace u = b.noticeResolved u := by simp [b, Arena.replace]
  have hrenewed : (a.replace u).Ordered := ho.renew h.renews hhash
  have hob : b.Ordered := ⟨hrenewed.hash_eq, hrenewed.nodup, hrenewed.sorted, by
    simpa [b] using hrenewed.seq_lt⟩
  obtain ⟨o, hmem, horphan, hh, -⟩ := id h
  have horphaned : ∀ l ∈ a.links, l.hash = u.hash → l.isOrphan := by
    intro l hl he
    rw [ho.eq_of_hash hl hmem (he.trans hh.symm)]
    exact horphan
  have hm : ∀ l : Link, l.isResolved → (l ∈ b.links ↔ l = u ∨ l ∈ a.links) := by
    intro l hl
    rw [mem_replace h.renews]
    refine or_congr_right ⟨And.left, fun hla => ⟨hla, fun he => ?_⟩⟩
    simp [Link.isResolved, horphaned l hla he] at hl
  rw [hb]
  by_cases hu : u.isResolved
  · rw [noticeResolved, if_pos hu]
    refine hp.notice hu hm hob rfl rfl (fun hua => ?_) hfirst
    simp [Link.isResolved, horphaned u hua rfl] at hu
  · rw [noticeResolved, if_neg hu]
    refine hp.of_resolved rfl rfl fun l hl => (hm l hl).trans ⟨fun hl' => ?_, .inr⟩
    refine hl'.resolve_left fun he => hu ?_
    exact he ▸ hl

/-- A store with a genesis link lets no link in as another one. -/
theorem Pointed.eq_none_of_checkGenesis (hp : a.Pointed) (hc : a.checkGenesis u = .ok ())
    (hnew : ∀ l ∈ a.links, l.hash = u.hash → l.isOrphan) (hg : u.isGenesis) :
    a.genesis? = none := by
  cases he : a.genesis? with
  | none => rfl
  | some existing =>
    have hsame : existing = u.hash := by
      by_contra hne
      simp [checkGenesis, he, hg, hne] at hc
    obtain ⟨l, hl, hh, hlg⟩ := hp.genesis_mem existing he
    have horphan := hnew l hl (hh.trans hsame)
    rw [Link.isGenesis_of_isOrphan horphan] at hlg
    cases hlg

section Lookups

variable {l : Link} (hp : a.Pointed) (ho : a.Ordered)

include hp ho

theorem Pointed.genesis_iff : a.genesis?.bind a.find? = some l ↔ l ∈ a.links ∧ l.isGenesis := by
  constructor
  · intro h
    obtain ⟨hash, hg, hf⟩ := Option.bind_eq_some_iff.mp h
    obtain ⟨m, hm, hh, hmg⟩ := hp.genesis_mem hash hg
    rw [← hh, ho.find?_mem hm] at hf
    cases hf
    exact ⟨hm, hmg⟩
  · intro h
    obtain ⟨hl, hg⟩ := h
    rw [hp.genesis_eq l hl hg, Option.bind_some, ho.find?_mem hl]

theorem Pointed.best_eq_none_iff : a.best?.bind a.find? = none ↔ ∀ l ∈ a.links, l.isOrphan := by
  cases hb : a.best? with
  | none => simpa using hp.best_none hb
  | some hash =>
    obtain ⟨m, hm, hh⟩ := hp.best_some hash hb
    rw [Option.bind_some, ← hh, ho.find?_mem hm.mem]
    refine ⟨nofun, fun h => ?_⟩
    have hr := hm.resolved
    simp [Link.isResolved, h m hm.mem] at hr

theorem Pointed.best_iff : a.best?.bind a.find? = some l ↔ a.IsBest l := by
  cases hb : a.best? with
  | none =>
    refine ⟨nofun, fun hl => ?_⟩
    have hr := hl.resolved
    simp [Link.isResolved, hp.best_none hb l hl.mem] at hr
  | some hash =>
    obtain ⟨m, hm, hh⟩ := hp.best_some hash hb
    rw [Option.bind_some, ← hh, ho.find?_mem hm.mem, Option.some.injEq]
    refine ⟨fun he => he ▸ hm, fun hl => ?_⟩
    by_contra hne
    have hlm := hl.better m hm.mem hm.resolved hne
    have hml := hm.better l hl.mem hl.resolved (Ne.symm hne)
    exact Link.betterTip_asymm hlm hml

end Lookups

theorem Files.pointed (h : a.Files link promoted) (ho : a.Ordered) (hp : a.Pointed) :
    (a.file link promoted).Pointed := by
  refine (foldl_replace_induction (P := Pointed) ?_ (ho.push h.fresh h.hash_eq).noticeResolved
    (fun _ hu => h.replaces_push hu) h.nodup (hp.push ho h.fresh h.hash_eq h.first)).2
  intro c u hoc hr hu hpc
  exact hpc.amend hoc hr.amends (hr.hash_eq hoc) (by simp [(h.lifted u hu).2])

end Arena

end BlockTree
