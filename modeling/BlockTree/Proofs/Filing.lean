import BlockTree.Arena
import Mathlib.Data.List.Nodup

/-! What an arena holds after links were filed, replaced or dropped. -/

namespace BlockTree.Arena

/-- Links are filed under the hashes of their blocks, each hash once, and numbered
in the order of their arrival. -/
structure Ordered (a : Arena) : Prop where
  hash_eq : ∀ l ∈ a.links, l.hash = l.block.hash
  nodup : (a.links.map Link.hash).Nodup
  sorted : a.links.Pairwise fun l m => l.seq < m.seq
  seq_lt : ∀ l ∈ a.links, l.seq < a.nextSeq

variable {a : Arena} {link u : Link} {promoted : List Link} {hash : Hash}

theorem ordered_empty : Ordered {} where
  hash_eq := by simp
  nodup := by simp
  sorted := by simp
  seq_lt := by simp

theorem find?_eq_none : a.find? hash = none ↔ ∀ l ∈ a.links, l.hash ≠ hash := by
  simp [find?]

theorem mem_of_find? {l : Link} (h : a.find? hash = some l) : l ∈ a.links ∧ l.hash = hash :=
  ⟨List.mem_of_find?_eq_some h, by simpa using List.find?_some h⟩

theorem Ordered.eq_of_hash (ho : a.Ordered) {l m : Link} (hl : l ∈ a.links) (hm : m ∈ a.links)
    (h : l.hash = m.hash) : l = m :=
  List.inj_on_of_nodup_map ho.nodup hl hm h

theorem Ordered.eq_of_seq (ho : a.Ordered) {l m : Link} (hl : l ∈ a.links) (hm : m ∈ a.links)
    (h : l.seq = m.seq) : l = m := by
  have hn : (a.links.map Link.seq).Nodup :=
    List.pairwise_map.mpr (ho.sorted.imp fun hlt => Nat.ne_of_lt hlt)
  exact List.inj_on_of_nodup_map hn hl hm h

theorem Ordered.find?_mem (ho : a.Ordered) {l : Link} (hl : l ∈ a.links) :
    a.find? l.hash = some l := by
  cases hf : a.find? l.hash with
  | none => exact absurd rfl (find?_eq_none.mp hf l hl)
  | some m =>
    obtain ⟨hm, hh⟩ := mem_of_find? hf
    rw [ho.eq_of_hash hm hl hh]

theorem Ordered.find?_eq_some (ho : a.Ordered) {l : Link} :
    a.find? hash = some l ↔ l ∈ a.links ∧ l.hash = hash := by
  constructor
  · exact mem_of_find?
  · rintro ⟨hl, rfl⟩
    exact ho.find?_mem hl

@[simp] theorem links_notice : (a.notice link).links = a.links := rfl

@[simp] theorem nextSeq_notice : (a.notice link).nextSeq = a.nextSeq := rfl

@[simp] theorem links_noticeResolved : (a.noticeResolved link).links = a.links := by
  unfold noticeResolved
  split <;> rfl

@[simp] theorem nextSeq_noticeResolved : (a.noticeResolved link).nextSeq = a.nextSeq := by
  unfold noticeResolved
  split <;> rfl

def push (a : Arena) (link : Link) : Arena :=
  { a with links := a.links ++ [link.withSeq a.nextSeq], nextSeq := a.nextSeq + 1 }

def file (a : Arena) (link : Link) (promoted : List Link) : Arena :=
  promoted.foldl replace ((a.push link).noticeResolved (link.withSeq a.nextSeq))

def drop (a : Arena) (hashes : List Hash) : Arena :=
  { a with links := a.links.filter fun l => l.hash ∉ hashes }

theorem checkGenesis_of_not_isGenesis (h : link.isGenesis = false) :
    a.checkGenesis link = .ok () := by
  unfold checkGenesis
  cases a.genesis? <;> simp [h]

theorem insert_eq (hfresh : a.find? link.hash = none) : a.insert link =
    (a.checkGenesis link).map fun _ => (link.withSeq a.nextSeq, a.file link []) := by
  unfold insert
  rw [hfresh]
  cases a.checkGenesis link with
  | error e => rfl
  | ok _ => rfl

theorem insert_of_fresh (hfresh : a.find? link.hash = none)
    (hgenesis : a.checkGenesis link = .ok ()) :
    a.insert link = .ok (link.withSeq a.nextSeq, a.file link []) := by
  rw [insert_eq hfresh, hgenesis]
  rfl

theorem links_replace :
    (a.replace u).links = a.links.map fun l => if l.hash = u.hash then u else l := by
  simp [replace]

@[simp] theorem nextSeq_replace : (a.replace u).nextSeq = a.nextSeq := by
  simp [replace]

@[simp] theorem nextSeq_foldl_replace :
    (promoted.foldl replace a).nextSeq = a.nextSeq := by
  induction promoted generalizing a with
  | nil => rfl
  | cons u us ih => simp [ih]

@[simp] theorem nextSeq_file : (a.file link promoted).nextSeq = a.nextSeq + 1 := by
  simp [file, push]

/-- Replacements keep the hash and the place of the record that they replace. -/
def Replaces (a : Arena) (u : Link) : Prop :=
  ∃ o ∈ a.links, o.isOrphan ∧ o.hash = u.hash ∧ o.block = u.block ∧ o.seq = u.seq

/-- The link has the hash, the parent and the place of an orphan, and any status. -/
def Amends (a : Arena) (u : Link) : Prop :=
  ∃ o ∈ a.links, o.isOrphan ∧ o.hash = u.hash ∧ o.parentHash = u.parentHash ∧ o.seq = u.seq

/-- The link has the hash, the parent and the place of a stored one. -/
def Renews (a : Arena) (u : Link) : Prop :=
  ∃ o ∈ a.links, o.hash = u.hash ∧ o.parentHash = u.parentHash ∧ o.seq = u.seq

theorem Amends.renews (h : a.Amends u) : a.Renews u := by
  obtain ⟨o, hmem, -, hrest⟩ := h
  exact ⟨o, hmem, hrest⟩

theorem Replaces.amends (h : a.Replaces u) : a.Amends u := by
  obtain ⟨o, hmem, ho, hh, hb, hs⟩ := h
  exact ⟨o, hmem, ho, hh, congrArg Block.prevHash hb, hs⟩

theorem mem_replace (h : a.Renews u) {l : Link} :
    l ∈ (a.replace u).links ↔ l = u ∨ l ∈ a.links ∧ l.hash ≠ u.hash := by
  obtain ⟨o, hmem, hh, -, -⟩ := h
  rw [links_replace, List.mem_map]
  constructor
  · rintro ⟨m, hm, rfl⟩
    by_cases he : m.hash = u.hash
    · simp [he]
    · simp [he, hm]
  · rintro (rfl | ⟨hl, hne⟩)
    · exact ⟨o, hmem, by simp [hh]⟩
    · exact ⟨l, hl, by simp [hne]⟩

theorem map_hash_replace : (a.replace u).links.map Link.hash = a.links.map Link.hash := by
  rw [links_replace, List.map_map]
  apply List.map_congr_left
  intro l _
  by_cases he : l.hash = u.hash <;> simp [he]

theorem map_seq_replace (ho : a.Ordered) (h : a.Renews u) :
    (a.replace u).links.map Link.seq = a.links.map Link.seq := by
  obtain ⟨o, hmem, hh, -, hs⟩ := h
  rw [links_replace, List.map_map]
  apply List.map_congr_left
  intro l hl
  by_cases he : l.hash = u.hash
  · have : l = o := ho.eq_of_hash hl hmem (by rw [he, hh])
    simp [this, hh, hs]
  · simp [he]

theorem Ordered.renew (ho : a.Ordered) (h : a.Renews u) (hhash : u.hash = u.block.hash) :
    (a.replace u).Ordered where
  hash_eq := by
    intro l hl
    rcases (mem_replace h).mp hl with rfl | ⟨hl, -⟩
    · exact hhash
    · exact ho.hash_eq l hl
  nodup := by rw [map_hash_replace]; exact ho.nodup
  sorted := by
    have hp := List.pairwise_map.mpr ho.sorted
    rw [← map_seq_replace ho h] at hp
    exact List.pairwise_map.mp hp
  seq_lt := by
    intro l hl
    rw [nextSeq_replace]
    rcases (mem_replace h).mp hl with rfl | ⟨hl, -⟩
    · obtain ⟨o, hmem, -, -, hs⟩ := h
      rw [← hs]
      exact ho.seq_lt o hmem
    · exact ho.seq_lt l hl

theorem Replaces.hash_eq (h : a.Replaces u) (ho : a.Ordered) : u.hash = u.block.hash := by
  obtain ⟨o, hmem, -, hh, hb, -⟩ := h
  rw [← hh, ← hb]
  exact ho.hash_eq o hmem

theorem Ordered.replace (ho : a.Ordered) (h : a.Replaces u) : (a.replace u).Ordered :=
  ho.renew h.amends.renews (h.hash_eq ho)

theorem Replaces.replace {v : Link} (h : a.Replaces v) (hu : a.Replaces u)
    (hne : v.hash ≠ u.hash) : (a.replace u).Replaces v := by
  obtain ⟨o, hmem, hrest⟩ := h
  exact ⟨o, (mem_replace hu.amends.renews).mpr (.inr ⟨hmem, by rwa [hrest.2.1]⟩), hrest⟩

/-- Replacements one after another, for anything that each of them keeps. -/
theorem foldl_replace_induction {P : Arena → Prop}
    (hstep : ∀ a u, a.Ordered → a.Replaces u → u ∈ promoted → P a → P (a.replace u))
    (ho : a.Ordered) (hr : ∀ u ∈ promoted, a.Replaces u)
    (hn : (promoted.map Link.hash).Nodup) (h : P a) :
    (promoted.foldl replace a).Ordered ∧ P (promoted.foldl replace a) := by
  induction promoted generalizing a with
  | nil => exact ⟨ho, h⟩
  | cons u us ih =>
    have hu := hr u (by simp)
    have hnd := List.nodup_cons.mp hn
    apply ih (fun a v hoa hv hm hp => hstep a v hoa hv (by simp [hm]) hp) (ho.replace hu)
      _ hnd.2 (hstep a u ho hu (by simp) h)
    intro v hv
    refine (hr v (by simp [hv])).replace hu ?_
    intro he
    exact hnd.1 (he ▸ List.mem_map_of_mem hv)

theorem mem_foldl_replace (ho : a.Ordered) (hr : ∀ u ∈ promoted, a.Replaces u)
    (hn : (promoted.map Link.hash).Nodup) {l : Link} :
    l ∈ (promoted.foldl replace a).links ↔
      l ∈ promoted ∨ l ∈ a.links ∧ l.hash ∉ promoted.map Link.hash := by
  induction promoted generalizing a with
  | nil => simp
  | cons u us ih =>
    have hu := hr u (by simp)
    have hnd := List.nodup_cons.mp hn
    have hrest : ∀ v ∈ us, (a.replace u).Replaces v := fun v hv =>
      (hr v (by simp [hv])).replace hu fun he => hnd.1 (he ▸ List.mem_map_of_mem hv)
    rw [List.foldl_cons, ih (ho.replace hu) hrest hnd.2, mem_replace hu.amends.renews]
    constructor
    · rintro (h | ⟨rfl | ⟨hl, hne⟩, hnot⟩)
      · exact .inl (List.mem_cons_of_mem _ h)
      · exact .inl List.mem_cons_self
      · exact .inr ⟨hl, by simpa [hne] using hnot⟩
    · rintro (h | ⟨hl, hnot⟩)
      · rcases List.mem_cons.mp h with rfl | h
        · exact .inr ⟨.inl rfl, hnd.1⟩
        · exact .inl h
      · rw [List.map_cons, List.mem_cons, not_or] at hnot
        exact .inr ⟨.inr ⟨hl, hnot.1⟩, hnot.2⟩

theorem map_hash_foldl_replace :
    (promoted.foldl replace a).links.map Link.hash = a.links.map Link.hash := by
  induction promoted generalizing a with
  | nil => rfl
  | cons u us ih => rw [List.foldl_cons, ih, map_hash_replace]

theorem orphans_replace (hu : u.isResolved) :
    (a.replace u).orphans = a.orphans.filter fun l => l.hash ≠ u.hash := by
  have ho : u.isOrphan = false := by simpa [Link.isResolved] using hu
  rw [orphans, links_replace, orphans]
  induction a.links with
  | nil => rfl
  | cons l ls ih =>
    by_cases he : l.hash = u.hash
    · cases hl : l.isOrphan <;> simp_all
    · cases hl : l.isOrphan <;> simp_all

theorem orphans_foldl_replace (hu : ∀ u ∈ promoted, u.isResolved) :
    (promoted.foldl replace a).orphans =
      a.orphans.filter fun l => l.hash ∉ promoted.map Link.hash := by
  induction promoted generalizing a with
  | nil => simp
  | cons u us ih =>
    rw [List.foldl_cons, ih fun v hv => hu v (by simp [hv]), orphans_replace (hu u (by simp)),
      List.filter_filter]
    apply List.filter_congr
    intro l _
    by_cases he : l.hash = u.hash <;> simp [he]

theorem Ordered.noticeResolved (ho : a.Ordered) : (a.noticeResolved link).Ordered where
  hash_eq := by simpa using ho.hash_eq
  nodup := by simpa using ho.nodup
  sorted := by simpa using ho.sorted
  seq_lt := by simpa using ho.seq_lt

theorem Ordered.push (ho : a.Ordered) (hfresh : a.find? link.hash = none)
    (hhash : link.hash = link.block.hash) : (a.push link).Ordered where
  hash_eq := by
    intro l hl
    rcases List.mem_append.mp hl with hl | hl
    · exact ho.hash_eq l hl
    · rw [List.mem_singleton.mp hl]
      exact hhash
  nodup := by
    simp only [Arena.push, List.map_append, List.map_cons, List.map_nil]
    refine List.Nodup.append ho.nodup (by simp) ?_
    simp only [List.disjoint_singleton, List.mem_map, not_exists, not_and]
    exact find?_eq_none.mp hfresh
  sorted := by
    refine List.pairwise_append.mpr ⟨ho.sorted, by simp, ?_⟩
    intro l hl m hm
    rw [List.mem_singleton.mp hm]
    exact ho.seq_lt l hl
  seq_lt := by
    intro l hl
    rcases List.mem_append.mp hl with hl | hl
    · exact Nat.lt_succ_of_lt (ho.seq_lt l hl)
    · rw [List.mem_singleton.mp hl]
      exact Nat.lt_succ_self _

structure Files (a : Arena) (link : Link) (promoted : List Link) : Prop where
  fresh : a.find? link.hash = none
  hash_eq : link.hash = link.block.hash
  first : link.isGenesis → a.genesis? = none
  replaces : ∀ u ∈ promoted, a.Replaces u
  lifted : ∀ u ∈ promoted, u.isResolved ∧ u.isGenesis = false
  nodup : (promoted.map Link.hash).Nodup

namespace Files

variable (h : a.Files link promoted)

include h

theorem checkGenesis : a.checkGenesis link = .ok () := by
  unfold Arena.checkGenesis
  cases hg : a.genesis? with
  | none => rfl
  | some existing =>
    have : link.isGenesis = false := by
      apply Bool.eq_false_iff.mpr
      intro hl
      rw [h.first hl] at hg
      exact absurd hg (by simp)
    simp [this]

theorem planUpdate (ho : a.Ordered) {u : Link} (hu : u ∈ promoted) :
    a.planUpdate u = .ok (some u) := by
  obtain ⟨o, hmem, horphan, hh, -, hseq⟩ := h.replaces u hu
  have hfind : a.find? u.hash = some o := hh ▸ ho.find?_mem hmem
  have hgenesis : a.checkGenesis u = .ok () := checkGenesis_of_not_isGenesis (h.lifted u hu).2
  have hsame : u.withSeq o.seq = u := by
    rw [hseq]
    rfl
  simp [Arena.planUpdate, hfind, Link.isResolved, horphan, hgenesis, hsame]

theorem insertAndPromote (ho : a.Ordered) :
    a.insertAndPromote link promoted = .ok (link.withSeq a.nextSeq, a.file link promoted) := by
  have hplan : ∀ us ⊆ promoted, us.mapM a.planUpdate = .ok (us.map some) := by
    intro us hus
    induction us with
    | nil => rfl
    | cons u us ih =>
      have hu := h.planUpdate ho (hus List.mem_cons_self)
      rw [List.mapM_cons, hu, ih fun _ hv => hus (List.mem_cons_of_mem _ hv)]
      rfl
  simp [Arena.insertAndPromote, hplan promoted (List.Subset.refl _),
    insert_of_fresh h.fresh h.checkGenesis, file, bind, Except.bind, pure, Except.pure]

theorem replaces_push {u : Link} (hu : u ∈ promoted) :
    ((a.push link).noticeResolved (link.withSeq a.nextSeq)).Replaces u := by
  obtain ⟨o, hmem, hrest⟩ := h.replaces u hu
  exact ⟨o, by simp [push, hmem], hrest⟩

theorem ordered (ho : a.Ordered) : (a.file link promoted).Ordered :=
  (foldl_replace_induction (P := fun _ => True) (fun _ _ _ _ _ _ => trivial)
    (ho.push h.fresh h.hash_eq).noticeResolved (fun _ hu => h.replaces_push hu) h.nodup trivial).1

theorem mem_file (ho : a.Ordered) {l : Link} :
    l ∈ (a.file link promoted).links ↔
      l = link.withSeq a.nextSeq ∨ l ∈ promoted ∨
        l ∈ a.links ∧ l.hash ∉ promoted.map Link.hash := by
  have hlink : link.hash ∉ promoted.map Link.hash := by
    intro hm
    obtain ⟨u, hu, he⟩ := List.mem_map.mp hm
    obtain ⟨o, hmem, -, hh, -, -⟩ := h.replaces u hu
    exact find?_eq_none.mp h.fresh o hmem (hh.trans he)
  have hpush : ((a.push link).noticeResolved (link.withSeq a.nextSeq)).Ordered :=
    (ho.push h.fresh h.hash_eq).noticeResolved
  have hm := mem_foldl_replace (l := l) hpush (fun _ hu => h.replaces_push hu) h.nodup
  rw [file, hm]
  simp only [links_noticeResolved, push, List.mem_append, List.mem_singleton]
  constructor
  · rintro (hp | ⟨hl | rfl, hnot⟩)
    · exact .inr (.inl hp)
    · exact .inr (.inr ⟨hl, hnot⟩)
    · exact .inl rfl
  · rintro (rfl | hp | ⟨hl, hnot⟩)
    · exact .inr ⟨.inr rfl, hlink⟩
    · exact .inl hp
    · exact .inr ⟨.inl hl, hnot⟩

theorem mem_file_of_isResolved (ho : a.Ordered) {l : Link} (hl : l ∈ a.links)
    (hr : l.isResolved) : l ∈ (a.file link promoted).links := by
  refine (h.mem_file ho).mpr (.inr (.inr ⟨hl, fun hm => ?_⟩))
  obtain ⟨u, hu, he⟩ := List.mem_map.mp hm
  obtain ⟨o, hmo, horphan, hh, -⟩ := h.replaces u hu
  rw [ho.eq_of_hash hl hmo (he.symm.trans hh.symm)] at hr
  simp [Link.isResolved, horphan] at hr

omit h in
theorem length_file : (a.file link promoted).links.length = a.links.length + 1 := by
  have hhash : ((promoted.foldl replace
      ((a.push link).noticeResolved (link.withSeq a.nextSeq))).links.map Link.hash).length = _ :=
    congrArg List.length map_hash_foldl_replace
  simpa [file, push] using hhash

theorem orphans_file : (a.file link promoted).orphans =
    (a.orphans ++ [link.withSeq a.nextSeq].filter Link.isOrphan).filter
      fun l => l.hash ∉ promoted.map Link.hash := by
  rw [file, orphans_foldl_replace fun u hu => (h.lifted u hu).1]
  congr 1
  simp [orphans, push]

end Files

theorem mem_drop {hashes : List Hash} {l : Link} :
    l ∈ (a.drop hashes).links ↔ l ∈ a.links ∧ l.hash ∉ hashes := by
  simp [drop]

theorem Ordered.drop (ho : a.Ordered) (hashes : List Hash) : (a.drop hashes).Ordered where
  hash_eq l hl := ho.hash_eq l (mem_drop.mp hl).1
  nodup := ho.nodup.sublist (List.filter_sublist.map Link.hash)
  sorted := ho.sorted.sublist List.filter_sublist
  seq_lt l hl := ho.seq_lt l (mem_drop.mp hl).1

@[simp] theorem drop_nil : a.drop [] = a := by
  simp [drop]

theorem drop_drop (hs ks : List Hash) : (a.drop hs).drop ks = a.drop (hs ++ ks) := by
  simp only [drop, List.filter_filter, List.mem_append, not_or]
  congr 2
  funext l
  simp [Bool.and_comm]

theorem orphans_drop (hashes : List Hash) :
    (a.drop hashes).orphans = a.orphans.filter fun l => l.hash ∉ hashes := by
  simp only [orphans, drop, List.filter_filter]
  congr 1
  funext l
  rw [Bool.and_comm]

theorem Ordered.nodup_orphans (ho : a.Ordered) : (a.orphans.map Link.hash).Nodup :=
  ho.nodup.sublist (List.filter_sublist.map Link.hash)

theorem Ordered.orphans_drop_take (ho : a.Ordered) (k : Nat) :
    (a.drop ((a.orphans.map Link.hash).take k)).orphans = a.orphans.drop k := by
  rw [orphans_drop, ← List.map_take]
  have hn := ho.nodup_orphans
  generalize a.orphans = waiting at hn
  induction waiting generalizing k with
  | nil => simp
  | cons l ls ih =>
    have hnd := List.nodup_cons.mp hn
    cases k with
    | zero => simp
    | succ k =>
      have hi := ih k hnd.2
      have hne : ∀ m ∈ ls, m.hash ≠ l.hash := fun m hm he =>
        hnd.1 (he ▸ List.mem_map_of_mem hm)
      rw [List.take_succ_cons, List.map_cons, List.drop_succ_cons, ← hi,
        List.filter_cons_of_neg (by simp)]
      apply List.filter_congr
      intro m hm
      simp [hne m hm]

end BlockTree.Arena
