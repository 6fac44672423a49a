import BlockTree.Proofs.Caching
import BlockTree.Proofs.Places
import BlockTree.Proofs.Writes

/-! A pool answers as the arena of the same links. Its index of children and its pointers
move along with every change of the links. -/

namespace BlockTree

/-- The map and the index of the pool say of every hash what the arena says. -/
structure Pool.Holds (p : Pool) (a : Arena) : Prop where
  links : ∀ h : Hash, p.links[h.bytes]? = a.find? h
  keys : ∀ k ∈ p.links, k.length = 32
  size : p.links.size = a.links.length
  children : ∀ h, p.childHashes h = (a.children h).map Link.hash
  genesis : p.genesis? = a.genesis?
  best : p.best? = a.best?
  nextSeq : p.nextSeq = a.nextSeq

namespace Pool

variable {p q : Pool} {a b : Arena} {link u l : Link} {promoted us : List Link}
  {parent : Hash → Hash} {hash : Hash}

theorem holds_empty : Holds {} {} where
  links _ := by simp [Arena.find?]
  keys _ hk := by simp at hk
  size := by simp
  children _ := by simp [childHashes, Arena.children]
  genesis := rfl
  best := rfl
  nextSeq := rfl

/-- The same value, with a pool that holds then what the arena holds. -/
def Tracks {α : Type} (v : α × Pool) (w : α × Arena) : Prop :=
  v.1 = w.1 ∧ v.2.Holds w.2

theorem childHashes_forgetChild (p : Pool) (stored : Std.ExtTreeMap Bytes Link)
    (parent hash k : Hash) :
    childHashes { p with links := stored, children := p.forgetChild parent hash } k =
      if parent = k then (p.childHashes k).filter fun h => h ≠ hash else p.childHashes k := by
  unfold childHashes forgetChild
  have hkey : parent.bytes = k.bytes ↔ parent = k := Key.link_inj
  cases hc : p.children[parent.bytes]? with
  | none =>
    by_cases he : parent = k
    · simp [← he, hc]
    · simp [he]
  | some hashes =>
    simp only
    generalize hrest : (hashes.filter fun h => decide (h ≠ hash)) = rest
    by_cases he : parent = k
    · subst he
      cases rest <;> simp only [hc, hrest, List.isEmpty_nil, List.isEmpty_cons, if_true,
        Bool.false_eq_true, if_false, Tree.getElem?_erase, Tree.getElem?_insert, Option.getD_none,
        Option.getD_some]
    · cases rest <;> simp [he, hkey, Tree.getElem?_erase, Tree.getElem?_insert]

namespace Holds

theorem find? (h : p.Holds a) (hash : Hash) : p.find? hash = a.find? hash :=
  h.links hash

theorem checkGenesis (h : p.Holds a) (u : Link) : p.checkGenesis u = a.checkGenesis u := by
  unfold Pool.checkGenesis Arena.checkGenesis
  cases hg : a.genesis? <;> simp only [h.genesis, hg]

theorem planUpdate (h : p.Holds a) (u : Link) : p.planUpdate u = a.planUpdate u := by
  unfold Pool.planUpdate Arena.planUpdate
  cases hf : a.find? u.hash with
  | none => simp only [h.find?, hf]
  | some o => cases hc : a.checkGenesis u <;> simp only [h.find?, h.checkGenesis, hf, hc]

theorem notice (h : p.Holds a) (u : Link) : (p.notice u).Holds (a.notice u) where
  links := h.links
  keys := h.keys
  size := h.size
  children := h.children
  genesis := by simp only [Pool.notice, Arena.notice, h.genesis]
  best := by
    have hfind : p.find? = a.find? := funext h.find?
    cases hb : a.best?.bind a.find? <;> simp only [Pool.notice, Arena.notice, h.best, hfind, hb]
  nextSeq := h.nextSeq

theorem noticeResolved (h : p.Holds a) (u : Link) :
    (p.noticeResolved u).Holds (a.noticeResolved u) := by
  unfold Pool.noticeResolved Arena.noticeResolved
  split
  · exact h.notice u
  · exact h

theorem push (h : p.Holds a) (hfresh : a.find? link.hash = none) :
    (p.push (link.withSeq a.nextSeq)).Holds (a.push link) where
  links k := by
    rw [Arena.find?_push hfresh, Pool.push, Tree.getElem?_insert, h.links]
    exact if_congr Key.link_inj rfl rfl
  keys k hk := by
    rcases Tree.mem_insert.mp hk with rfl | hk
    · exact link.hash.length_bytes
    · exact h.keys k hk
  size := by
    have hnone : p.links[link.hash.bytes]? = none := (h.links _).trans hfresh
    rw [Pool.push, Tree.size_insert, Link.hash_withSeq, hnone]
    simp [Arena.push, h.size]
  children k := by
    have hchildren : (a.push link).children k =
        a.children k ++ [link.withSeq a.nextSeq].filter fun l => l.parentHash == k := by
      simp [Arena.children, Arena.push]
    rw [hchildren, List.map_append, ← h.children, Pool.childHashes, Pool.push,
      Tree.getElem?_insert]
    by_cases he : link.parentHash = k
    · subst he
      simp
    · have hne : link.parentHash.bytes ≠ k.bytes := fun hk => he (Key.link_inj.mp hk)
      simp [he, hne, Pool.childHashes]
  genesis := h.genesis
  best := h.best
  nextSeq := by simp [Pool.push, Arena.push, h.nextSeq]

/-- A new record under an old hash stands on the same parent, so the index may stay. -/
theorem revise (h : p.Holds a) (ha : a.Ordered) (hu : a.Renews u) :
    Holds { p with links := p.links.insert u.hash.bytes u } (a.revise u) where
  links k := by
    rw [Arena.find?_revise hu, Tree.getElem?_insert, h.links]
    exact if_congr Key.link_inj rfl rfl
  keys k hk := by
    rcases Tree.mem_insert.mp hk with rfl | hk
    · exact u.hash.length_bytes
    · exact h.keys k hk
  size := by
    obtain ⟨o, hmem, hh, -⟩ := hu
    have hsome : p.links[u.hash.bytes]? = some o := by
      rw [h.links, ← hh, ha.find?_mem hmem]
    rw [Tree.size_insert, hsome]
    simp [Arena.revise, h.size]
  children k := by
    obtain ⟨o, hmem, hh, hparent, -⟩ := hu
    have hsame : ∀ l ∈ a.links, l.hash = u.hash → l.parentHash = u.parentHash := by
      intro l hl he
      rw [ha.eq_of_hash hl hmem (he.trans hh.symm), hparent]
    refine (h.children k).trans ?_
    rw [Arena.children, Arena.children, Arena.revise, List.filter_map, List.map_map]
    have hkeeps : (a.links.filter ((fun l => l.parentHash == k) ∘ fun l =>
        if l.hash = u.hash then u else l)) = a.links.filter fun l => l.parentHash == k := by
      refine List.filter_congr fun l hl => ?_
      by_cases he : l.hash = u.hash
      · simp [he, hsame l hl he]
      · simp [he]
    rw [hkeeps]
    refine List.map_congr_left fun l _ => ?_
    by_cases he : l.hash = u.hash
    · simp [he]
    · simp [he]
  genesis := h.genesis
  best := h.best
  nextSeq := h.nextSeq

theorem replace (h : p.Holds a) (ha : a.Ordered) (hu : a.Renews u) :
    (p.replace u).Holds (a.replace u) :=
  (h.revise ha hu).noticeResolved u

theorem foldl_replace (h : p.Holds a) (ha : a.Lined parent)
    (hus : ∀ u ∈ us, u.Placed parent ∧ (u.hash, u.seq) ∈ a.tags) :
    (us.foldl Pool.replace p).Holds (us.foldl Arena.replace a) := by
  induction us generalizing p a with
  | nil => exact h
  | cons u us ih =>
    obtain ⟨hu, htag⟩ := hus u List.mem_cons_self
    have hrenews := ha.renews hu htag
    refine ih (h.replace ha.ordered hrenews) (ha.replace hu htag) fun v hv => ?_
    rw [Arena.tags_replace ha.ordered hrenews]
    exact hus v (List.mem_cons_of_mem _ hv)

theorem drop (h : p.Holds a) (ha : a.Ordered) (hl : a.find? hash = some l) :
    Holds { p with
      links := p.links.erase hash.bytes
      children := p.forgetChild l.parentHash hash } (a.drop [hash]) where
  links k := by
    rw [Arena.find?_drop, Tree.getElem?_erase, h.links]
    exact if_congr Key.link_inj rfl rfl
  keys k hk := h.keys k (Tree.mem_erase.mp hk).2
  size := by
    have hsome : p.links[hash.bytes]? = some l := (h.links hash).trans hl
    rw [Tree.size_erase, hsome, ha.length_drop hl, h.size]
    rfl
  children k := by
    obtain ⟨hmem, hh⟩ := Arena.mem_of_find? hl
    have hdrop : ((a.drop [hash]).children k).map Link.hash =
        ((a.children k).map Link.hash).filter fun h => h ≠ hash := by
      simp only [Arena.children, Arena.drop, List.filter_map, List.filter_filter]
      congr 2
      funext m
      simp [Bool.and_comm]
    rw [childHashes_forgetChild, hdrop, h.children]
    split
    · rfl
    · next hne =>
      -- only the children of its own parent can lose the link
      refine (List.filter_eq_self.mpr fun c hc => ?_).symm
      obtain ⟨m, hm, rfl⟩ := List.mem_map.mp hc
      obtain ⟨hm, hparent⟩ := List.mem_filter.mp hm
      refine decide_eq_true fun he => hne ?_
      rw [← ha.eq_of_hash hm hmem (he.trans hh.symm)]
      simpa using hparent
  genesis := h.genesis
  best := h.best
  nextSeq := h.nextSeq

theorem insert (h : p.Holds a) (link : Link) :
    Alongside Tracks (p.insert link) (a.insert link) := by
  unfold Pool.insert
  rw [h.find?, h.checkGenesis, h.nextSeq]
  cases hf : a.find? link.hash with
  | some known =>
    simp only [Arena.insert, hf]
    exact rfl
  | none =>
    rw [Arena.insert_eq hf]
    cases a.checkGenesis link with
    | error e => exact rfl
    | ok _ => exact ⟨rfl, (h.push hf).noticeResolved _⟩

theorem update (h : p.Holds a) (ha : a.Lined parent) (hu : u.Placed parent) :
    Alongside Tracks (p.update u) (a.update u) := by
  unfold Pool.update Arena.update
  rw [h.planUpdate]
  refine Alongside.refl.bind fun v? w? hp hvw => ?_
  subst hvw
  cases v? with
  | none => exact ⟨rfl, h⟩
  | some v =>
    have hrenews := ha.renews (Arena.Lined.placed_planned hu hp) (Arena.Lined.tag_planned hp)
    exact ⟨rfl, h.replace ha.ordered hrenews⟩

theorem insertAndPromote (h : p.Holds a) (ha : a.Lined parent) (hl : link.Placed parent)
    (hus : ∀ u ∈ promoted, u.Placed parent) :
    Alongside Tracks (p.insertAndPromote link promoted) (a.insertAndPromote link promoted) := by
  have hplan : p.planUpdate = a.planUpdate := funext h.planUpdate
  unfold Pool.insertAndPromote Arena.insertAndPromote
  rw [hplan]
  refine Alongside.refl.bind fun planned planned' hm hplanned => ?_
  subst hplanned
  refine (h.insert link).bind fun q r hr hqr => ?_
  obtain ⟨hfresh, -, rfl⟩ := Arena.insert_eq_ok hr
  refine ⟨hqr.1, hqr.2.foldl_replace (ha.file hl hfresh) fun v hv => ?_⟩
  exact Arena.Lined.planned_file hus hm v hv

theorem removeOrphan (h : p.Holds a) (ha : a.Ordered) (hash : Hash) :
    Alongside Tracks (p.removeOrphan hash) (a.removeOrphan hash) := by
  unfold Pool.removeOrphan Arena.removeOrphan
  rw [h.find?]
  cases hl : a.find? hash with
  | none => exact rfl
  | some l =>
    by_cases hr : l.isResolved
    · simp only [hr, if_true]
      exact rfl
    · have hdrop : a.drop [hash] =
          { a with links := a.links.filter fun l => l.hash ≠ hash } := by
        simp [Arena.drop]
      simp only [hr]
      exact ⟨rfl, hdrop ▸ h.drop ha hl⟩

theorem childrenOf (h : p.Holds a) (ha : a.Ordered) (parent : Hash) :
    p.childrenOf parent = a.children parent := by
  have hfind : p.find? = a.find? := funext h.find?
  rw [Pool.childrenOf, h.children, hfind]
  exact ha.filterMap_find? fun l hl => List.mem_of_mem_filter hl

theorem mem_of_links (h : p.Holds a) {k : Bytes} (hk : p.links[k]? = some l) :
    l ∈ a.links ∧ k = l.hash.bytes := by
  have hmem : k ∈ p.links := by
    rw [Std.ExtTreeMap.mem_iff_isSome_getElem?, hk]
    rfl
  have hfind := (h.links ⟨k, h.keys k hmem⟩).symm.trans hk
  obtain ⟨hl, hh⟩ := Arena.mem_of_find? hfind
  exact ⟨hl, by rw [hh]⟩

theorem values_perm (h : p.Holds a) (ha : a.Ordered) : p.links.values.Perm a.links := by
  have hentry {e : Bytes × Link} (he : e ∈ p.links.toList) : p.links[e.1]? = some e.2 :=
    Std.ExtTreeMap.mem_toList_iff_getElem?_eq_some.mp he
  rw [Tree.values_eq]
  refine (List.perm_ext_iff_of_nodup ?_ (ha.nodup.of_map _)).mpr fun l => ?_
  · refine List.pairwise_map.mpr (Std.ExtTreeMap.ordered_keys_toList.imp_of_mem ?_)
    intro e e' he he' hlt hsame
    have hkey : e.1 = e'.1 := by
      rw [(h.mem_of_links (hentry he)).2, (h.mem_of_links (hentry he')).2, hsame]
    have hrefl : compare e'.1 e'.1 = .eq := Std.ReflCmp.compare_self
    rw [hkey, hrefl] at hlt
    cases hlt
  · rw [List.mem_map]
    constructor
    · intro hl
      obtain ⟨e, he, rfl⟩ := hl
      exact (h.mem_of_links (hentry he)).1
    · intro hl
      have hfound : p.links[l.hash.bytes]? = some l := (h.links _).trans (ha.find?_mem hl)
      exact ⟨(l.hash.bytes, l), Std.ExtTreeMap.mem_toList_iff_getElem?_eq_some.mpr hfound, rfl⟩

theorem orphans (h : p.Holds a) (ha : a.Ordered) : p.orphans = a.orphans :=
  Arena.mergeSort_of_perm ((h.values_perm ha).filter _) (ha.sorted.filter _)

/-- The same answer, from a pool that holds then what the arena holds. -/
theorem attempt {α : Type} (h : p.Holds a) (change : Pool → Except Error (α × Pool))
    (change' : Arena → Except Error (α × Arena))
    (halong : Alongside Tracks (change p) (change' a)) :
    said (Pool.attempt change p) = said (Arena.attempt change' a) ∧
      (left (Pool.attempt change p)).Holds (left (Arena.attempt change' a)) := by
  unfold Pool.attempt Arena.attempt
  cases hc : change' a with
  | error e =>
    rw [hc] at halong
    rw [halong.of_error]
    exact ⟨rfl, h⟩
  | ok w =>
    rw [hc] at halong
    obtain ⟨v, hv, hsame, hhold⟩ := halong.of_ok
    rw [hv]
    exact ⟨congrArg Except.ok hsame, hhold⟩

/-- A pool answers every call as an arena does, batches made at once included. -/
theorem answer {α : Type} (h : p.Holds a) (ha : a.Lined parent) {call : Call α}
    (hcall : ∀ l ∈ call.links, l.Placed parent) :
    said (Pool.answer call p) = said (Arena.answer call a) ∧
      (left (Pool.answer call p)).Holds (left (Arena.answer call a)) := by
  have hfind : p.find? = a.find? := funext h.find?
  cases call with
  | addLink link =>
    rw [Pool.answer, addLink_eq]
    exact h.attempt (·.insert link) (·.insert link) (h.insert link)
  | getLink hash => exact ⟨congrArg Except.ok (h.find? hash), h⟩
  | genesisLink =>
    have hsame : p.genesis?.bind p.find? = a.genesis?.bind a.find? := by rw [h.genesis, hfind]
    exact ⟨congrArg Except.ok hsame, h⟩
  | lastLink =>
    have hsame : p.best?.bind p.find? = a.best?.bind a.find? := by rw [h.best, hfind]
    exact ⟨congrArg Except.ok hsame, h⟩
  | nextLinks hash => exact ⟨congrArg Except.ok (h.childrenOf ha.ordered hash), h⟩
  | updateLink link =>
    rw [Pool.answer, updateLink_eq]
    exact h.attempt (·.update link) (·.update link) (h.update ha (hcall link List.mem_cons_self))
  | addAndPromote link promoted =>
    rw [Pool.answer, addAndPromote_eq]
    exact h.attempt (·.insertAndPromote link promoted) (·.insertAndPromote link promoted)
      (h.insertAndPromote ha (hcall link List.mem_cons_self)
        fun u hu => hcall u (List.mem_cons_of_mem _ hu))
  | removeOrphan hash =>
    rw [Pool.answer, takeOrphan_eq]
    exact h.attempt (·.removeOrphan hash) (·.removeOrphan hash) (h.removeOrphan ha.ordered hash)
  | orphanLinks => exact ⟨congrArg Except.ok (h.orphans ha.ordered), h⟩
  | linkCount => exact ⟨congrArg Except.ok h.size, h⟩

end Holds

end Pool

/-- What a sound arena is promised agrees with it on the parents of links. -/
theorem Arena.Sound.exists_placed {a : Arena} (ha : a.Sound) {fits : Nat → Block → Prop}
    {α : Type} {call : Call α} (hp : a.Promised fits call) :
    ∃ parent, a.Lined parent ∧ ∀ l ∈ call.links, l.Placed parent := by
  have hfiles {link : Link} {promoted : List Link} (hf : a.Files link promoted) :
      ∃ parent, a.Lined parent ∧ ∀ l ∈ link :: promoted, l.Placed parent := by
    obtain ⟨parent, hk, hl⟩ := hf.exists_kept ha
    exact ⟨parent, hk.lined, fun l hmem => ⟨(hl l hmem).2, (hl l hmem).1⟩⟩
  cases call with
  | addLink link => exact hfiles hp.2.1
  | addAndPromote link promoted => exact hfiles hp.1
  | updateLink link => exact hp.elim
  | _ => exact ⟨_, ha.kept.lined, by simp [Call.links]⟩

instance : Medium Pool where
  empty := {}
  drifts p q := q = p
  room _ _ := True

instance : Faithful Pool where
  holds := Pool.Holds
  troubled _ := False
  fits _ _ := True
  holds_empty := Pool.holds_empty
  holds_drift := by
    intro p q a h hd
    exact hd ▸ h
  fits_of_room _ _ := trivial
  reach h := Nat.le_of_eq h.size.symm
  answers := by
    intro p a b α call v h ha hp he
    obtain ⟨parent, hlined, hcall⟩ := ha.exists_placed hp
    obtain ⟨hsaid, hholds⟩ := h.answer hlined hcall
    rw [he] at hsaid hholds
    exact .inl ⟨_, eq_ok_of_said hsaid, hholds, id⟩

end BlockTree
