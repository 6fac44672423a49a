import BlockTree.Proofs.Serving

/-! Resolved records on trees, and their copies in a cache. No change of the trees touches a
resolved record, and only resolved records are copied, so that a copy is never out of date. -/

namespace BlockTree

namespace Trees

variable {t t' t₁ t₂ : Trees} {link u v w l : Link} {us vs promoted : List Link} {k : Bytes}
  {hash : Hash} {n : Nat}

/-- Every record can be read back. -/
def Encoded (t : Trees) : Prop :=
  ∀ k bs : Bytes, t.links[k]? = some bs → ∃ l : Link, l.Writable ∧ bs = Record.ofLink l

/-- The trees that a change left: what was resolved is as it was. -/
structure Keeps (t t' : Trees) : Prop where
  encoded : t'.Encoded
  lasts : ∀ k l, t.find? k = .ok (some l) → l.isResolved → t'.find? k = .ok (some l)

theorem Encoded.refl (h : t.Encoded) : t.Keeps t :=
  ⟨h, fun _ _ hl _ => hl⟩

theorem Keeps.trans (h : t.Keeps t₁) (h' : t₁.Keeps t₂) : t.Keeps t₂ :=
  ⟨h'.encoded, fun k l hl hr => h'.lasts k l (h.lasts k l hl hr) hr⟩

theorem Encoded.writable (h : t.Encoded) (hl : t.find? k = .ok (some l)) : l.Writable := by
  rw [find?] at hl
  cases hbs : t.links[k]? with
  | none => simp [hbs] at hl
  | some bs =>
    obtain ⟨m, hm, rfl⟩ := h k bs hbs
    simp only [hbs, decodeLink_ofLink hm, Except.map, Except.ok.injEq, Option.some.injEq] at hl
    exact hl ▸ hm

/-- A record that takes the place of none, or of an orphan's. -/
theorem Encoded.put (h : t.Encoded) (hw : w.Writable)
    (hfree : ∀ l, t.find? (Key.link w.hash) = .ok (some l) → l.isOrphan)
    (hlinks : t'.links = t.links.insert (Key.link w.hash) (Record.ofLink w)) :
    t.Keeps t' ∧ t'.find? (Key.link w.hash) = .ok (some w) := by
  have hput : t'.find? (Key.link w.hash) = .ok (some w) := by
    rw [find?, hlinks, Tree.getElem?_insert, if_pos rfl]
    simp [decodeLink_ofLink hw, Except.map]
  refine ⟨⟨fun k bs hbs => ?_, fun k l hl hr => ?_⟩, hput⟩
  · rw [hlinks, Tree.getElem?_insert] at hbs
    split at hbs
    · exact ⟨w, hw, (Option.some.inj hbs).symm⟩
    · exact h k bs hbs
  · by_cases hk : Key.link w.hash = k
    · subst hk
      simp [Link.isResolved, hfree l hl] at hr
    · rw [find?, hlinks, Tree.getElem?_insert, if_neg hk]
      exact hl

theorem Encoded.erase (h : t.Encoded) (horphan : ∀ l, t.find? k = .ok (some l) → l.isOrphan)
    (hlinks : t'.links = t.links.erase k) : t.Keeps t' := by
  refine ⟨fun j bs hbs => ?_, fun j l hl hr => ?_⟩
  · rw [hlinks, Tree.getElem?_erase] at hbs
    split at hbs
    · cases hbs
    · exact h j bs hbs
  · by_cases hk : k = j
    · subst hk
      simp [Link.isResolved, horphan l hl] at hr
    · rw [find?, hlinks, Tree.getElem?_erase, if_neg hk]
      exact hl

theorem links_noticeGenesis (h : t.noticeGenesis u = .ok t') : t'.links = t.links := by
  unfold noticeGenesis at h
  split at h
  · split at h
    · rw [← Except.ok.inj h]
    · split at h
      · rw [← Except.ok.inj h]
      · cases h
  · rw [← Except.ok.inj h]

theorem links_notice (h : t.notice u = .ok t') : t'.links = t.links := by
  unfold notice at h
  obtain ⟨t₁, hg, h⟩ := exists_of_bind h
  obtain ⟨best?, -, h⟩ := exists_of_bind h
  rw [← links_noticeGenesis hg]
  have hmoved : ∀ b : Bool, ∀ pointers, (if b then
      .ok { t₁ with pointers := pointers } else .ok t₁) = (.ok t' : Except Error Trees) →
      t'.links = t₁.links := by
    intro b pointers hb
    cases b <;> rw [← Except.ok.inj hb]
  exact hmoved _ _ h

theorem nextSeq_lt (h : t.nextSeq = .ok n) : n < 2 ^ 64 := by
  unfold nextSeq at h
  cases hbs : t.pointers[Key.counter]? with
  | none =>
    simp only [hbs, Except.ok.injEq] at h
    omega
  | some bs =>
    simp only [hbs] at h
    split at h
    · next hlen =>
      have hlt := ofBigEndian_lt bs
      rw [hlen] at hlt
      rw [← Except.ok.inj h]
      omega
    · cases h

theorem Encoded.insert (h : t.Encoded) (hl : ∀ n < 2 ^ 64, (link.withSeq n).Writable)
    (hi : t.insert link = .ok (v, t')) :
    t.Keeps t' ∧ t'.find? (Key.link v.hash) = .ok (some v) := by
  have hnone : t.links[Key.link link.hash]? = none := by
    cases hbs : t.links[Key.link link.hash]? with
    | none => rfl
    | some bs =>
      simp [Trees.insert, hbs, bind, Except.bind, throw, throwThe, MonadExceptOf.throw] at hi
  cases hn : t.nextSeq with
  | error e => simp [Trees.insert, hnone, hn, bind, Except.bind] at hi
  | ok n =>
    rw [insert_eq hnone hn] at hi
    have hlinks : v = link.withSeq n ∧ t'.links = (t.pushed (link.withSeq n)).links := by
      split at hi
      · obtain ⟨rfl, rfl⟩ := Prod.mk.inj (Except.ok.inj hi)
        exact ⟨rfl, rfl⟩
      · cases hnotice : (t.pushed (link.withSeq n)).notice (link.withSeq n) with
        | error e => simp [hnotice, Except.map] at hi
        | ok t₁ =>
          rw [hnotice] at hi
          obtain ⟨rfl, rfl⟩ := Prod.mk.inj (Except.ok.inj hi)
          exact ⟨rfl, links_notice hnotice⟩
    obtain ⟨rfl, hlinks⟩ := hlinks
    refine h.put (hl n (nextSeq_lt hn)) (fun l hl => ?_) hlinks
    rw [find?, Link.hash_withSeq, hnone] at hl
    cases hl

theorem Encoded.promote {v? : Option Link} (h : t.Encoded)
    (hu : ∀ n < 2 ^ 64, (u.withSeq n).Writable) (hp : t.promote u = .ok (v?, t')) :
    t.Keeps t' ∧ ∀ v ∈ v?.toList, t'.find? (Key.link v.hash) = .ok (some v) := by
  cases hf : t.find? (Key.link u.hash) with
  | error e => simp [Trees.promote, hf, bind, Except.bind] at hp
  | ok o? =>
    cases o? with
    | none =>
      simp [Trees.promote, hf, bind, Except.bind, throw, throwThe, MonadExceptOf.throw] at hp
    | some o =>
      by_cases hr : o.isResolved
      · simp only [Trees.promote, hf, hr, bind, Except.bind, pure, Except.pure, if_true] at hp
        obtain ⟨rfl, rfl⟩ := Prod.mk.inj (Except.ok.inj hp)
        exact ⟨h.refl, by simp⟩
      · have ho : o.isOrphan := by simpa [Link.isResolved] using hr
        rw [promote_eq hf ho] at hp
        have hlinks : v? = some (u.withSeq o.seq) ∧
            t'.links = (t.revised (u.withSeq o.seq)).links := by
          split at hp
          · cases hnotice : (t.revised (u.withSeq o.seq)).notice (u.withSeq o.seq) with
            | error e => simp [hnotice, Except.map] at hp
            | ok t₁ =>
              rw [hnotice] at hp
              obtain ⟨rfl, rfl⟩ := Prod.mk.inj (Except.ok.inj hp)
              exact ⟨rfl, links_notice hnotice⟩
          · obtain ⟨rfl, rfl⟩ := Prod.mk.inj (Except.ok.inj hp)
            exact ⟨rfl, rfl⟩
        obtain ⟨rfl, hlinks⟩ := hlinks
        have hfree : ∀ l, t.find? (Key.link (u.withSeq o.seq).hash) = .ok (some l) →
            l.isOrphan := by
          intro l hl
          obtain rfl := Option.some.inj (Except.ok.inj (hf.symm.trans hl))
          exact ho
        obtain ⟨hkeeps, hput⟩ := h.put (hu o.seq (h.writable hf).seq) hfree hlinks
        exact ⟨hkeeps, by simpa using hput⟩

theorem Encoded.promoteAll (h : t.Encoded) (hus : ∀ u ∈ us, ∀ n < 2 ^ 64, (u.withSeq n).Writable)
    (hp : promoteAll us t = .ok (vs, t')) : t.Keeps t' ∧
      ∀ v ∈ vs, v.isResolved → t'.find? (Key.link v.hash) = .ok (some v) := by
  induction us generalizing t vs with
  | nil =>
    obtain ⟨rfl, rfl⟩ := Prod.mk.inj (Except.ok.inj hp)
    exact ⟨h.refl, by simp⟩
  | cons u us ih =>
    rw [Trees.promoteAll] at hp
    obtain ⟨⟨v?, t₁⟩, hfirst, hp⟩ := exists_of_bind hp
    obtain ⟨⟨ws, t₂⟩, hrest, hp⟩ := exists_of_bind hp
    obtain ⟨rfl, rfl⟩ := Prod.mk.inj (Except.ok.inj hp)
    obtain ⟨hkeeps, hnew⟩ := h.promote (hus u List.mem_cons_self) hfirst
    obtain ⟨hkeeps', hnew'⟩ :=
      ih hkeeps.encoded (fun w hw => hus w (List.mem_cons_of_mem _ hw)) hrest
    refine ⟨hkeeps.trans hkeeps', fun v hv hr => ?_⟩
    rcases List.mem_append.mp hv with hv | hv
    · exact hkeeps'.lasts _ _ (hnew v hv) hr
    · exact hnew' v hv hr

theorem Encoded.insertAndPromote (h : t.Encoded)
    (hlinks : ∀ l ∈ link :: promoted, ∀ n < 2 ^ 64, (l.withSeq n).Writable)
    (hp : t.insertAndPromote link promoted = .ok ((v, vs), t')) : t.Keeps t' ∧
      ∀ w ∈ vs ++ [v], w.isResolved → t'.find? (Key.link w.hash) = .ok (some w) := by
  unfold Trees.insertAndPromote at hp
  obtain ⟨⟨v', t₁⟩, hi, hp⟩ := exists_of_bind hp
  obtain ⟨⟨vs', t₂⟩, hr, hp⟩ := exists_of_bind hp
  obtain ⟨he, rfl⟩ := Prod.mk.inj (Except.ok.inj hp)
  obtain ⟨rfl, rfl⟩ := Prod.mk.inj he
  obtain ⟨hkeeps, hnew⟩ := h.insert (hlinks link List.mem_cons_self) hi
  obtain ⟨hkeeps', hnew'⟩ :=
    hkeeps.encoded.promoteAll (fun u hu => hlinks u (List.mem_cons_of_mem _ hu)) hr
  refine ⟨hkeeps.trans hkeeps', fun w hw hr => ?_⟩
  rcases List.mem_append.mp hw with hw | hw
  · exact hnew' w hw hr
  · rw [List.mem_singleton] at hw
    subst hw
    exact hkeeps'.lasts _ _ hnew hr

theorem Encoded.removeOrphan (h : t.Encoded) (hp : t.removeOrphan hash = .ok (v, t')) :
    t.Keeps t' ∧ t'.links = t.links.erase (Key.link hash) := by
  unfold Trees.removeOrphan at hp
  obtain ⟨o?, hf, hp⟩ := exists_of_bind hp
  cases o? with
  | none => simp [throw, throwThe, MonadExceptOf.throw] at hp
  | some o =>
    by_cases hr : o.isResolved
    · simp [hr, throw, throwThe, MonadExceptOf.throw, bind, Except.bind] at hp
    · simp only [hr, bind, Except.bind, pure, Except.pure] at hp
      obtain ⟨rfl, rfl⟩ := Prod.mk.inj (Except.ok.inj hp)
      refine ⟨h.erase (k := Key.link hash) (fun l hl => ?_) rfl, rfl⟩
      obtain rfl := Option.some.inj (Except.ok.inj (hf.symm.trans hl))
      simpa [Link.isResolved] using hr

end Trees

namespace Shelf

variable {s t : Shelf} {link l : Link} {k : Bytes} {hash : Hash} {α β : Type}

/-- Every record can be read back, and what is kept at hand is resolved and on the trees. -/
structure Coherent (s : Shelf) : Prop where
  encoded : s.trees.Encoded
  cache : ∀ (k : Bytes) (l : Link), s.cache[k]? = some l →
    s.trees.find? k = .ok (some l) ∧ l.isResolved

/-- What a call left: the copies agree with the trees, and what was resolved is as it was. -/
structure Preserves (s t : Shelf) : Prop where
  coherent : t.Coherent
  keeps : s.trees.Keeps t.trees

/-- The trees are the given ones, and the copies agree with them. -/
structure Intact (trees : Trees) (s : Shelf) : Prop where
  coherent : s.Coherent
  trees_eq : s.trees = trees

theorem trees_remember : (s.remember l).trees = s.trees := by
  unfold remember
  split <;> rfl

theorem trees_foldl_remember (links : List Link) : (links.foldl remember s).trees = s.trees := by
  induction links generalizing s with
  | nil => rfl
  | cons l links ih => exact ih.trans trees_remember

theorem coherent_empty : Coherent {} :=
  ⟨fun k bs hbs => by simp at hbs, fun k l hl => by simp at hl⟩

namespace Coherent

variable (h : s.Coherent)

include h

theorem refl : s.Preserves s :=
  ⟨h, h.encoded.refl⟩

theorem keep (hf : s.trees.find? k = .ok (some l)) (hr : l.isResolved) :
    Coherent { s with cache := s.cache.insert k l } := by
  refine ⟨h.encoded, fun j m hm => ?_⟩
  rw [Tree.getElem?_insert] at hm
  split at hm
  · next hk =>
    rw [← Option.some.inj hm, ← hk]
    exact ⟨hf, hr⟩
  · exact h.cache j m hm

theorem foldl_remember (links : List Link) (hf : ∀ l ∈ links, l.isResolved →
    s.trees.find? (Key.link l.hash) = .ok (some l)) : (links.foldl remember s).Coherent := by
  induction links generalizing s with
  | nil => exact h
  | cons l ls ih =>
    have hl : (s.remember l).Coherent := by
      rw [remember]
      split
      · next hr => exact h.keep (hf l List.mem_cons_self hr) hr
      · exact h
    refine ih hl fun m hm => ?_
    rw [trees_remember]
    exact hf m (List.mem_cons_of_mem _ hm)

theorem change {t : Trees} (ht : s.trees.Keeps t) : Coherent { s with trees := t } := by
  refine ⟨ht.encoded, fun k l hl => ?_⟩
  obtain ⟨hf, hr⟩ := h.cache k l hl
  exact ⟨ht.lasts k l hf hr, hr⟩

/-- A change of the trees, and then the copies of what it brought. -/
theorem attempt {act : β → StoreM Shelf α} {change : Trees → Except Error (β × Trees)}
    (hok : ∀ v t, change s.trees = .ok (v, t) → s.trees.Keeps t ∧
      ∀ u : Shelf, u.Coherent → u.trees = t →
        (left (act v u)).Coherent ∧ (left (act v u)).trees = t) :
    s.Preserves (left ((Shelf.attempt change >>= act) s)) := by
  simp only [bind, EStateM.bind, Shelf.attempt]
  cases hc : change s.trees with
  | error e => exact h.refl
  | ok p =>
    obtain ⟨hkeeps, hact⟩ := hok p.1 p.2 hc
    obtain ⟨hcoherent, htrees⟩ := hact { s with trees := p.2 } (h.change hkeeps) rfl
    exact ⟨hcoherent, htrees ▸ hkeeps⟩

end Coherent

namespace Intact

variable {trees : Trees} (h : s.Intact trees)

include h

theorem load (hash : Hash) : (left (Shelf.load hash s)).Intact trees := by
  unfold Shelf.load
  cases s.cache[hash.bytes]? with
  | some l => exact h
  | none =>
    cases hf : s.trees.find? (Key.link hash) with
    | error e => exact h
    | ok l? =>
      cases l? with
      | none => exact h
      | some l =>
        simp only [left]
        split
        · next hr => exact ⟨h.coherent.keep hf hr, h.trees_eq⟩
        · exact h

theorem loadPointer (key : Bytes) : (left (Shelf.loadPointer key s)).Intact trees := by
  refine keeps_bind h fun u t ht => ?_
  cases u.trees.pointers[key]? with
  | none => exact ht
  | some bs => exact ht.load _

theorem loadChildren (hashes : List Hash) :
    (left (Shelf.loadChildren hashes s)).Intact trees := by
  induction hashes generalizing s with
  | nil => exact h
  | cons hash hashes ih =>
    refine keeps_bind (h.load hash) fun l? t ht => ?_
    cases l? with
    | none => exact ht
    | some l =>
      change (left ((Shelf.loadChildren hashes >>= fun rest => pure (l :: rest)) t)).Intact trees
      exact keeps_bind (ih ht) fun _ _ hu => hu

theorem loadPresent (hashes : List Hash) :
    (left (Shelf.loadPresent hashes s)).Intact trees := by
  induction hashes generalizing s with
  | nil => exact h
  | cons hash hashes ih =>
    refine keeps_bind (h.load hash) fun l? t ht => ?_
    exact keeps_bind (ih ht) fun _ _ hu => hu

theorem reads {call : Call α} (hread : call.onlyReads) :
    (left (Shelf.answer call s)).Intact trees := by
  cases call with
  | getLink hash => exact h.load hash
  | genesisLink => exact h.loadPointer _
  | lastLink => exact h.loadPointer _
  | nextLinks hash =>
    refine keeps_bind h fun u t ht => ?_
    exact keeps_bind (ht.loadChildren _) fun _ _ hu => hu
  | orphanLinks => exact keeps_bind h fun _ _ ht => ht.loadPresent _
  | linkCount => exact h
  | _ => cases hread

end Intact

/-- Whatever is asked of a shelf, its copies agree with its trees afterwards. -/
theorem Coherent.answer (h : s.Coherent) {call : Call α} (hw : ∀ l ∈ call.links, l.Writable) :
    s.Preserves (left (Shelf.answer call s)) := by
  have hwritable : ∀ l ∈ call.links, ∀ n < 2 ^ 64, (l.withSeq n).Writable :=
    fun l hl n hn => (hw l hl).withSeq hn
  have hread (hc : call.onlyReads) : s.Preserves (left (Shelf.answer call s)) := by
    have hsame : s.Intact s.trees := ⟨h, rfl⟩
    have hafter := hsame.reads hc
    exact ⟨hafter.coherent, hafter.trees_eq ▸ h.encoded.refl⟩
  cases call with
  | addLink link =>
    refine h.attempt fun v t hi => ?_
    obtain ⟨hkeeps, hnew⟩ := h.encoded.insert (hwritable link List.mem_cons_self) hi
    refine ⟨hkeeps, fun u hu htrees => ?_⟩
    have hcopied := hu.foldl_remember [v] fun l hl _ => by
      rw [htrees, List.mem_singleton.mp hl, hnew]
    exact ⟨hcopied, (trees_foldl_remember [v]).trans htrees⟩
  | updateLink link =>
    refine h.attempt fun v? t hp => ?_
    obtain ⟨hkeeps, hnew⟩ := h.encoded.promote (hwritable link List.mem_cons_self) hp
    refine ⟨hkeeps, fun u hu htrees => ?_⟩
    have hcopied := hu.foldl_remember v?.toList fun l hl _ => by
      rw [htrees, hnew l hl]
    exact ⟨hcopied, (trees_foldl_remember _).trans htrees⟩
  | addAndPromote link promoted =>
    refine h.attempt fun v t hp => ?_
    obtain ⟨hkeeps, hnew⟩ := h.encoded.insertAndPromote hwritable hp
    refine ⟨hkeeps, fun u hu htrees => ?_⟩
    have hcopied := hu.foldl_remember (v.2 ++ [v.1]) fun l hl hr => by
      rw [htrees, hnew l hl hr]
    exact ⟨hcopied, (trees_foldl_remember _).trans htrees⟩
  | removeOrphan hash =>
    refine h.attempt fun v t hp => ?_
    obtain ⟨hkeeps, -⟩ := h.encoded.removeOrphan hp
    refine ⟨hkeeps, fun u hu htrees => ⟨⟨hu.encoded, fun k l hl => ?_⟩, htrees⟩⟩
    refine hu.cache k l ?_
    change (u.cache.erase hash.bytes)[k]? = some l at hl
    rw [Tree.getElem?_erase] at hl
    split at hl
    · cases hl
    · exact hl
  | _ => exact hread rfl

end Shelf

end BlockTree
