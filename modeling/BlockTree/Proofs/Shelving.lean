import BlockTree.Proofs.Codec
import BlockTree.Proofs.Faithful
import BlockTree.Proofs.Keys

/-! Trees that hold what an arena holds. Every change of the trees is followed by the
same change of the arena, first of the links and then of the pointers. -/

namespace BlockTree

/-- Both fail with the same error, or end with what `R` relates. -/
def Alongside {α β : Type} (R : α → β → Prop) : Except Error α → Except Error β → Prop
  | .ok v, .ok w => R v w
  | .error e, .error f => e = f
  | _, _ => False

namespace Alongside

variable {α β γ δ : Type} {R : α → β → Prop} {S : γ → δ → Prop} {r : Except Error α}
  {q : Except Error β}

theorem of_error {e : Error} (h : Alongside R r (.error e)) : r = .error e := by
  cases r with
  | ok v => exact h.elim
  | error f => exact congrArg _ h

theorem of_ok {w : β} (h : Alongside R r (.ok w)) : ∃ v, r = .ok v ∧ R v w := by
  cases r with
  | ok v => exact ⟨v, rfl, h⟩
  | error f => exact h.elim

theorem bind {f : α → Except Error γ} {g : β → Except Error δ} (h : Alongside R r q)
    (hnext : ∀ v w, q = .ok w → R v w → Alongside S (f v) (g w)) :
    Alongside S (r >>= f) (q >>= g) := by
  cases q with
  | error e =>
    rw [h.of_error]
    exact rfl
  | ok w =>
    obtain ⟨v, rfl, hvw⟩ := h.of_ok
    exact hnext v w rfl hvw

theorem refl : Alongside Eq r r := by
  cases r <;> exact rfl

theorem map₂ {f : α → γ} {g : β → δ} (h : Alongside R r q) (hmap : ∀ v w, R v w → S (f v) (g w)) :
    Alongside S (r.map f) (q.map g) := by
  cases q with
  | error e =>
    rw [h.of_error]
    exact rfl
  | ok w =>
    obtain ⟨v, rfl, hvw⟩ := h.of_ok
    exact hmap v w hvw

end Alongside

theorem exists_of_bind {α β : Type} {r : Except Error α} {next : α → Except Error β} {v : β}
    (h : r >>= next = .ok v) : ∃ w, r = .ok w ∧ next w = .ok v := by
  cases r with
  | error e => cases h
  | ok w => exact ⟨w, rfl, h⟩

theorem Work.length_digits_le {work : Work} {m n : Nat} (h : work < 2 ^ m * 2 ^ n) :
    (digits work).length ≤ m + n + 1 := by
  refine Nat.le_trans (length_digitsUpTo_le _ _) ?_
  by_cases hz : work = 0
  · subst hz
    simp
  · rw [← Nat.pow_add, ← Nat.log2_lt hz] at h
    omega

namespace Arena

variable {a : Arena} {link u : Link} {hash : Hash}

def revise (a : Arena) (updated : Link) : Arena :=
  { a with links := a.links.map fun link => if link.hash = updated.hash then updated else link }

theorem find?_push (hfresh : a.find? link.hash = none) (h : Hash) :
    (a.push link).find? h = if link.hash = h then some (link.withSeq a.nextSeq) else a.find? h := by
  simp only [find?, push, List.find?_append]
  by_cases he : link.hash = h
  · subst he
    rw [find?] at hfresh
    simp [hfresh]
  · simp [he]

theorem find?_revise (hu : a.Renews u) (h : Hash) :
    (a.revise u).find? h = if u.hash = h then some u else a.find? h := by
  have hmap : (a.revise u).find? h =
      (a.find? h).map fun l => if l.hash = u.hash then u else l := by
    rw [find?, revise, List.find?_map]
    congr 2
    funext l
    by_cases he : l.hash = u.hash
    · simp [he]
    · simp [he]
  rw [hmap]
  cases hf : a.find? h with
  | none =>
    obtain ⟨o, hmem, hh, -⟩ := hu
    have hne : u.hash ≠ h := hh ▸ find?_eq_none.mp hf o hmem
    simp [hne]
  | some l =>
    obtain ⟨-, hl⟩ := mem_of_find? hf
    subst hl
    by_cases he : l.hash = u.hash
    · simp [he]
    · simp [he, Ne.symm he]

theorem find?_drop (h : Hash) :
    (a.drop [hash]).find? h = if hash = h then none else a.find? h := by
  by_cases he : hash = h
  · rw [if_pos he, find?_eq_none]
    intro l hl
    simpa [he] using (mem_drop.mp hl).2
  · rw [if_neg he, find?, drop, List.find?_filter]
    congr 1
    funext l
    by_cases hl : l.hash = h
    · simp [hl, Ne.symm he]
    · simp [hl]

theorem Ordered.length_drop (ho : a.Ordered) {l : Link} (hl : a.find? hash = some l) :
    (a.drop [hash]).links.length = a.links.length - 1 := by
  obtain ⟨hmem, hh⟩ := mem_of_find? hl
  have hnodup : a.links.Nodup := ho.nodup.of_map _
  have herase : (a.drop [hash]).links = a.links.erase l := by
    rw [hnodup.erase_eq_filter, Arena.drop]
    refine List.filter_congr fun m hm => ?_
    by_cases he : m = l
    · simp [he, hh]
    · have : m.hash ≠ hash := fun hm' => he (ho.eq_of_hash hm hmem (hm'.trans hh.symm))
      simp [he, this]
  rw [herase, List.length_erase_of_mem hmem]

theorem Ordered.length_le (ho : a.Ordered) : a.links.length ≤ a.nextSeq := by
  have hnodup : (a.links.map Link.seq).Nodup :=
    List.pairwise_map.mpr (ho.sorted.imp fun h => Nat.ne_of_lt h)
  have hsub : a.links.map Link.seq ⊆ List.range a.nextSeq := by
    intro n hn
    obtain ⟨l, hl, he⟩ := List.mem_map.mp hn
    exact List.mem_range.mpr (he ▸ ho.seq_lt l hl)
  simpa using (List.subperm_of_subset hnodup hsub).length_le

end Arena

theorem Link.Writable.of_bounded {a : Arena} {l : Link} (ho : a.Ordered)
    (hsmall : a.nextSeq < 2 ^ 64) (hblock : l.block.Writable)
    (hseq : l.seq < 2 ^ 64) (hb : a.Bounded l) : l.Writable := by
  refine ⟨hblock, hseq, ?_⟩
  intro h w hs
  obtain ⟨hh, hw⟩ := hb h w hs
  have hlen := ho.length_le
  have hdigits : (Work.digits w).length ≤ 64 + 256 + 1 :=
    Work.length_digits_le
      (Nat.lt_of_le_of_lt hw (Nat.mul_lt_mul_of_pos_right (by omega) (Nat.two_pow_pos 256)))
  exact ⟨by omega, by omega⟩

structure Trees.Hold (t : Trees) (a : Arena) : Prop where
  links : ∀ h : Hash, t.links[Key.link h]? = (a.find? h).map Record.ofLink
  size : t.links.size = a.links.length
  children : ∀ k, k ∈ t.children ↔ ∃ l ∈ a.links, k = Key.child l.parentHash l.hash
  orphans : ∀ k v, t.orphans[k]? = some v ↔
    ∃ l ∈ a.orphans, k = Key.seq l.seq ∧ v = Key.link l.hash
  genesis : t.pointers[Key.genesis]? = a.genesis?.map Key.link
  best : t.pointers[Key.best]? = a.best?.map Key.link
  counter : t.nextSeq = .ok a.nextSeq
  small : a.nextSeq < 2 ^ 64
  writable : ∀ l ∈ a.links, l.Writable

namespace Trees

variable {t : Trees} {a : Arena} {link u : Link}

/-- The same answer, with trees that hold what the arena holds. -/
def Tracks {α : Type} (p : α × Trees) (q : α × Arena) : Prop :=
  p.1 = q.1 ∧ p.2.Hold q.2

theorem hold_empty : Hold {} {} where
  links _ := by simp [Arena.find?]
  size := by simp
  children _ := by simp
  orphans _ _ := by simp [Arena.orphans]
  genesis := by simp
  best := by simp
  counter := by simp [nextSeq]
  small := by simp
  writable := by simp

theorem decodeLink_ofLink {l : Link} (h : l.Writable) : decodeLink (Record.ofLink l) = .ok l := by
  rw [decodeLink, (Record.restores_link h).decode]

/-- The trees after the stored form of a new link came in, with the pointers still as
they were. -/
def pushed (t : Trees) (stored : Link) : Trees where
  links := t.links.insert (Key.link stored.hash) (Record.ofLink stored)
  children := t.children.insert (Key.child stored.parentHash stored.hash) []
  orphans :=
    if stored.isOrphan then t.orphans.insert (Key.seq stored.seq) (Key.link stored.hash)
    else t.orphans
  pointers := t.pointers.insert Key.counter (Key.seq (stored.seq + 1))

theorem insert_eq {n : Nat} (hnone : t.links[Key.link link.hash]? = none)
    (hcounter : t.nextSeq = .ok n) : t.insert link =
      if link.isOrphan then .ok (link.withSeq n, t.pushed (link.withSeq n))
      else ((t.pushed (link.withSeq n)).notice (link.withSeq n)).map fun t' =>
        (link.withSeq n, t') := by
  by_cases ho : link.isOrphan
  · simp [insert, hnone, hcounter, ho, pushed, bind, Except.bind, pure, Except.pure]
  · simp only [insert, hnone, hcounter, ho, pushed, bind, Except.bind, pure, Except.pure,
      Option.isSome_none, Bool.false_eq_true, if_false, Link.isOrphan_withSeq, Link.hash_withSeq,
      Link.seq_withSeq]
    rfl

/-- The trees after a record has replaced that of an orphan, with the pointers still as
they were. -/
def revised (t : Trees) (updated : Link) : Trees :=
  { t with
    links := t.links.insert (Key.link updated.hash) (Record.ofLink updated)
    orphans :=
      if updated.isResolved then t.orphans.erase (Key.seq updated.seq) else t.orphans }

theorem promote_eq {o : Link} (hfind : t.find? (Key.link link.hash) = .ok (some o))
    (ho : o.isOrphan) : t.promote link =
      if link.isResolved then ((t.revised (link.withSeq o.seq)).notice (link.withSeq o.seq)).map
        fun t' => (some (link.withSeq o.seq), t')
      else .ok (some (link.withSeq o.seq), t.revised (link.withSeq o.seq)) := by
  have hnot : o.isResolved = false := by simp [Link.isResolved, ho]
  by_cases hr : link.isResolved
  · simp only [promote, hfind, hnot, hr, revised, bind, Except.bind, pure, Except.pure,
      Bool.false_eq_true, if_false, if_true, Link.isResolved_withSeq]
    rfl
  · simp [promote, hfind, hnot, hr, revised, bind, Except.bind, pure, Except.pure]

namespace Hold

theorem find? (h : t.Hold a) (hash : Hash) : t.find? (Key.link hash) = .ok (a.find? hash) := by
  rw [Trees.find?, h.links]
  cases hf : a.find? hash with
  | none => rfl
  | some l =>
    have hw := h.writable l (Arena.mem_of_find? hf).1
    simp only [Option.map_some, decodeLink_ofLink hw]
    rfl

theorem best? (h : t.Hold a) : t.best? = .ok (a.best?.bind a.find?) := by
  rw [Trees.best?, h.best]
  cases a.best? with
  | none => rfl
  | some hash => exact h.find? hash

theorem pointGenesis (h : t.Hold a) (hash : Hash) :
    Hold { t with pointers := t.pointers.insert Key.genesis (Key.link hash) }
      { a with genesis? := some hash } where
  links := h.links
  size := h.size
  children := h.children
  orphans := h.orphans
  genesis := by simp
  best := by
    rw [Tree.getElem?_insert, if_neg Key.genesis_ne_best, h.best]
  counter := by
    rw [← h.counter]
    simp only [nextSeq, Tree.getElem?_insert, if_neg Key.genesis_ne_counter]
  small := h.small
  writable := h.writable

theorem pointBest (h : t.Hold a) (hash : Hash) :
    Hold { t with pointers := t.pointers.insert Key.best (Key.link hash) }
      { a with best? := some hash } where
  links := h.links
  size := h.size
  children := h.children
  orphans := h.orphans
  genesis := by
    rw [Tree.getElem?_insert, if_neg Key.genesis_ne_best.symm, h.genesis]
  best := by simp
  counter := by
    rw [← h.counter]
    simp only [nextSeq, Tree.getElem?_insert, if_neg Key.best_ne_counter]
  small := h.small
  writable := h.writable

theorem noticeGenesis (h : t.Hold a) (u : Link) :
    Alongside Hold (t.noticeGenesis u) ((a.checkGenesis u).map fun _ =>
      { a with genesis? := if u.isGenesis then some u.hash else a.genesis? }) := by
  have hpoint := h.pointGenesis u.hash
  unfold Trees.noticeGenesis Arena.checkGenesis
  rw [h.genesis]
  by_cases hg : u.isGenesis
  · cases hfirst : a.genesis? with
    | none => simpa [hg, hfirst, Alongside, Except.map] using hpoint
    | some existing =>
      have hback : Hash.ofBytes (Key.link existing) = existing := Hash.ofBytes_bytes existing
      by_cases he : existing = u.hash
      · subst he
        simpa [hg, hback, Alongside, Except.map] using hpoint
      · simp [hg, hback, he, Alongside, Except.map]
  · cases hfirst : a.genesis? with
    | none => simpa [hg, ← hfirst, Alongside, Except.map] using h
    | some existing => simpa [hg, ← hfirst, Alongside, Except.map] using h

theorem notice (h : t.Hold a) (hu : u.isResolved) :
    Alongside Hold (t.notice u) ((a.checkGenesis u).map fun _ => a.noticeResolved u) := by
  have hpointed := h.noticeGenesis u
  have hnotice : a.noticeResolved u = a.notice u := by simp [Arena.noticeResolved, hu]
  rw [hnotice]
  unfold Trees.notice Arena.notice
  cases hc : a.checkGenesis u with
  | error e =>
    rw [hc] at hpointed
    rw [hpointed.of_error]
    exact rfl
  | ok _ =>
    rw [hc] at hpointed
    obtain ⟨s, hs, hhold⟩ := hpointed.of_ok
    have hbest : s.best? = .ok (a.best?.bind a.find?) := hhold.best?
    simp only [hs, hbest, bind, Except.bind, Except.map]
    cases hb : a.best?.bind a.find? with
    | none =>
      simp only [hu, if_true]
      exact hhold.pointBest u.hash
    | some current =>
      by_cases hbetter : u.betterTip current
      · simp only [hbetter, if_true]
        exact hhold.pointBest u.hash
      · simp only [hbetter]
        exact hhold

theorem orphans_pushed (h : t.Hold a) (ha : a.Ordered) (k v : Bytes) :
    (t.pushed (link.withSeq a.nextSeq)).orphans[k]? = some v ↔
      ∃ l ∈ (a.push link).orphans, k = Key.seq l.seq ∧ v = Key.link l.hash := by
  have happend : (a.push link).orphans =
      a.orphans ++ [link.withSeq a.nextSeq].filter Link.isOrphan := by
    simp [Arena.orphans, Arena.push]
  rw [happend]
  by_cases ho : link.isOrphan
  · have hsingle : [link.withSeq a.nextSeq].filter Link.isOrphan = [link.withSeq a.nextSeq] := by
      simp [ho]
    simp only [pushed, Link.isOrphan_withSeq, Link.seq_withSeq, Link.hash_withSeq, ho, if_true,
      hsingle, Tree.getElem?_insert, List.mem_append, List.mem_singleton]
    by_cases hk : Key.seq a.nextSeq = k
    · subst hk
      constructor
      · intro hv
        rw [if_pos rfl] at hv
        exact ⟨_, .inr rfl, rfl, (Option.some.inj hv).symm⟩
      · intro hl
        obtain ⟨l, hl | hl, hseq, hv⟩ := hl
        · have hlt := ha.seq_lt l (List.mem_of_mem_filter hl)
          have hsmall := h.small
          exact absurd hseq (Key.seq_ne hsmall (by omega) (by omega))
        · subst hl hv
          exact if_pos rfl
    · rw [if_neg hk, h.orphans]
      constructor
      · intro hl
        obtain ⟨l, hl, hlk⟩ := hl
        exact ⟨l, .inl hl, hlk⟩
      · intro hl
        obtain ⟨l, hl | hl, hseq, hv⟩ := hl
        · exact ⟨l, hl, hseq, hv⟩
        · subst hl
          exact absurd hseq.symm hk
  · have hnone : [link.withSeq a.nextSeq].filter Link.isOrphan = [] := by simp [ho]
    simpa [pushed, ho, hnone] using h.orphans k v

theorem push (h : t.Hold a) (ha : a.Ordered) (hfresh : a.find? link.hash = none)
    (hw : (link.withSeq a.nextSeq).Writable) (hlt : a.nextSeq + 1 < 2 ^ 64) :
    (t.pushed (link.withSeq a.nextSeq)).Hold (a.push link) where
  links hash := by
    have hstored : (link.withSeq a.nextSeq).hash = link.hash := rfl
    rw [Arena.find?_push hfresh, pushed, Tree.getElem?_insert, hstored]
    by_cases he : link.hash = hash
    · rw [if_pos (Key.link_inj.mpr he), if_pos he]
      rfl
    · rw [if_neg (fun hk => he (Key.link_inj.mp hk)), if_neg he, h.links]
  size := by
    have hnone : t.links[Key.link (link.withSeq a.nextSeq).hash]? = none := by
      rw [h.links, Link.hash_withSeq, hfresh]
      rfl
    rw [pushed, Tree.size_insert, hnone]
    simp [Arena.push, h.size]
  children k := by
    rw [pushed, Tree.mem_insert, h.children]
    constructor
    · intro hk
      obtain hk | ⟨l, hl, hk⟩ := hk
      · exact ⟨link.withSeq a.nextSeq, by simp [Arena.push], hk.symm⟩
      · exact ⟨l, by simp [Arena.push, hl], hk⟩
    · intro hk
      obtain ⟨l, hl, hk⟩ := hk
      rcases List.mem_append.mp hl with hl | hl
      · exact .inr ⟨l, hl, hk⟩
      · rw [List.mem_singleton.mp hl] at hk
        exact .inl hk.symm
  orphans := h.orphans_pushed ha
  genesis := by
    rw [pushed, Tree.getElem?_insert, if_neg Key.genesis_ne_counter.symm]
    exact h.genesis
  best := by
    rw [pushed, Tree.getElem?_insert, if_neg Key.best_ne_counter.symm]
    exact h.best
  counter := by
    have hvalue : ofBigEndian (Key.seq (a.nextSeq + 1)) = a.nextSeq + 1 := by
      rw [Key.seq, ofBigEndian_bigEndian]
      exact Nat.mod_eq_of_lt hlt
    have hlen : (Key.seq (a.nextSeq + 1)).length = 8 := length_bigEndian _ _
    have hseq : (link.withSeq a.nextSeq).seq = a.nextSeq := rfl
    rw [nextSeq, pushed, Tree.getElem?_insert, if_pos rfl, hseq]
    simp only [hlen, if_true, hvalue]
    rfl
  small := hlt
  writable l hl := by
    rcases List.mem_append.mp hl with hl | hl
    · exact h.writable l hl
    · rwa [List.mem_singleton.mp hl]

theorem insert (h : t.Hold a) (ha : a.Ordered) (hw : (link.withSeq a.nextSeq).Writable)
    (hlt : a.nextSeq + 1 < 2 ^ 64) : Alongside Tracks (t.insert link) (a.insert link) := by
  cases hfind : a.find? link.hash with
  | some known =>
    have hsome : (t.links[Key.link link.hash]?).isSome := by simp [h.links, hfind]
    simp only [Trees.insert, Arena.insert, hfind, hsome]
    exact rfl
  | none =>
    have hpush := h.push ha hfind hw hlt
    have hnone : t.links[Key.link link.hash]? = none := by simp [h.links, hfind]
    rw [insert_eq hnone h.counter, Arena.insert_eq hfind]
    by_cases ho : link.isOrphan
    · have hcheck : a.checkGenesis link = .ok () :=
        Arena.checkGenesis_of_not_isGenesis (Link.isGenesis_of_isOrphan ho)
      rw [if_pos ho, hcheck]
      refine ⟨rfl, ?_⟩
      simpa [Arena.file, Arena.noticeResolved, Link.isResolved, ho] using hpush
    · rw [if_neg ho]
      have hnotice := hpush.notice (u := link.withSeq a.nextSeq)
        (by simpa [Link.isResolved] using ho)
      have hcheck : (a.push link).checkGenesis (link.withSeq a.nextSeq) = a.checkGenesis link := rfl
      have hfile : (a.checkGenesis link).map (fun _ => (link.withSeq a.nextSeq, a.file link [])) =
          ((a.checkGenesis link).map fun _ =>
            (a.push link).noticeResolved (link.withSeq a.nextSeq)).map
              fun b => (link.withSeq a.nextSeq, b) := by
        cases a.checkGenesis link <;> rfl
      rw [hcheck] at hnotice
      rw [hfile]
      exact hnotice.map₂ (S := Tracks) fun _ _ hhold => ⟨rfl, hhold⟩

/-- The erased key is that of one link, for no two links have the same number. -/
theorem orphans_erased (h : t.Hold a) (ha : a.Ordered) {o : Link} (ho : o ∈ a.links)
    (k v : Bytes) : (t.orphans.erase (Key.seq o.seq))[k]? = some v ↔
      ∃ l ∈ a.orphans, l.hash ≠ o.hash ∧ k = Key.seq l.seq ∧ v = Key.link l.hash := by
  have hlt : ∀ l ∈ a.links, l.seq < 2 ^ 64 := fun l hl =>
    Nat.lt_trans (ha.seq_lt l hl) h.small
  rw [Tree.getElem?_erase]
  constructor
  · intro hv
    by_cases hk : Key.seq o.seq = k
    · simp [hk] at hv
    · rw [if_neg hk, h.orphans] at hv
      obtain ⟨l, hl, hlk, hlv⟩ := hv
      refine ⟨l, hl, ?_, hlk, hlv⟩
      intro he
      have hlo : l = o := ha.eq_of_hash (List.mem_of_mem_filter hl) ho he
      exact hk (by rw [hlk, hlo])
  · intro hl
    obtain ⟨l, hl, hne, hlk, hlv⟩ := hl
    have hmem := List.mem_of_mem_filter hl
    have hapart : o.seq ≠ l.seq := by
      intro he
      have hol : o = l := ha.eq_of_seq ho hmem he
      exact hne (congrArg Link.hash hol.symm)
    have hk : Key.seq o.seq ≠ k := hlk ▸ Key.seq_ne (hlt o ho) (hlt l hmem) hapart
    rw [if_neg hk, h.orphans]
    exact ⟨l, hl, hlk, hlv⟩

theorem orphans_revised (h : t.Hold a) (ha : a.Ordered) (hu : a.Amends u) (k v : Bytes) :
    (t.revised u).orphans[k]? = some v ↔
      ∃ l ∈ (a.revise u).orphans, k = Key.seq l.seq ∧ v = Key.link l.hash := by
  by_cases hr : u.isResolved
  · have hsame : (a.revise u).orphans = (a.replace u).orphans := by
      rw [Arena.orphans, Arena.orphans, Arena.links_replace]
      rfl
    obtain ⟨o, hmem, ho, hhash, -, hseq⟩ := hu
    rw [hsame, Arena.orphans_replace hr, revised, if_pos hr, ← hseq, h.orphans_erased ha hmem,
      hhash]
    simp only [List.mem_filter, decide_eq_true_eq, and_assoc]
  · -- an orphan in place of an orphan
    obtain ⟨o, hmem, ho, hhash, -, hseq⟩ := hu
    have huo : u.isOrphan := by simpa [Link.isResolved] using hr
    rw [revised, if_neg hr, h.orphans]
    constructor
    · intro hl
      obtain ⟨l, hl, hk, hv⟩ := hl
      obtain ⟨hlinks, hlo⟩ := List.mem_filter.mp hl
      refine ⟨if l.hash = u.hash then u else l, ?_, ?_⟩
      · refine List.mem_filter.mpr ⟨List.mem_map.mpr ⟨l, hlinks, rfl⟩, ?_⟩
        by_cases he : l.hash = u.hash
        · rwa [if_pos he]
        · rwa [if_neg he]
      · by_cases he : l.hash = u.hash
        · have hlo : l = o := ha.eq_of_hash hlinks hmem (he.trans hhash.symm)
          rw [if_pos he, hk, hv, he, hlo, hseq]
          exact ⟨rfl, rfl⟩
        · rw [if_neg he]
          exact ⟨hk, hv⟩
    · intro hl
      obtain ⟨l, hl, hk, hv⟩ := hl
      obtain ⟨hlinks, hlo⟩ := List.mem_filter.mp hl
      obtain ⟨m, hm, hml⟩ := List.mem_map.mp hlinks
      by_cases he : m.hash = u.hash
      · rw [if_pos he] at hml
        subst hml
        exact ⟨o, List.mem_filter.mpr ⟨hmem, ho⟩, by rw [hk, hseq], by rw [hv, hhash]⟩
      · rw [if_neg he] at hml
        subst hml
        exact ⟨m, List.mem_filter.mpr ⟨hm, hlo⟩, hk, hv⟩

theorem revise (h : t.Hold a) (ha : a.Ordered) (hu : a.Amends u) (hw : u.Writable) :
    (t.revised u).Hold (a.revise u) where
  links hash := by
    rw [Arena.find?_revise hu.renews, revised, Tree.getElem?_insert]
    by_cases he : u.hash = hash
    · rw [if_pos (Key.link_inj.mpr he), if_pos he]
      rfl
    · rw [if_neg (fun hk => he (Key.link_inj.mp hk)), if_neg he, h.links]
  size := by
    obtain ⟨o, hmem, -, hh, -⟩ := hu
    have hsome : t.links[Key.link u.hash]? = some (Record.ofLink o) := by
      rw [h.links, ← hh, ha.find?_mem hmem]
      rfl
    rw [revised, Tree.size_insert, hsome]
    simp [Arena.revise, h.size]
  children k := by
    obtain ⟨o, hmem, -, hh, hparent, -⟩ := hu
    refine (h.children k).trans ⟨?_, ?_⟩
    · intro hk
      obtain ⟨l, hl, hk⟩ := hk
      refine ⟨if l.hash = u.hash then u else l, List.mem_map.mpr ⟨l, hl, rfl⟩, ?_⟩
      by_cases he : l.hash = u.hash
      · have : l = o := ha.eq_of_hash hl hmem (he.trans hh.symm)
        rw [if_pos he, hk, this, hparent, hh]
      · rw [if_neg he, hk]
    · intro hk
      obtain ⟨l, hl, hk⟩ := hk
      obtain ⟨m, hm, hml⟩ := List.mem_map.mp hl
      by_cases he : m.hash = u.hash
      · rw [if_pos he] at hml
        exact ⟨o, hmem, by rw [hk, ← hml, hparent, hh]⟩
      · rw [if_neg he] at hml
        exact ⟨m, hm, by rw [hk, hml]⟩
  orphans := h.orphans_revised ha hu
  genesis := h.genesis
  best := h.best
  counter := h.counter
  small := h.small
  writable l hl := by
    obtain ⟨m, hm, hml⟩ := List.mem_map.mp hl
    by_cases he : m.hash = u.hash
    · rw [if_pos he] at hml
      exact hml ▸ hw
    · rw [if_neg he] at hml
      exact hml ▸ h.writable m hm

theorem promote (h : t.Hold a) (ha : a.Ordered)
    (hparent : ∀ o ∈ a.links, o.hash = u.hash → o.parentHash = u.parentHash)
    (hw : ∀ n < 2 ^ 64, (u.withSeq n).Writable) :
    Alongside (fun p v? => p.1 = v? ∧ p.2.Hold (v?.elim a a.replace)) (t.promote u)
      (a.planUpdate u) := by
  have hfind := h.find? u.hash
  unfold Arena.planUpdate
  cases hf : a.find? u.hash with
  | none =>
    rw [hf] at hfind
    simp only [Trees.promote, hfind]
    exact rfl
  | some o =>
    rw [hf] at hfind
    obtain ⟨hmem, hh⟩ := Arena.mem_of_find? hf
    by_cases ho : o.isOrphan
    · have hnot : o.isResolved = false := by simp [Link.isResolved, ho]
      have hamends : a.Amends (u.withSeq o.seq) := ⟨o, hmem, ho, hh, hparent o hmem hh, rfl⟩
      have hrevise := h.revise ha hamends (hw o.seq (Nat.lt_trans (ha.seq_lt o hmem) h.small))
      simp only [hnot, promote_eq hfind ho]
      by_cases hr : u.isResolved
      · have hnotice := hrevise.notice (u := u.withSeq o.seq) hr
        have hcheck : (a.revise (u.withSeq o.seq)).checkGenesis (u.withSeq o.seq) =
            a.checkGenesis u := rfl
        rw [hcheck] at hnotice
        cases hc : a.checkGenesis u with
        | error e =>
          rw [hc] at hnotice
          rw [if_pos hr, hnotice.of_error]
          exact rfl
        | ok _ =>
          rw [hc] at hnotice
          obtain ⟨t', ht', hhold⟩ := hnotice.of_ok
          rw [if_pos hr, ht']
          exact ⟨rfl, hhold⟩
      · have hcheck : a.checkGenesis u = .ok () :=
          Arena.checkGenesis_of_not_isGenesis
            (Link.isGenesis_of_isOrphan (by simpa [Link.isResolved] using hr))
        rw [if_neg hr, hcheck]
        refine ⟨rfl, ?_⟩
        have hsame : a.replace (u.withSeq o.seq) = a.revise (u.withSeq o.seq) := by
          simp [Arena.replace, Arena.revise, Arena.noticeResolved, hr]
        simpa only [Option.elim_some, hsame] using hrevise
    · have hr : o.isResolved := by simpa [Link.isResolved] using ho
      simp only [Trees.promote, hfind, hr, bind, Except.bind, if_true]
      exact ⟨rfl, h⟩

theorem remove (h : t.Hold a) (ha : a.Ordered) {hash : Hash} {l : Link}
    (hl : a.find? hash = some l) :
    Hold { t with
      links := t.links.erase (Key.link hash)
      children := t.children.erase (Key.child l.parentHash hash)
      orphans := t.orphans.erase (Key.seq l.seq) } (a.drop [hash]) where
  links k := by
    rw [Arena.find?_drop, Tree.getElem?_erase]
    by_cases he : hash = k
    · rw [if_pos (Key.link_inj.mpr he), if_pos he]
      rfl
    · rw [if_neg (fun hk => he (Key.link_inj.mp hk)), if_neg he, h.links]
  size := by
    have hsome : t.links[Key.link hash]? = some (Record.ofLink l) := by
      rw [h.links, hl]
      rfl
    rw [Tree.size_erase, hsome, ha.length_drop hl, h.size]
    rfl
  children k := by
    obtain ⟨hmem, hh⟩ := Arena.mem_of_find? hl
    rw [Tree.mem_erase, h.children]
    constructor
    · intro hk
      obtain ⟨hne, m, hm, hk⟩ := hk
      refine ⟨m, Arena.mem_drop.mpr ⟨hm, ?_⟩, hk⟩
      intro hmh
      have : m = l := ha.eq_of_hash hm hmem ((List.mem_singleton.mp hmh).trans hh.symm)
      exact hne (by rw [hk, this, hh])
    · intro hk
      obtain ⟨m, hm, hk⟩ := hk
      obtain ⟨hm, hmh⟩ := Arena.mem_drop.mp hm
      refine ⟨fun he => hmh ?_, m, hm, hk⟩
      exact List.mem_singleton.mpr (Key.child_inj.mp (he.trans hk)).2.symm
  orphans k v := by
    obtain ⟨hmem, hh⟩ := Arena.mem_of_find? hl
    rw [Arena.orphans_drop, h.orphans_erased ha hmem, hh]
    simp only [List.mem_filter, List.mem_singleton, decide_eq_true_eq, and_assoc, ne_eq]
  genesis := h.genesis
  best := h.best
  counter := h.counter
  small := h.small
  writable m hm := h.writable m (Arena.mem_drop.mp hm).1

theorem removeOrphan (h : t.Hold a) (ha : a.Ordered) (hash : Hash) :
    Alongside Tracks (t.removeOrphan hash) (a.removeOrphan hash) := by
  unfold Trees.removeOrphan Arena.removeOrphan
  cases hl : a.find? hash with
  | none =>
    simp only [h.find?, hl]
    exact rfl
  | some l =>
    by_cases hr : l.isResolved
    · simp only [h.find?, hl, bind, Except.bind, hr, if_true]
      exact rfl
    · simp only [h.find?, hl, bind, Except.bind, hr]
      have hdrop : a.drop [hash] =
          { a with links := a.links.filter fun l => l.hash ≠ hash } := by
        simp [Arena.drop]
      exact ⟨rfl, hdrop ▸ h.remove ha hl⟩

theorem orphanHashes (h : t.Hold a) (ha : a.Ordered) :
    t.orphanHashes = a.orphans.map Link.hash := by
  have hentries : t.orphans.toList = a.orphans.map fun l => (Key.seq l.seq, Key.link l.hash) := by
    refine Tree.toList_eq ?_ ?_
    · rw [List.pairwise_map]
      refine (ha.sorted.filter _).imp_of_mem ?_
      intro l m _ hm hlm
      have hlt := ha.seq_lt m (List.mem_of_mem_filter hm)
      exact compare_bigEndian hlm (Nat.lt_trans hlt h.small)
    · intro k v
      rw [h.orphans, List.mem_map]
      constructor
      · intro hl
        obtain ⟨l, hl, hk, hv⟩ := hl
        exact ⟨l, hl, by rw [hk, hv]⟩
      · intro hl
        obtain ⟨l, hl, he⟩ := hl
        obtain ⟨hk, hv⟩ := Prod.mk.inj he
        exact ⟨l, hl, hk.symm, hv.symm⟩
  rw [Trees.orphanHashes, Tree.values_eq, hentries]
  simp [Key.link, Function.comp_def]

theorem mem_childHashes (h : t.Hold a) {parent hash : Hash} :
    hash ∈ t.childHashes parent ↔ ∃ l ∈ a.children parent, l.hash = hash := by
  rw [Trees.childHashes, List.mem_map]
  constructor
  · intro hk
    obtain ⟨k, hk, hchild⟩ := hk
    obtain ⟨hmem, hprefix⟩ := List.mem_filter.mp hk
    obtain ⟨l, hl, hk⟩ := (h.children k).mp (Std.ExtTreeMap.mem_keys.mp hmem)
    rw [hk] at hprefix hchild
    refine ⟨l, List.mem_filter.mpr ⟨hl, ?_⟩, ?_⟩
    · simpa using (Key.isPrefixOf_child.mp hprefix).symm
    · rw [← hchild, Key.childOf_child]
  · intro hl
    obtain ⟨l, hl, hh⟩ := hl
    obtain ⟨hl, hparent⟩ := List.mem_filter.mp hl
    have hparent : parent = l.parentHash := (by simpa using hparent : l.parentHash = parent).symm
    refine ⟨Key.child l.parentHash l.hash, List.mem_filter.mpr ⟨?_, ?_⟩, ?_⟩
    · exact Std.ExtTreeMap.mem_keys.mpr ((h.children _).mpr ⟨l, hl, rfl⟩)
    · exact Key.isPrefixOf_child.mpr hparent
    · rw [Key.childOf_child, hh]

theorem nodup_childHashes (h : t.Hold a) (parent : Hash) : (t.childHashes parent).Nodup := by
  rw [Trees.childHashes]
  refine List.Nodup.map_on ?_ (Std.ExtTreeMap.nodup_keys.filter _)
  intro k hk k' hk' he
  obtain ⟨hmem, hprefix⟩ := List.mem_filter.mp hk
  obtain ⟨hmem', hprefix'⟩ := List.mem_filter.mp hk'
  obtain ⟨l, -, hl⟩ := (h.children k).mp (Std.ExtTreeMap.mem_keys.mp hmem)
  obtain ⟨m, -, hm⟩ := (h.children k').mp (Std.ExtTreeMap.mem_keys.mp hmem')
  rw [hl] at hprefix he ⊢
  rw [hm] at hprefix' he ⊢
  rw [Key.childOf_child, Key.childOf_child] at he
  rw [← Key.isPrefixOf_child.mp hprefix, ← Key.isPrefixOf_child.mp hprefix', he]

end Hold

end Trees

end BlockTree
