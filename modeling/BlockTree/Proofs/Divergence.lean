import BlockTree.Proofs.Serving

/-! Whatever makes a difference to an arena can be read from it. So a shelf and a store in
memory are told apart as soon as the records of one batch get in each other's way. -/

namespace BlockTree

namespace Arena

variable {a b c : Arena} {link u l : Link} {promoted us : List Link}
  {planned : List (Option Link)}

/-- The pointers point to stored links. -/
structure Anchored (a : Arena) : Prop where
  genesis : ∀ h, a.genesis? = some h → h ∈ a.links.map Link.hash
  best : ∀ h, a.best? = some h → h ∈ a.links.map Link.hash

theorem Pointed.anchored (hp : a.Pointed) : a.Anchored where
  genesis h he := by
    obtain ⟨l, hl, hh, -⟩ := hp.genesis_mem h he
    exact List.mem_map.mpr ⟨l, hl, hh⟩
  best h he := by
    obtain ⟨l, hl, hh⟩ := hp.best_some h he
    exact List.mem_map.mpr ⟨l, hl.mem, hh⟩

namespace Anchored

theorem noticeResolved (ha : a.Anchored) (hu : u.hash ∈ a.links.map Link.hash) :
    (a.noticeResolved u).Anchored := by
  by_cases hr : u.isResolved
  · rw [Arena.noticeResolved, if_pos hr]
    have hgenesis : (a.notice u).genesis? = some u.hash ∨ (a.notice u).genesis? = a.genesis? :=
      ite_eq_or_eq _ _ _
    have hbest : (a.notice u).best? = some u.hash ∨ (a.notice u).best? = a.best? :=
      ite_eq_or_eq _ _ _
    refine ⟨fun h he => ?_, fun h he => ?_⟩
    · rcases hgenesis with hg | hg
      · exact Option.some.inj (hg.symm.trans he) ▸ hu
      · exact ha.genesis h (hg.symm.trans he)
    · rcases hbest with hb | hb
      · exact Option.some.inj (hb.symm.trans he) ▸ hu
      · exact ha.best h (hb.symm.trans he)
  · rwa [Arena.noticeResolved, if_neg hr]

theorem replace (ha : a.Anchored) (hu : u.hash ∈ a.links.map Link.hash) :
    (a.replace u).Anchored := by
  have hhash : (a.revise u).links.map Link.hash = a.links.map Link.hash := by
    rw [← map_hash_replace (u := u) (a := a), links_replace]
    rfl
  have hrevised : (a.revise u).Anchored :=
    ⟨fun h he => hhash ▸ ha.genesis h he, fun h he => hhash ▸ ha.best h he⟩
  exact hrevised.noticeResolved (hhash ▸ hu)

theorem foldl_replace (ha : a.Anchored) (hus : ∀ u ∈ us, u.hash ∈ a.links.map Link.hash) :
    (us.foldl Arena.replace a).Anchored := by
  induction us generalizing a with
  | nil => exact ha
  | cons u us ih =>
    refine ih (ha.replace (hus u List.mem_cons_self)) fun v hv => ?_
    rw [map_hash_replace]
    exact hus v (List.mem_cons_of_mem _ hv)

theorem file (ha : a.Anchored) : (a.file link []).Anchored := by
  have hmem {h : Hash} (hh : h ∈ a.links.map Link.hash) :
      h ∈ (a.push link).links.map Link.hash := by
    rw [push, List.map_append]
    exact List.mem_append_left _ hh
  have hpush : (a.push link).Anchored :=
    ⟨fun h he => hmem (ha.genesis h he), fun h he => hmem (ha.best h he)⟩
  exact hpush.noticeResolved (by simp [push])

end Anchored

theorem hash_mem_of_planned (h : us.mapM a.planUpdate = .ok planned) :
    ∀ v ∈ planned.filterMap id, v.hash ∈ a.links.map Link.hash := by
  intro v hv
  obtain ⟨u, -, hp⟩ := exists_of_mapM h v hv
  obtain ⟨-, o, hmem, -, hh, rfl⟩ := planUpdate_eq_some hp
  exact List.mem_map.mpr ⟨o, hmem, hh⟩

theorem anchored_insertAndPromote (ha : a.Anchored)
    (h : a.insertAndPromote link promoted = .ok (l, b)) : b.Anchored ∧
      b.links.map Link.hash = a.links.map Link.hash ++ [link.hash] ∧ b.nextSeq = a.nextSeq + 1 := by
  unfold insertAndPromote at h
  obtain ⟨planned, hm, h⟩ := exists_of_bind h
  obtain ⟨p, hi, h⟩ := exists_of_bind h
  obtain ⟨-, -, rfl⟩ := insert_eq_ok hi
  obtain ⟨-, rfl⟩ := Prod.mk.inj (Except.ok.inj h)
  have hhash : (a.file link []).links.map Link.hash = a.links.map Link.hash ++ [link.hash] := by
    simp [links_file_nil]
  refine ⟨ha.file.foldl_replace fun v hv => ?_, map_hash_foldl_replace.trans hhash, by simp⟩
  rw [hhash]
  exact List.mem_append_left _ (hash_mem_of_planned hm v hv)

theorem eq_of_find?_eq {ls ms : List Link} (hhash : ls.map Link.hash = ms.map Link.hash)
    (hnodup : (ls.map Link.hash).Nodup)
    (hfind : ∀ h, ls.find? (fun l => l.hash == h) = ms.find? fun l => l.hash == h) : ls = ms := by
  induction ls generalizing ms with
  | nil => exact (List.map_eq_nil_iff.mp hhash.symm).symm
  | cons l ls ih =>
    cases ms with
    | nil => simp at hhash
    | cons m ms =>
      obtain ⟨hlm, hrest⟩ := List.cons.inj hhash
      obtain ⟨hnot, hnodup⟩ := List.nodup_cons.mp hnodup
      have hsame : l = m := by simpa [hlm] using hfind l.hash
      refine congrArg₂ List.cons hsame (ih hrest hnodup fun h => ?_)
      by_cases he : l.hash = h
      · -- neither list has the hash of its head once more
        have hnone {ks : List Link} (hks : ks.map Link.hash = ls.map Link.hash) :
            ks.find? (fun k => k.hash == h) = none := by
          refine List.find?_eq_none.mpr fun k hk hkh => hnot ?_
          rw [he, ← hks]
          exact List.mem_map.mpr ⟨k, hk, by simpa using hkh⟩
        rw [hnone rfl, hnone hrest.symm]
      · have hfind := hfind h
        rwa [List.find?_cons_of_neg (by simpa using he),
          List.find?_cons_of_neg (by simpa [← hsame] using he)] at hfind

/-- Two pointers to stored links are the same if they lead to the same link. -/
theorem pointer_eq {p? q? : Option Hash} (hp : ∀ h, p? = some h → h ∈ a.links.map Link.hash)
    (hq : ∀ h, q? = some h → h ∈ a.links.map Link.hash) (h : p?.bind a.find? = q?.bind a.find?) :
    p? = q? := by
  have hfound {r? : Option Hash} {k : Hash} (hr : r? = some k)
      (hk : k ∈ a.links.map Link.hash) : ∃ l, r?.bind a.find? = some l ∧ l.hash = k := by
    obtain ⟨m, hm, he⟩ := List.mem_map.mp hk
    cases hf : a.find? k with
    | none => exact absurd he (find?_eq_none.mp hf m hm)
    | some l => exact ⟨l, by rw [hr, Option.bind_some, hf], (mem_of_find? hf).2⟩
  cases hpe : p? with
  | none =>
    cases hqe : q? with
    | none => rfl
    | some k =>
      obtain ⟨l, hl, -⟩ := hfound hqe (hq k hqe)
      rw [← h, hpe] at hl
      cases hl
  | some k =>
    obtain ⟨l, hl, hlk⟩ := hfound hpe (hp k hpe)
    cases hqe : q? with
    | none =>
      rw [h, hqe] at hl
      cases hl
    | some j =>
      obtain ⟨m, hm, hmj⟩ := hfound hqe (hq j hqe)
      rw [← h, hl] at hm
      rw [← hlk, ← hmj, Option.some.inj hm]

/-- Arenas that were filled the same way are the same if they look the same. -/
theorem eq_of_looks (hhash : b.links.map Link.hash = c.links.map Link.hash)
    (hseq : b.nextSeq = c.nextSeq) (hb : b.Anchored) (hc : c.Anchored)
    (hnodup : (c.links.map Link.hash).Nodup) (hfind : ∀ h, b.find? h = c.find? h)
    (hgenesis : b.genesis?.bind b.find? = c.genesis?.bind c.find?)
    (hbest : b.best?.bind b.find? = c.best?.bind c.find?) : b = c := by
  have hlinks : b.links = c.links := eq_of_find?_eq hhash (hhash ▸ hnodup) hfind
  have hsame : b.find? = c.find? := funext hfind
  rw [hsame] at hgenesis hbest
  have hgen : b.genesis? = c.genesis? := by
    refine pointer_eq (a := c) (fun h he => ?_) hc.genesis hgenesis
    exact hhash ▸ hb.genesis h he
  have hbst : b.best? = c.best? := by
    refine pointer_eq (a := c) (fun h he => ?_) hc.best hbest
    exact hhash ▸ hb.best h he
  cases b
  cases c
  cases hlinks
  cases hgen
  cases hbst
  cases hseq
  rfl

end Arena

variable {s : Shelf} {a : Arena} {r : Demand} {rs : List Demand} {parent : Hash → Hash}
  {more : List Link}

theorem SameAnswer.eq_of_ok {α : Type} {v w : α}
    (h : SameAnswer (.ok v) (.ok w : Except Error α)) : v = w :=
  Except.ok.inj h

theorem SameAnswer.toBool_eq {α : Type} {p q : Except Error α} (h : SameAnswer p q) :
    p.toBool = q.toBool := by
  cases p <;> cases q <;> first | rfl | cases h

/-- What a batch made at once and one made record by record left, if no call can tell. -/
theorem Arena.Kept.batch_eq {b c : Arena} {link l m : Link} {promoted vs : List Link}
    (hk : a.Kept parent) (hkc : c.Kept parent)
    (hb : a.insertAndPromote link promoted = .ok (l, b))
    (hc : a.insertInTurn link promoted = .ok ((m, vs), c))
    (hreads : ∀ q : Demand, q.onlyReads → SameAnswer (q.reply c) (q.reply b)) : b = c := by
  obtain ⟨hanchored, hhash, hseq⟩ := anchored_insertAndPromote hk.pointed.anchored hb
  obtain ⟨hhash', hseq'⟩ := map_hash_insertInTurn hc
  refine eq_of_looks (hhash.trans hhash'.symm) (hseq.trans hseq'.symm) hanchored
    hkc.pointed.anchored hkc.ordered.nodup (fun h => ?_) ?_ ?_
  · exact (hreads (.call (.getLink h)) rfl).eq_of_ok.symm
  · exact (hreads (.call .genesisLink) rfl).eq_of_ok.symm
  · exact (hreads (.call .lastLink) rfl).eq_of_ok.symm

namespace Paired

theorem inOrder (h : Paired parent s a (r.links ++ more))
    (hagree : ∀ reads, (∀ q ∈ reads, q.onlyReads) → Agree s a (r :: reads)) : r.InOrder a := by
  refine Demand.inOrder_of_batch fun link promoted hr => ?_
  obtain ⟨hsaid, hnext⟩ := h.inTurn
  have hsame : SameAnswer (r.reply a) (said (r.runInTurn a)) := by
    rw [← hsaid]
    exact (hagree [] (by simp)).1.symm
  have hreads : ∀ q : Demand, q.onlyReads →
      SameAnswer (q.reply (left (r.runInTurn a))) (q.reply (r.after a)) := by
    intro q hq
    have hquiet : q.links = [] := Demand.links_of_onlyReads hq
    have hbeside : Paired parent (r.after s) (left (r.runInTurn a)) (q.links ++ more) := by
      rwa [hquiet, List.nil_append]
    have hread := (hbeside.step (Demand.inOrder_of_onlyReads hq)).1
    exact hread.symm.trans (hagree [q] (by simpa using hq)).2.1
  refine ⟨hsame, ?_⟩
  subst hr
  simp only [Demand.reply, Demand.after, Demand.run_batch, Demand.runInTurn_batch,
    Arena.attempt] at hsame hreads hnext ⊢
  cases hb : a.insertAndPromote link promoted with
  | error e =>
    cases hc : a.insertInTurn link promoted with
    | error f => rfl
    | ok q =>
      simp only [hb, hc] at hsame
      cases hsame
  | ok p =>
    cases hc : a.insertInTurn link promoted with
    | error f =>
      simp only [hb, hc] at hsame
      cases hsame
    | ok q =>
      simp only [hb, hc, Except.map, left] at hreads hnext ⊢
      exact h.kept.batch_eq hnext.kept hb hc hreads

theorem along (h : Paired parent s a (rs.flatMap Demand.links))
    (hagree : ∀ before, before <+: rs → ∀ reads, (∀ q ∈ reads, q.onlyReads) →
      Agree s a (before ++ reads)) : Along Demand.InOrder a rs := by
  induction rs generalizing s a with
  | nil => trivial
  | cons r rs ih =>
    have hin : r.InOrder a := by
      refine h.inOrder fun reads hreads => ?_
      exact hagree [r] (List.cons_prefix_cons.mpr ⟨rfl, List.nil_prefix⟩) reads hreads
    refine ⟨hin, ih (h.step hin).2 fun before hbefore reads hreads => ?_⟩
    have hlonger : r :: before <+: r :: rs := List.cons_prefix_cons.mpr ⟨rfl, hbefore⟩
    exact (hagree (r :: before) hlonger reads hreads).2

end Paired

/-- Two stores, asked the same, cannot be told apart, not even by what is read in between. -/
def Indistinct {σ τ : Type} [Store σ] [Store τ] (s : σ) (t : τ) (rs : List Demand) : Prop :=
  ∀ before, before <+: rs → ∀ reads, (∀ q ∈ reads, q.onlyReads) → Agree s t (before ++ reads)

theorem links_sublist_of_reads {before reads : List Demand} (hbefore : before <+: rs)
    (hreads : ∀ q ∈ reads, q.onlyReads) :
    ((before ++ reads).flatMap Demand.links).Sublist (rs.flatMap Demand.links) := by
  have hquiet : reads.flatMap Demand.links = [] :=
    List.flatMap_eq_nil_iff.mpr fun q hq => Demand.links_of_onlyReads (hreads q hq)
  obtain ⟨rest, rfl⟩ := hbefore
  rw [List.flatMap_append, List.flatMap_append, hquiet, List.append_nil]
  exact List.sublist_append_left _ _

/-- An arena does what a pool does, so that it stands for one. -/
theorem indistinct_pool_iff (h : Storable (rs.flatMap Demand.links)) :
    Indistinct ({} : Shelf) ({} : Pool) rs ↔ Indistinct ({} : Shelf) ({} : Arena) rs := by
  constructor
  · intro hpool before hbefore reads hreads
    have hsame := agree_of_storable (h.mono (links_sublist_of_reads hbefore hreads))
    exact (hpool before hbefore reads hreads).trans hsame
  · intro harena before hbefore reads hreads
    have hsame := agree_of_storable (h.mono (links_sublist_of_reads hbefore hreads))
    exact (harena before hbefore reads hreads).trans hsame.symm

/-- Nothing but the way in which batches are made sets a shelf apart from the stores in
memory. -/
theorem indistinct_iff_of_storable (h : Storable (rs.flatMap Demand.links)) :
    (Indistinct ({} : Shelf) ({} : Pool) rs ↔ Along Demand.InOrder {} rs) ∧
      (Indistinct ({} : Shelf) ({} : Arena) rs ↔ Along Demand.InOrder {} rs) ∧
      (Along Demand.Tidy {} rs →
        Indistinct ({} : Shelf) ({} : Pool) rs ∧ Indistinct ({} : Shelf) ({} : Arena) rs) := by
  obtain ⟨parent, hpaired⟩ := Paired.empty h
  have hindistinct (hin : Along Demand.InOrder {} rs) :
      Indistinct ({} : Shelf) ({} : Arena) rs := by
    intro before hbefore reads hreads
    exact Paired.agree (hpaired.mono (links_sublist_of_reads hbefore hreads))
      (hin.append_reads hbefore hreads)
  have hiff : Indistinct ({} : Shelf) ({} : Arena) rs ↔ Along Demand.InOrder {} rs :=
    ⟨hpaired.along, hindistinct⟩
  have hpool := indistinct_pool_iff h
  refine ⟨hpool.trans hiff, hiff, fun htidy => ?_⟩
  have harena := hindistinct (htidy.mono fun _ _ => Demand.Tidy.inOrder)
  exact ⟨hpool.mpr harena, harena⟩

section Sessions

/-- The second block waits for the first one, which then puts it at some height. -/
def secondWaits (height : Nat) : List Demand :=
  [.call (.addLink (.orphan .second)),
    .call (.addAndPromote (.genesis .first) [.resolved .second height height])]

theorem first_hash_ne_second : Block.first.hash ≠ Block.second.hash := by
  decide +kernel

theorem storable_secondWaits {height : Nat} (hheight : height ≤ 1) :
    Storable ((secondWaits height).flatMap Demand.links) := by
  have hnodup : ([Block.first, .second].map Block.hash).Nodup := by
    simpa using first_hash_ne_second
  have hlinks : (secondWaits height).flatMap Demand.links =
      [.orphan .second, .genesis .first, .resolved .second height height] := rfl
  rw [hlinks]
  refine storable_of_nodup hnodup ?_ (by simp)
  simp only [List.forall_mem_cons, List.not_mem_nil, false_imp_iff, implies_true, and_true]
  refine ⟨⟨?_, _, .tail _ (.head _), _, rfl⟩, ⟨?_, _, .head _, _, rfl⟩,
    ⟨?_, _, .tail _ (.head _), _, rfl⟩⟩
  · exact Link.writable_make (Block.writable_easy _ _) (by simp)
  · exact Link.writable_make (Block.writable_easy _ _) (by simp)
  · refine Link.writable_make (Block.writable_easy _ _) fun h w hs => ?_
    cases hs
    omega

theorem indistinct_secondWaits : Along Demand.InOrder {} (secondWaits 1) ∧
    Indistinct ({} : Shelf) ({} : Pool) (secondWaits 1) := by
  have hne := first_hash_ne_second
  have hnodup : ([Link.genesis .first, .resolved .second 1 1].map Link.hash).Nodup := by
    simpa [Link.genesis, Link.resolved, Link.make] using hne
  have hfresh : (Demand.after ({} : Arena) (.call (.addLink (.orphan .second)))).find?
      Block.first.hash = none := by
    refine Arena.find?_eq_none.mpr fun l hl => ?_
    rw [List.mem_singleton.mp hl]
    exact hne.symm
  have htidy : Along Demand.Tidy {} (secondWaits 1) :=
    ⟨trivial, ⟨hnodup, by decide, .inl ⟨_, Arena.insert_of_fresh hfresh rfl⟩⟩, trivial⟩
  obtain ⟨hiff, -, htells⟩ := indistinct_iff_of_storable (storable_secondWaits (Nat.le_refl 1))
  obtain ⟨hpool, -⟩ := htells htidy
  exact ⟨hiff.mp hpool, hpool⟩

theorem not_agree_arena : ¬ Agree ({} : Shelf) ({} : Arena) (secondWaits 0) := by
  intro hagree
  obtain ⟨parent, hpaired⟩ := Paired.empty (storable_secondWaits (Nat.zero_le 1))
  obtain ⟨-, hnext⟩ := hpaired.step ⟨.rfl, rfl⟩
  obtain ⟨-, hsame, -⟩ := hagree
  rw [hnext.inTurn.1] at hsame
  refine absurd hsame.toBool_eq ?_
  decide +kernel

/-- The batch brings in two genesis links: the stores in memory take both. -/
theorem not_agree_secondWaits :
    (¬ ∀ rs, Storable (rs.flatMap Demand.links) → Agree ({} : Shelf) ({} : Pool) rs) ∧
    ¬ ∀ rs, Storable (rs.flatMap Demand.links) → Agree ({} : Shelf) ({} : Arena) rs := by
  have hstorable := storable_secondWaits (Nat.zero_le 1)
  refine ⟨fun hpool => ?_, fun harena => not_agree_arena (harena _ hstorable)⟩
  exact not_agree_arena ((hpool _ hstorable).trans (agree_of_storable hstorable))

end Sessions

end BlockTree
