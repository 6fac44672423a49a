import BlockTree.Proofs.Copies

/-! A resolved record is final. No call changes it or takes it away, whatever it carries, and
no copy in a cache ever differs from it. -/

namespace BlockTree

/-- The link is what the store has under the hash, and what it will not give up. -/
structure Final {σ : Type} [Store σ] (s : σ) (hash : Hash) (l : Link) : Prop where
  found : (Demand.call (.getLink hash)).reply s = .ok (some l)
  update : ∀ u : Link, u.hash = hash → ask (.updateLink u) s = .ok () s
  remove : ask (.removeOrphan hash) s = .error (.storage (.notOrphan hash)) s
  add : ∀ u : Link, u.hash = hash → ask (.addLink u) s = .error (.duplicateLink hash) s

namespace Arena

variable {a b : Arena} {link u v l : Link} {us promoted : List Link} {hash : Hash} {α : Type}

theorem find?_noticeResolved (h : Hash) : (a.noticeResolved u).find? h = a.find? h := by
  rw [find?, links_noticeResolved, find?]

theorem find?_file_nil (hfresh : a.find? link.hash = none) (hne : link.hash ≠ hash) :
    (a.file link []).find? hash = a.find? hash := by
  have hpush := find?_push hfresh hash
  rw [if_neg hne] at hpush
  exact (find?_noticeResolved hash).trans hpush

theorem find?_foldl_replace (hne : ∀ u ∈ us, u.hash ≠ hash) :
    (us.foldl replace a).find? hash = a.find? hash := by
  induction us generalizing a with
  | nil => rfl
  | cons u us ih =>
    rw [List.foldl_cons, ih fun v hv => hne v (List.mem_cons_of_mem _ hv),
      find?_replace_of_ne (hne u List.mem_cons_self)]

section Final

variable (hl : a.find? hash = some l) (hr : l.isResolved)

include hl

theorem lasts_attempt {β : Type} (change : Arena → Except Error (β × Arena))
    (hok : ∀ v b, change a = .ok (v, b) → b.find? hash = some l) :
    (left (attempt change a)).find? hash = some l :=
  attempt_induction (P := fun b => b.find? hash = some l) change hl hok

theorem ne_of_fresh (hfresh : a.find? link.hash = none) : link.hash ≠ hash := by
  intro he
  rw [he, hl] at hfresh
  cases hfresh

include hr

theorem ne_of_waits {k : Hash} {o : Link} (hf : a.find? k = some o) (ho : o.isOrphan) :
    k ≠ hash := by
  intro he
  rw [he, hl] at hf
  rw [Option.some.inj hf] at hr
  simp [Link.isResolved, ho] at hr

theorem ne_of_planned (h : a.planUpdate u = .ok (some v)) : v.hash ≠ hash := by
  obtain ⟨-, o, hf, ho, rfl⟩ := find?_of_planUpdate h
  exact ne_of_waits hl hr hf ho

theorem lasts_planned {v? : Option Link} (h : a.planUpdate u = .ok v?) :
    (v?.elim a a.replace).find? hash = some l := by
  cases v? with
  | none => exact hl
  | some v => exact (find?_replace_of_ne (ne_of_planned hl hr h)).trans hl

theorem lasts (call : Call α) : (left (answer call a)).find? hash = some l := by
  cases call with
  | addLink link =>
    refine lasts_attempt hl (·.insert link) fun v b h => ?_
    obtain ⟨hfresh, -, hp⟩ := insert_eq_ok h
    rw [(Prod.mk.inj hp).2, find?_file_nil hfresh (ne_of_fresh hl hfresh), hl]
  | updateLink link =>
    refine lasts_attempt hl (·.update link) fun v b h => ?_
    obtain ⟨v?, hp, rfl⟩ := update_eq_ok h
    exact lasts_planned hl hr hp
  | addAndPromote link promoted =>
    refine lasts_attempt hl (·.insertAndPromote link promoted) fun v b h => ?_
    unfold insertAndPromote at h
    obtain ⟨planned, hm, h⟩ := exists_of_bind h
    obtain ⟨p, hi, h⟩ := exists_of_bind h
    obtain ⟨hfresh, -, rfl⟩ := insert_eq_ok hi
    rw [← (Prod.mk.inj (Except.ok.inj h)).2, find?_foldl_replace fun w hw => ?_,
      find?_file_nil hfresh (ne_of_fresh hl hfresh), hl]
    obtain ⟨u, -, hu⟩ := exists_of_mapM hm w hw
    exact ne_of_planned hl hr hu
  | removeOrphan gone =>
    refine lasts_attempt hl (·.removeOrphan gone) fun v b h => ?_
    obtain ⟨o, ho, horphan, hp⟩ := removeOrphan_eq_ok h
    rw [(Prod.mk.inj hp).2, find?_drop, if_neg (ne_of_waits hl hr ho horphan), hl]
  | _ => exact hl

theorem final : Final a hash l where
  found := congrArg Except.ok hl
  update u hu := by
    subst hu
    simp [ask, Store.answer, answer, attempt, update, planUpdate, hl, hr, bind, Except.bind, pure,
      Except.pure]
  remove := by simp [ask, Store.answer, answer, attempt, removeOrphan, hl, hr]
  add u hu := by
    subst hu
    simp [ask, Store.answer, answer, attempt, insert, hl, bind, Except.bind, throw, throwThe,
      MonadExceptOf.throw]

end Final

end Arena

namespace Pool

variable {p q : Pool} {link u v l : Link} {us promoted : List Link} {hash : Hash} {α : Type}

theorem find?_noticeResolved (h : Hash) : (p.noticeResolved u).find? h = p.find? h := by
  unfold noticeResolved
  split <;> rfl

theorem find?_push (h : Hash) :
    (p.push u).find? h = if u.hash = h then some u else p.find? h := by
  rw [find?, push, Tree.getElem?_insert]
  exact if_congr Key.link_inj rfl rfl

theorem find?_replace (h : Hash) :
    (p.replace u).find? h = if u.hash = h then some u else p.find? h := by
  rw [replace, find?_noticeResolved, find?, put, Tree.getElem?_insert]
  exact if_congr Key.link_inj rfl rfl

theorem insert_eq_ok {r : Link × Pool} (h : p.insert link = .ok r) :
    p.find? link.hash = none ∧
      r.2 = (p.push (link.withSeq p.nextSeq)).noticeResolved (link.withSeq p.nextSeq) := by
  cases hf : p.find? link.hash with
  | some known => simp [insert, hf, bind, Except.bind, throw, throwThe, MonadExceptOf.throw] at h
  | none =>
    simp only [insert, hf, bind, Except.bind] at h
    cases hc : p.checkGenesis link with
    | error e => simp [hc] at h
    | ok _ =>
      simp only [hc] at h
      exact ⟨rfl, by rw [← Except.ok.inj h]⟩

theorem find?_of_planUpdate (h : p.planUpdate u = .ok (some v)) :
    v.hash = u.hash ∧ ∃ o, p.find? u.hash = some o ∧ o.isOrphan := by
  unfold planUpdate at h
  cases hf : p.find? u.hash with
  | none => simp [hf] at h
  | some o =>
    by_cases hr : o.isResolved
    · simp [hf, hr] at h
    · cases hc : p.checkGenesis u with
      | error e => simp [hf, hr, hc] at h
      | ok _ =>
        simp only [hf, hr, hc] at h
        refine ⟨?_, o, rfl, by simpa [Link.isResolved] using hr⟩
        rw [← Option.some.inj (Except.ok.inj h)]
        rfl

section Final

variable (hl : p.find? hash = some l) (hr : l.isResolved)

include hl

theorem lasts_attempt {β : Type} (change : Pool → Except Error (β × Pool))
    (hok : ∀ v q, change p = .ok (v, q) → q.find? hash = some l) :
    (left (attempt change p)).find? hash = some l := by
  unfold attempt
  cases hc : change p with
  | error e => exact hl
  | ok r => exact hok r.1 r.2 hc

theorem find?_of_insert {r : Link × Pool} (h : p.insert link = .ok r) :
    r.2.find? hash = some l := by
  obtain ⟨hfresh, hp⟩ := insert_eq_ok h
  have hne : (link.withSeq p.nextSeq).hash ≠ hash := by
    intro he
    rw [Link.hash_withSeq] at he
    rw [he, hl] at hfresh
    cases hfresh
  rw [hp, find?_noticeResolved, find?_push, if_neg hne, hl]

include hr

theorem ne_of_waits {k : Hash} {o : Link} (hf : p.find? k = some o) (ho : o.isOrphan) :
    k ≠ hash := by
  intro he
  rw [he, hl] at hf
  rw [Option.some.inj hf] at hr
  simp [Link.isResolved, ho] at hr

theorem ne_of_planned (h : p.planUpdate u = .ok (some v)) : v.hash ≠ hash := by
  obtain ⟨hvu, o, hf, ho⟩ := find?_of_planUpdate h
  exact hvu ▸ ne_of_waits hl hr hf ho

omit hr in
theorem find?_foldl_replace (hne : ∀ u ∈ us, u.hash ≠ hash) :
    (us.foldl replace p).find? hash = some l := by
  induction us generalizing p with
  | nil => exact hl
  | cons u us ih =>
    refine ih ?_ fun v hv => hne v (List.mem_cons_of_mem _ hv)
    rw [find?_replace, if_neg (hne u List.mem_cons_self), hl]

theorem lasts (call : Call α) : (left (answer call p)).find? hash = some l := by
  cases call with
  | addLink link =>
    rw [answer, addLink_eq]
    exact lasts_attempt hl (·.insert link) fun v q h => find?_of_insert hl h
  | updateLink link =>
    rw [answer, updateLink_eq]
    refine lasts_attempt hl (·.update link) fun v q h => ?_
    unfold update at h
    obtain ⟨v?, hp, h⟩ := exists_of_bind h
    cases v? with
    | none => rw [← (Prod.mk.inj (Except.ok.inj h)).2, hl]
    | some v =>
      rw [← (Prod.mk.inj (Except.ok.inj h)).2, find?_replace, if_neg (ne_of_planned hl hr hp), hl]
  | addAndPromote link promoted =>
    rw [answer, addAndPromote_eq]
    refine lasts_attempt hl (·.insertAndPromote link promoted) fun v q h => ?_
    unfold insertAndPromote at h
    obtain ⟨planned, hm, h⟩ := exists_of_bind h
    obtain ⟨r, hi, h⟩ := exists_of_bind h
    rw [← (Prod.mk.inj (Except.ok.inj h)).2]
    refine find?_foldl_replace (find?_of_insert hl hi) fun w hw => ?_
    obtain ⟨u, -, hu⟩ := exists_of_mapM hm w hw
    exact ne_of_planned hl hr hu
  | removeOrphan gone =>
    rw [answer, takeOrphan_eq]
    refine lasts_attempt hl (·.removeOrphan gone) fun v q h => ?_
    unfold removeOrphan at h
    cases ho : p.find? gone with
    | none => simp [ho] at h
    | some o =>
      by_cases horphan : o.isResolved
      · simp [ho, horphan] at h
      · simp only [ho, horphan] at h
        have ho' : o.isOrphan := by simpa [Link.isResolved] using horphan
        have hne : gone ≠ hash := ne_of_waits hl hr ho ho'
        have hkey : gone.bytes ≠ hash.bytes := fun hk => hne (Key.link_inj.mp hk)
        rw [← (Prod.mk.inj (Except.ok.inj h)).2, find?, Tree.getElem?_erase, if_neg hkey]
        exact hl
  | _ => exact hl

theorem final : Final p hash l where
  found := congrArg Except.ok hl
  update u hu := by
    subst hu
    simp [ask, Store.answer, answer, updateLink_eq, attempt, update, planUpdate, hl, hr, bind,
      Except.bind, pure, Except.pure]
  remove := by simp [ask, Store.answer, answer, takeOrphan_eq, attempt, removeOrphan, hl, hr]
  add u hu := by
    subst hu
    simp [ask, Store.answer, answer, addLink_eq, attempt, insert, hl, bind, Except.bind, throw,
      throwThe, MonadExceptOf.throw]

end Final

end Pool

namespace Shelf

variable {s : Shelf} {l : Link} {hash : Hash} {α β : Type} {next : α → StoreM Shelf β}

theorem attempt_bind_ok (change : Trees → Except Error (α × Trees)) {v : α} {t : Trees}
    (h : change s.trees = .ok (v, t)) :
    (attempt change >>= next) s = next v { s with trees := t } := by
  simp only [bind, EStateM.bind, attempt, h]

theorem attempt_bind_error (change : Trees → Except Error (α × Trees)) {e : Error}
    (h : change s.trees = .error e) : (attempt change >>= next) s = .error e s := by
  simp only [bind, EStateM.bind, attempt, h]

theorem Coherent.find?_of_reply (h : s.Coherent)
    (hl : (Demand.call (.getLink hash)).reply s = .ok (some l)) (hr : l.isResolved) :
    s.trees.find? (Key.link hash) = .ok (some l) := by
  change said (load hash s) = _ at hl
  unfold load at hl
  cases hc : s.cache[hash.bytes]? with
  | some m =>
    simp only [hc] at hl
    obtain rfl := Option.some.inj (Except.ok.inj hl)
    exact (h.cache _ _ hc).1
  | none =>
    cases hf : s.trees.find? (Key.link hash) with
    | error e =>
      simp only [hc, hf] at hl
      cases hl
    | ok l? =>
      cases l? with
      | none =>
        simp only [hc, hf] at hl
        cases hl
      | some m =>
        simp only [hc, hf] at hl
        exact congrArg (Except.ok ∘ some) (Option.some.inj (Except.ok.inj hl))

/-- The copy and the record are one link, so it makes no difference which of them is met. -/
theorem Coherent.final (h : s.Coherent) (hl : s.trees.find? (Key.link hash) = .ok (some l))
    (hr : l.isResolved) : Final s hash l where
  found := by
    change said (load hash s) = _
    unfold load
    cases hc : s.cache[hash.bytes]? with
    | some m =>
      have hm := (h.cache _ _ hc).1
      exact hm.symm.trans hl
    | none =>
      simp only [hl]
      rfl
  update u hu := by
    subst hu
    have hp : s.trees.promote u = .ok (none, s.trees) := by
      simp [Trees.promote, hl, hr, bind, Except.bind, pure, Except.pure]
    exact attempt_bind_ok (fun t : Trees => t.promote u) hp
  remove := by
    have hp : s.trees.removeOrphan hash = .error (.storage (.notOrphan hash)) := by
      simp [Trees.removeOrphan, hl, hr, bind, Except.bind, throw, throwThe, MonadExceptOf.throw]
    exact attempt_bind_error (fun t : Trees => t.removeOrphan hash) hp
  add u hu := by
    subst hu
    have hp : s.trees.insert u = .error (.duplicateLink u.hash) := by
      have hsome : (s.trees.links[Key.link u.hash]?).isSome := by
        rw [Trees.find?] at hl
        cases hbs : s.trees.links[Key.link u.hash]? with
        | none => simp [hbs] at hl
        | some bs => rfl
      simp [Trees.insert, hsome, bind, Except.bind, throw, throwThe, MonadExceptOf.throw]
    exact attempt_bind_error (fun t : Trees => t.insert u) hp

end Shelf

variable {b : Backing} {s t : b.Contents} {rs rs' : List Demand} {ns ns' : List Nat} {hash : Hash}
  {l : Link}

/-- Once a link is found resolved, it is found so from then on, and no call can say otherwise. -/
theorem final_of_serves (hs : Serves Medium.empty rs ns s) (ht : Serves s rs' ns' t)
    (hw : ∀ l ∈ (rs ++ rs').flatMap Demand.links, l.Writable)
    (hl : (Demand.call (.getLink hash)).reply s = .ok (some l)) (hr : l.isResolved) :
    Final t hash l := by
  cases b with
  | arena =>
    have hfound : Arena.find? s hash = some l := Except.ok.inj hl
    refine Arena.final ?_ hr
    exact ht.keeps (P := fun a : Arena => a.find? hash = some l)
      (fun c _ a ha => Arena.lasts ha hr c) (fun a a' ha hd => hd ▸ ha) hfound
  | pool =>
    have hfound : Pool.find? s hash = some l := Except.ok.inj hl
    refine Pool.final ?_ hr
    exact ht.keeps (P := fun p : Pool => p.find? hash = some l)
      (fun c _ p hp => Pool.lasts hp hr c) (fun p p' hp hd => hd ▸ hp) hfound
  | shelf =>
    have hcall {rs : List Demand} (hw : ∀ l ∈ rs.flatMap Demand.links, l.Writable) {α : Type}
        (c : Call α) (hc : c.links ⊆ rs.flatMap Demand.links) (u : Shelf) (hu : u.Coherent) :
        u.Preserves (left (Shelf.answer c u)) :=
      hu.answer fun l hl => hw l (hc hl)
    have hdrift (u v : Shelf) (hu : u.Coherent) (hd : Medium.drifts u v) : v.Coherent :=
      ⟨hd.1 ▸ hu.encoded, fun k l hl => hd.1 ▸ hu.cache k l (hd.2 k l hl)⟩
    rw [List.flatMap_append] at hw
    have hcoherent : Shelf.Coherent s :=
      hs.keeps (P := Shelf.Coherent) (fun c hc u hu =>
        (hcall (fun l hl => hw l (List.mem_append_left _ hl)) c hc u hu).coherent)
        hdrift Shelf.coherent_empty
    have hfound := hcoherent.find?_of_reply hl hr
    obtain ⟨ht, hlast⟩ := ht.keeps
      (P := fun u : Shelf => u.Coherent ∧ u.trees.find? (Key.link hash) = .ok (some l))
      (fun c hc u hu => by
        have hpreserves := hcall (fun l hl => hw l (List.mem_append_right _ hl)) c hc u hu.1
        exact ⟨hpreserves.coherent, hpreserves.keeps.lasts _ _ hu.2 hr⟩)
      (fun u v hu hd => ⟨hdrift u v hu.1 hd, hd.1 ▸ hu.2⟩) ⟨hcoherent, hfound⟩
    exact ht.final hlast hr

section Sessions

def founding : List Demand :=
  [.call (.addLink (.genesis .first))]

def founded : Shelf :=
  (Demand.call (.addLink (.genesis .first))).after {}

/-- The first block is said to have other heights, to be an orphan, and to be gone. -/
def contesting : List Demand :=
  [.call (.updateLink (.resolved .first 7 7)),
    .call (.addAndPromote (.orphan .second) [.orphan .first, .resolved .first 9 9]),
    .call (.removeOrphan Block.first.hash)]

theorem final_contested : ∃ ns ns' t, Serves (Medium.empty : Shelf) founding ns founded ∧
    Serves founded contesting ns' t ∧ Final t Block.first.hash (.genesis .first) := by
  have hs : Serves (Medium.empty : Shelf) founding _ founded := .next .done
  have hdrift : Medium.drifts founded founded.reopen :=
    ⟨rfl, fun k l hl => by simp [Shelf.reopen] at hl⟩
  have ht : Serves founded contesting _ _ := .drift hdrift (.next (.next (.next .done)))
  have hw : ∀ l ∈ (founding ++ contesting).flatMap Demand.links, l.Writable := by
    have hlinks : (founding ++ contesting).flatMap Demand.links =
        [.genesis .first, .resolved .first 7 7, .orphan .second, .orphan .first,
          .resolved .first 9 9] := rfl
    rw [hlinks]
    simp only [List.forall_mem_cons, List.not_mem_nil, false_imp_iff, implies_true, and_true]
    refine ⟨?_, ?_, ?_, ?_, ?_⟩ <;>
      exact Link.writable_make (Block.writable_easy _ _) (by simp)
  have hfound : (Demand.call (.getLink Block.first.hash)).reply founded =
      .ok (some (.genesis .first)) := by decide +kernel
  exact ⟨_, _, _, hs, ht, final_of_serves (b := .shelf) hs ht hw hfound rfl⟩

end Sessions

end BlockTree
