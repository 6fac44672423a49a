import BlockTree.Proofs.Finality

/-! Changes of a store that are refused. Nothing of them is left, however far a batch had
come, so that a run comes to the same without them. -/

namespace BlockTree

/-- The only errors are those that `bad` allows. -/
def Spoils {α : Type} (bad : Error → Prop) (r : Except Error α) : Prop :=
  ∀ e, r = .error e → bad e

namespace Spoils

variable {α β : Type} {bad bad' : Error → Prop} {r : Except Error α} {e : Error}

theorem ok {v : α} : Spoils bad (.ok v : Except Error α) := by
  intro e h
  cases h

theorem error (h : bad e) : Spoils bad (.error e : Except Error α) := by
  intro e' he
  cases he
  exact h

theorem bind {next : α → Except Error β} (h : Spoils bad r)
    (hnext : ∀ v, r = .ok v → Spoils bad (next v)) : Spoils bad (r >>= next) := by
  cases r with
  | ok v => exact hnext v rfl
  | error e => exact error (h e rfl)

theorem map {f : α → β} (h : Spoils bad r) : Spoils bad (r.map f) := by
  cases r with
  | ok v => exact ok
  | error e => exact error (h e rfl)

theorem mono (h : Spoils bad r) (himp : ∀ e, bad e → bad' e) : Spoils bad' r :=
  fun e he => himp e (h e he)

theorem mapM {f : α → Except Error β} {vs : List α} (h : ∀ v ∈ vs, Spoils bad (f v)) :
    Spoils bad (vs.mapM f) := by
  induction vs with
  | nil => exact ok
  | cons v vs ih =>
    rw [List.mapM_cons]
    refine (h v List.mem_cons_self).bind fun w _ => ?_
    exact (ih fun u hu => h u (List.mem_cons_of_mem _ hu)).bind fun ws _ => ok

end Spoils

namespace Link

/-- Another link is the genesis link. -/
def Intrudes (l : Link) (e : Error) : Prop :=
  l.isGenesis ∧ ∃ g, g ≠ l.hash ∧ e = .invariant (.secondGenesis l.hash g)

def AddFault (l : Link) (e : Error) : Prop :=
  e = .duplicateLink l.hash ∨ l.Intrudes e

def UpdateFault (l : Link) (e : Error) : Prop :=
  e = .storage (.missing l.hash) ∨ l.Intrudes e

end Link

/-- What a change of the store is refused for. -/
def Call.Faults : {α : Type} → Call α → Error → Prop
  | _, .addLink link, e => link.AddFault e
  | _, .updateLink link, e => link.UpdateFault e
  | _, .addAndPromote link promoted, e => link.AddFault e ∨ ∃ u ∈ promoted, u.UpdateFault e
  | _, .removeOrphan hash, e => e = .storage (.missing hash) ∨ e = .storage (.notOrphan hash)
  | _, _, _ => False

def Demand.Faults : Demand → Error → Prop
  | call c, e => c.Faults e
  | _, _ => False

variable {α β : Type} {link u : Link} {promoted : List Link} {hash : Hash} {e : Error}

namespace Pool

variable {p q : Pool}

theorem attempt_eq_error {change : Pool → Except Error (α × Pool)}
    (h : attempt change p = .error e q) : q = p ∧ change p = .error e := by
  unfold attempt at h
  cases hc : change p with
  | ok r => simp [hc] at h
  | error e' =>
    simp only [hc, EStateM.Result.error.injEq] at h
    exact ⟨h.2.symm, congrArg Except.error h.1⟩

theorem spoils_checkGenesis : Spoils link.Intrudes (p.checkGenesis link) := by
  unfold checkGenesis
  cases p.genesis? with
  | none => exact .ok
  | some g =>
    simp only
    split
    · next h => exact .error ⟨h.1, g, h.2, rfl⟩
    · exact .ok

theorem spoils_insert : Spoils link.AddFault (p.insert link) := by
  unfold insert
  cases p.find? link.hash with
  | some known => exact .error (.inl rfl)
  | none => exact (spoils_checkGenesis.mono fun _ => .inr).bind fun _ _ => .ok

theorem spoils_planUpdate : Spoils link.UpdateFault (p.planUpdate link) := by
  unfold planUpdate
  cases p.find? link.hash with
  | none => exact .error (.inl rfl)
  | some stored =>
    simp only
    split
    · exact .ok
    · cases hc : p.checkGenesis link with
      | ok _ => exact .ok
      | error e => exact .error (.inr (spoils_checkGenesis e hc))

theorem spoils_update : Spoils link.UpdateFault (p.update link) := by
  refine spoils_planUpdate.bind fun planned _ => ?_
  cases planned with
  | none => exact .ok
  | some updated => exact .ok

theorem spoils_insertAndPromote :
    Spoils (Call.addAndPromote link promoted).Faults (p.insertAndPromote link promoted) := by
  have hplans : Spoils (Call.addAndPromote link promoted).Faults
      (promoted.mapM p.planUpdate) :=
    .mapM fun u hu => spoils_planUpdate.mono fun e he => .inr ⟨u, hu, he⟩
  refine hplans.bind fun planned _ => ?_
  exact (spoils_insert.mono fun _ => .inl).bind fun r _ => .ok

theorem spoils_removeOrphan :
    Spoils (Call.removeOrphan hash).Faults (p.removeOrphan hash) := by
  unfold removeOrphan
  cases p.find? hash with
  | none => exact .error (.inl rfl)
  | some stored =>
    simp only
    split
    · exact .error (.inr rfl)
    · exact .ok

theorem refused {c : Call α} (hc : c.onlyReads = false) (h : answer c p = .error e q) :
    q = p ∧ c.Faults e := by
  cases c with
  | addLink link =>
    rw [answer, addLink_eq] at h
    obtain ⟨hq, he⟩ := attempt_eq_error h
    exact ⟨hq, spoils_insert e he⟩
  | updateLink link =>
    rw [answer, updateLink_eq] at h
    obtain ⟨hq, he⟩ := attempt_eq_error h
    exact ⟨hq, spoils_update e he⟩
  | addAndPromote link promoted =>
    rw [answer, addAndPromote_eq] at h
    obtain ⟨hq, he⟩ := attempt_eq_error h
    exact ⟨hq, spoils_insertAndPromote e he⟩
  | removeOrphan hash =>
    rw [answer, takeOrphan_eq] at h
    obtain ⟨hq, he⟩ := attempt_eq_error h
    exact ⟨hq, spoils_removeOrphan e he⟩
  | _ => cases hc

end Pool

namespace Trees

variable {t t' : Trees} {v : Link} {v? : Option Link} {vs : List Link}

/-- What is on the trees can be read. -/
structure Legible (t : Trees) : Prop where
  encoded : t.Encoded
  counted : ∃ n, t.nextSeq = .ok n

theorem Encoded.spoils_find? {bad : Error → Prop} (h : t.Encoded) (k : Bytes) :
    Spoils bad (t.find? k) := by
  unfold find?
  cases hbs : t.links[k]? with
  | none => exact .ok
  | some bs =>
    obtain ⟨l, hl, rfl⟩ := h k bs hbs
    simp only [decodeLink_ofLink hl]
    exact .ok

theorem spoils_noticeGenesis : Spoils u.Intrudes (t.noticeGenesis u) := by
  unfold noticeGenesis
  simp only
  split
  · next hg =>
    cases t.pointers[Key.genesis]? with
    | none => exact .ok
    | some bs =>
      simp only
      split
      · exact .ok
      · next hne => exact .error ⟨hg, Hash.ofBytes bs, hne, rfl⟩
  · exact .ok

theorem Encoded.spoils_notice (h : t.Encoded) : Spoils u.Intrudes (t.notice u) := by
  unfold notice
  refine spoils_noticeGenesis.bind fun t₁ hg => ?_
  have h₁ : t₁.Encoded := by
    unfold Encoded
    rwa [links_noticeGenesis hg]
  have hbest : Spoils u.Intrudes t₁.best? := by
    unfold best?
    cases t₁.pointers[Key.best]? with
    | none => exact .ok
    | some key => exact h₁.spoils_find? key
  refine hbest.bind fun best? _ => ?_
  have hmoved (better : Bool) (t₂ : Trees) :
      Spoils u.Intrudes (if better then .ok t₂ else .ok t₁) := by
    cases better with
    | true => exact .ok
    | false => exact .ok
  exact hmoved _ _

theorem Legible.spoils_insert (h : t.Legible) (hl : ∀ n < 2 ^ 64, (link.withSeq n).Writable) :
    Spoils link.AddFault (t.insert link) := by
  cases hbs : t.links[Key.link link.hash]? with
  | some bs =>
    unfold insert
    simp only [hbs]
    exact .error (.inl rfl)
  | none =>
    obtain ⟨n, hn⟩ := h.counted
    have hfree : ∀ l, t.find? (Key.link (link.withSeq n).hash) = .ok (some l) → l.isOrphan := by
      intro l hl
      rw [find?, Link.hash_withSeq, hbs] at hl
      cases hl
    have hfiled : (t.pushed (link.withSeq n)).Encoded :=
      (h.encoded.put (hl n (nextSeq_lt hn)) hfree rfl).1.encoded
    rw [insert_eq hbs hn]
    split
    · exact .ok
    · exact (hfiled.spoils_notice.map).mono fun e he => .inr he

theorem Encoded.spoils_promote (h : t.Encoded) (hu : ∀ n < 2 ^ 64, (u.withSeq n).Writable) :
    Spoils u.UpdateFault (t.promote u) := by
  cases hf : t.find? (Key.link u.hash) with
  | error e =>
    have hnone : Spoils (fun _ => False) (t.find? (Key.link u.hash)) := h.spoils_find? _
    exact (hnone e hf).elim
  | ok o? =>
    cases o? with
    | none =>
      unfold Trees.promote
      simp only [hf]
      exact .error (.inl rfl)
    | some o =>
      by_cases hr : o.isResolved
      · unfold Trees.promote
        simp only [hf, bind, Except.bind, hr, if_true]
        exact .ok
      · have ho : o.isOrphan := by simpa [Link.isResolved] using hr
        have hfree : ∀ l, t.find? (Key.link (u.withSeq o.seq).hash) = .ok (some l) →
            l.isOrphan := by
          intro l hl
          obtain rfl := Option.some.inj (Except.ok.inj (hf.symm.trans hl))
          exact ho
        have hrevised : (t.revised (u.withSeq o.seq)).Encoded :=
          (h.put (hu o.seq (h.writable hf).seq) hfree rfl).1.encoded
        rw [promote_eq hf ho]
        split
        · exact (hrevised.spoils_notice.map).mono fun e he => .inr he
        · exact .ok

theorem Encoded.spoils_promoteAll {us : List Link} (h : t.Encoded)
    (hus : ∀ u ∈ us, ∀ n < 2 ^ 64, (u.withSeq n).Writable) :
    Spoils (fun e => ∃ u ∈ us, u.UpdateFault e) (Trees.promoteAll us t) := by
  induction us generalizing t with
  | nil => exact .ok
  | cons u us ih =>
    have hu := hus u List.mem_cons_self
    rw [Trees.promoteAll]
    refine ((h.spoils_promote hu).mono fun e he => ⟨u, List.mem_cons_self, he⟩).bind fun r hr => ?_
    have hrest := ih (h.promote hu hr).1.encoded fun w hw => hus w (List.mem_cons_of_mem _ hw)
    refine (hrest.mono fun e he => ?_).bind fun _ _ => .ok
    obtain ⟨w, hw, he⟩ := he
    exact ⟨w, List.mem_cons_of_mem _ hw, he⟩

theorem Legible.spoils_insertAndPromote (h : t.Legible)
    (hlinks : ∀ l ∈ link :: promoted, ∀ n < 2 ^ 64, (l.withSeq n).Writable) :
    Spoils (Call.addAndPromote link promoted).Faults (t.insertAndPromote link promoted) := by
  have hl := hlinks link List.mem_cons_self
  unfold Trees.insertAndPromote
  refine ((h.spoils_insert hl).mono fun _ => .inl).bind fun r hr => ?_
  have hrest := (h.encoded.insert hl hr).1.encoded.spoils_promoteAll fun u hu =>
    hlinks u (List.mem_cons_of_mem _ hu)
  exact (hrest.mono fun _ => .inr).bind fun _ _ => .ok

theorem Encoded.spoils_removeOrphan (h : t.Encoded) :
    Spoils (Call.removeOrphan hash).Faults (t.removeOrphan hash) := by
  unfold Trees.removeOrphan
  refine (h.spoils_find? _).bind fun o? _ => ?_
  cases o? with
  | none => exact .error (.inl rfl)
  | some o =>
    simp only
    split
    · exact .error (.inr rfl)
    · exact .ok

theorem nextSeq_congr (h : t'.pointers[Key.counter]? = t.pointers[Key.counter]?) :
    t'.nextSeq = t.nextSeq := by
  rw [nextSeq, nextSeq, h]

theorem nextSeq_noticeGenesis (h : t.noticeGenesis u = .ok t') : t'.nextSeq = t.nextSeq := by
  have hpoint {bs : Bytes} :
      nextSeq { t with pointers := t.pointers.insert Key.genesis bs } = t.nextSeq :=
    nextSeq_congr (by rw [Tree.getElem?_insert, if_neg Key.genesis_ne_counter])
  unfold noticeGenesis at h
  split at h
  · split at h
    · rw [← Except.ok.inj h, hpoint]
    · split at h
      · rw [← Except.ok.inj h, hpoint]
      · cases h
  · rw [← Except.ok.inj h]

theorem nextSeq_notice (h : t.notice u = .ok t') : t'.nextSeq = t.nextSeq := by
  unfold notice at h
  obtain ⟨t₁, hg, h⟩ := exists_of_bind h
  obtain ⟨best?, -, h⟩ := exists_of_bind h
  rw [← nextSeq_noticeGenesis hg]
  have hmoved (better : Bool) (bs : Bytes)
      (hb : (if better then .ok { t₁ with pointers := t₁.pointers.insert Key.best bs }
        else .ok t₁) = (.ok t' : Except Error Trees)) : t'.nextSeq = t₁.nextSeq := by
    cases better with
    | true =>
      rw [← Except.ok.inj hb]
      exact nextSeq_congr (by rw [Tree.getElem?_insert, if_neg Key.best_ne_counter])
    | false => rw [← Except.ok.inj hb]
  exact hmoved _ _ h

theorem nextSeq_map_notice {f : Trees → β × Trees} {r : β × Trees}
    (h : (t.notice u).map f = .ok r) (hf : ∀ t, (f t).2 = t) : r.2.nextSeq = t.nextSeq := by
  cases hn : t.notice u with
  | error e => simp [hn, Except.map] at h
  | ok t₁ =>
    simp only [hn, Except.map, Except.ok.injEq] at h
    rw [← h, hf, nextSeq_notice hn]

theorem counted_insert (h : t.insert link = .ok (v, t')) : ∃ n, t'.nextSeq = .ok n := by
  cases hbs : t.links[Key.link link.hash]? with
  | some bs =>
    simp [Trees.insert, hbs, bind, Except.bind, throw, throwThe, MonadExceptOf.throw] at h
  | none =>
    cases hn : t.nextSeq with
    | error e => simp [Trees.insert, hbs, hn, bind, Except.bind] at h
    | ok n =>
      have hpushed : (t.pushed (link.withSeq n)).nextSeq = .ok (ofBigEndian (Key.seq (n + 1))) := by
        rw [nextSeq, pushed, Tree.getElem?_insert, if_pos rfl]
        simp [Key.seq]
      rw [insert_eq hbs hn] at h
      refine ⟨_, Eq.trans ?_ hpushed⟩
      split at h
      · rw [← (Prod.mk.inj (Except.ok.inj h)).2]
      · exact nextSeq_map_notice h fun _ => rfl

theorem nextSeq_promote (h : t.promote u = .ok (v?, t')) : t'.nextSeq = t.nextSeq := by
  have hfound := h
  unfold promote at hfound
  obtain ⟨o?, hf, hfound⟩ := exists_of_bind hfound
  cases o? with
  | none => simp [throw, throwThe, MonadExceptOf.throw] at hfound
  | some o =>
    by_cases hr : o.isResolved
    · simp only [hr, pure, Except.pure, if_true] at hfound
      rw [← (Prod.mk.inj (Except.ok.inj hfound)).2]
    · rw [promote_eq hf (by simpa [Link.isResolved] using hr)] at h
      split at h
      · exact nextSeq_map_notice h fun _ => rfl
      · rw [← (Prod.mk.inj (Except.ok.inj h)).2]
        rfl

theorem nextSeq_promoteAll {us : List Link} (h : promoteAll us t = .ok (vs, t')) :
    t'.nextSeq = t.nextSeq := by
  induction us generalizing t vs with
  | nil => rw [← (Prod.mk.inj (Except.ok.inj h)).2]
  | cons u us ih =>
    rw [promoteAll] at h
    obtain ⟨⟨v?, t₁⟩, hfirst, h⟩ := exists_of_bind h
    obtain ⟨⟨ws, t₂⟩, hrest, h⟩ := exists_of_bind h
    obtain ⟨-, rfl⟩ := Prod.mk.inj (Except.ok.inj h)
    rw [ih hrest, nextSeq_promote hfirst]

theorem counted_insertAndPromote {r : Link × List Link}
    (h : t.insertAndPromote link promoted = .ok (r, t')) : ∃ n, t'.nextSeq = .ok n := by
  unfold insertAndPromote at h
  obtain ⟨⟨v, t₁⟩, hi, h⟩ := exists_of_bind h
  obtain ⟨⟨vs, t₂⟩, hp, h⟩ := exists_of_bind h
  obtain ⟨-, rfl⟩ := Prod.mk.inj (Except.ok.inj h)
  rw [nextSeq_promoteAll hp]
  exact counted_insert hi

theorem nextSeq_removeOrphan (h : t.removeOrphan hash = .ok (v, t')) :
    t'.nextSeq = t.nextSeq := by
  unfold removeOrphan at h
  obtain ⟨o?, hf, h⟩ := exists_of_bind h
  cases o? with
  | none => simp [throw, throwThe, MonadExceptOf.throw] at h
  | some o =>
    by_cases hr : o.isResolved
    · simp [hr, throw, throwThe, MonadExceptOf.throw, bind, Except.bind] at h
    · simp only [hr, bind, Except.bind, pure, Except.pure] at h
      rw [← (Prod.mk.inj (Except.ok.inj h)).2]
      rfl

end Trees

namespace Shelf

variable {s t : Shelf} {act : β → StoreM Shelf α} {change : Trees → Except Error (β × Trees)}

theorem attempt_eq_error (hact : ∀ v u, ∃ w u', act v u = .ok w u')
    (h : (attempt change >>= act) s = .error e t) : t = s ∧ change s.trees = .error e := by
  cases hc : change s.trees with
  | ok r =>
    obtain ⟨w, u, hw⟩ := hact r.1 { s with trees := r.2 }
    rw [attempt_bind_ok change hc, hw] at h
    cases h
  | error e' =>
    rw [attempt_bind_error change hc] at h
    cases h
    exact ⟨rfl, rfl⟩

theorem refused {c : Call α} (hc : c.onlyReads = false) (h : answer c s = .error e t) :
    t = s ∧ (s.trees.Legible → (∀ l ∈ c.links, l.Writable) → c.Faults e) := by
  have hwritable (hw : ∀ l ∈ c.links, l.Writable) :
      ∀ l ∈ c.links, ∀ n < 2 ^ 64, (l.withSeq n).Writable :=
    fun l hl n hn => (hw l hl).withSeq hn
  cases c with
  | addLink link =>
    obtain ⟨ht, he⟩ := attempt_eq_error (fun _ _ => ⟨_, _, rfl⟩) h
    exact ⟨ht, fun hs hw => hs.spoils_insert (hwritable hw link List.mem_cons_self) e he⟩
  | updateLink link =>
    obtain ⟨ht, he⟩ := attempt_eq_error (fun _ _ => ⟨_, _, rfl⟩) h
    exact ⟨ht, fun hs hw =>
      hs.encoded.spoils_promote (hwritable hw link List.mem_cons_self) e he⟩
  | addAndPromote link promoted =>
    obtain ⟨ht, he⟩ := attempt_eq_error (fun _ _ => ⟨_, _, rfl⟩) h
    exact ⟨ht, fun hs hw => hs.spoils_insertAndPromote (hwritable hw) e he⟩
  | removeOrphan hash =>
    obtain ⟨ht, he⟩ := attempt_eq_error (fun _ _ => ⟨_, _, rfl⟩) h
    exact ⟨ht, fun hs _ => hs.encoded.spoils_removeOrphan e he⟩
  | _ => cases hc

/-- Every change leaves a counter that can be read, and no query touches it. -/
theorem Coherent.counted_answer (h : s.Coherent) (hn : ∃ n, s.trees.nextSeq = .ok n)
    (c : Call α) : ∃ n, (left (Shelf.answer c s)).trees.nextSeq = .ok n := by
  have hchange {β : Type} (change : Trees → Except Error (β × Trees)) (act : β → StoreM Shelf α)
      (hact : ∀ v u, (left (act v u)).trees = u.trees)
      (hok : ∀ v t, change s.trees = .ok (v, t) → ∃ n, t.nextSeq = .ok n) :
      ∃ n, (left ((Shelf.attempt change >>= act) s)).trees.nextSeq = .ok n := by
    cases hc : change s.trees with
    | error e =>
      rw [attempt_bind_error change hc]
      exact hn
    | ok r =>
      rw [attempt_bind_ok change hc, hact]
      exact hok r.1 r.2 hc
  have hread (hc : c.onlyReads) : ∃ n, (left (Shelf.answer c s)).trees.nextSeq = .ok n := by
    have hsame : s.Intact s.trees := ⟨h, rfl⟩
    rw [(hsame.reads hc).trees_eq]
    exact hn
  cases c with
  | addLink link =>
    exact hchange _ _ (fun v u => trees_remember) fun v t hi => Trees.counted_insert hi
  | updateLink link =>
    refine hchange _ _ (fun v? u => trees_foldl_remember v?.toList) fun v? t hp => ?_
    rw [Trees.nextSeq_promote hp]
    exact hn
  | addAndPromote link promoted =>
    exact hchange _ _ (fun v u => trees_foldl_remember (v.2 ++ [v.1]))
      fun v t hp => Trees.counted_insertAndPromote hp
  | removeOrphan hash =>
    refine hchange _ _ (fun v u => rfl) fun v t hp => ?_
    rw [Trees.nextSeq_removeOrphan hp]
    exact hn
  | _ => exact hread rfl

theorem legible_of_serves {rs : List Demand} {ns : List Nat}
    (hs : Serves (Medium.empty : Shelf) rs ns s)
    (hw : ∀ l ∈ rs.flatMap Demand.links, l.Writable) : s.trees.Legible := by
  have hkeeps := hs.keeps (P := fun u : Shelf => u.Coherent ∧ ∃ n, u.trees.nextSeq = .ok n)
    (fun c hc u hu => ⟨(hu.1.answer fun l hl => hw l (hc hl)).coherent, hu.1.counted_answer hu.2 c⟩)
    (fun u v hu hd => ⟨⟨hd.1 ▸ hu.1.encoded, fun k l hl => hd.1 ▸ hu.1.cache k l (hd.2 k l hl)⟩,
      hd.1 ▸ hu.2⟩)
    ⟨coherent_empty, 0, by simp [Medium.empty, Trees.nextSeq]⟩
  exact ⟨hkeeps.1.encoded, hkeeps.2⟩

end Shelf

section Runs

variable {σ : Type} [Medium σ] {s t : σ} {r : Demand} {rs : List Demand} {ns : List Nat}

/-- As `Serves`, but a change that would be refused is not made at all. -/
inductive Skips {σ : Type} [Medium σ] : σ → List Demand → List Nat → σ → Prop
  | done {s : σ} : Skips s [] [] s
  | make {s t : σ} {r : Demand} {rs : List Demand} {ns : List Nat} :
    (r.onlyReads ∨ ∃ v, r.reply s = .ok v) → Skips (r.after s) rs ns t →
      Skips s (r :: rs) (r.assigned s ++ ns) t
  | skip {s t : σ} {r : Demand} {e : Error} {rs : List Demand} {ns : List Nat} :
    r.onlyReads = false → r.reply s = .error e → Skips s rs ns t → Skips s (r :: rs) ns t
  | drift {s s' t : σ} {rs : List Demand} {ns : List Nat} :
    Medium.drifts s s' → Skips s' rs ns t → Skips s rs ns t

theorem Demand.assigned_of_error (h : r.reply s = .error e) : r.assigned s = [] := by
  rw [assigned, h]
  cases r with
  | call c => exact Call.places_error
  | _ => rfl

/-- A change that is refused leaves the store as it was. -/
def Atomic (σ : Type) [Medium σ] : Prop :=
  ∀ (s : σ) (r : Demand) (e : Error), r.onlyReads = false → r.reply s = .error e → r.after s = s

theorem Atomic.serves_iff (h : Atomic σ) : Serves s rs ns t ↔ Skips s rs ns t := by
  constructor
  · intro hs
    induction hs with
    | done => exact .done
    | @next s t r rs ns _ ih =>
      cases hreads : r.onlyReads with
      | true => exact .make (.inl hreads) ih
      | false =>
        cases hr : r.reply s with
        | ok v => exact .make (.inr ⟨v, hr⟩) ih
        | error e =>
          rw [h s r e hreads hr] at ih
          rw [Demand.assigned_of_error hr]
          exact .skip hreads hr ih
    | drift hd _ ih => exact .drift hd ih
  · intro hs
    induction hs with
    | done => exact .done
    | make _ _ ih => exact .next ih
    | @skip s t r e rs ns hreads hr _ ih =>
      rw [← h s r e hreads hr] at ih
      have hnext := Serves.next ih
      rwa [Demand.assigned_of_error hr] at hnext
    | drift hd _ ih => exact .drift hd ih

end Runs

theorem eq_error_of_said {σ : Type} {r : EStateM.Result Error σ α} (h : said r = .error e) :
    r = .error e (left r) := by
  cases r with
  | ok v s => cases h
  | error e' s =>
    rw [Except.error.inj h]
    rfl

/-- A change that is refused leaves a pool or a shelf as it was, cache and counter included,
and it is refused for a duplicate, a missing link, a resolved link that was to go, or a second
genesis link. A run in which such changes are made is one in which they are not. -/
theorem unchanged_of_refused {b : Backing} (hb : b ≠ .arena) (s : b.Contents) :
    (∀ r : Demand, r.onlyReads = false → ∀ e, r.reply s = .error e →
      r.after s = s ∧ r.assigned s = [] ∧
      ∀ rs ns, Serves Medium.empty rs ns s →
        (∀ l ∈ (rs ++ [r]).flatMap Demand.links, l.Writable) → r.Faults e) ∧
    ∀ rs ns t, Serves s rs ns t ↔ Skips s rs ns t := by
  have hcall {r : Demand} {e : Error} (hr : r.onlyReads = false) {s : b.Contents}
      (he : r.reply s = .error e) : r.after s = s ∧
        ∀ rs ns, Serves Medium.empty rs ns s →
          (∀ l ∈ (rs ++ [r]).flatMap Demand.links, l.Writable) → r.Faults e := by
    cases r with
    | call c =>
      cases b with
      | arena => exact absurd rfl hb
      | pool =>
        obtain ⟨hsame, hfaults⟩ := Pool.refused hr (eq_error_of_said he)
        exact ⟨hsame, fun _ _ _ _ => hfaults⟩
      | shelf =>
        obtain ⟨hsame, hfaults⟩ := Shelf.refused hr (eq_error_of_said he)
        refine ⟨hsame, fun rs ns hs hw => hfaults (Shelf.legible_of_serves hs ?_) ?_⟩
        · exact fun l hl => hw l (by simp [List.flatMap_append, hl])
        · exact fun l hl => hw l (by simp [Demand.links, hl])
    | _ => cases hr
  have hatomic : Atomic b.Contents := fun s r e hr he => (hcall hr he).1
  refine ⟨fun r hr e he => ?_, fun rs ns t => hatomic.serves_iff⟩
  obtain ⟨hsame, hfaults⟩ := hcall hr he
  exact ⟨hsame, Demand.assigned_of_error he, hfaults⟩

section Sessions

/-- The second block comes in, and then the third is found not to be there. -/
abbrev overreaching : Demand :=
  .call (.addAndPromote (.orphan .second) [.orphan .third])

theorem reply_overreaching : overreaching.reply founded =
    .error (.storage (.missing Block.third.hash)) := by
  decide +kernel

theorem unchanged_founded : overreaching.after founded = founded ∧
    overreaching.Faults (.storage (.missing Block.third.hash)) := by
  have hs : Serves (Medium.empty : Shelf) founding _ founded := .next .done
  have hw : ∀ l ∈ (founding ++ [overreaching]).flatMap Demand.links, l.Writable := by
    have hlinks : (founding ++ [overreaching]).flatMap Demand.links =
        [.genesis .first, .orphan .second, .orphan .third] := rfl
    rw [hlinks]
    simp only [List.forall_mem_cons, List.not_mem_nil, false_imp_iff, implies_true, and_true]
    refine ⟨?_, ?_, ?_⟩ <;> exact Link.writable_make (Block.writable_easy _ _) (by simp)
  obtain ⟨hstep, -⟩ := unchanged_of_refused (b := .shelf) nofun founded
  obtain ⟨hsame, -, hfaults⟩ := hstep overreaching rfl _ reply_overreaching
  exact ⟨hsame, hfaults _ _ hs hw⟩

end Sessions

end BlockTree
