import BlockTree.Proofs.Divergence
import BlockTree.Proofs.Finality
import BlockTree.Proofs.Indexes

/-! Several handles on the same trees. Each has a cache of its own, and no handle can be told
from one that was just made. -/

namespace BlockTree

structure Handles (ι : Type) where
  trees : Trees := {}
  caches : ι → Std.ExtTreeMap Bytes Link := fun _ => ∅

/-- A stored resolved link with more work than every other one, or as much and an earlier
place. -/
structure Foremost (stored : List Link) (l : Link) : Prop where
  mem : l ∈ stored
  resolved : l.isResolved
  ahead : ∀ m ∈ stored, m ≠ l → ∀ h w h' w' : Nat, l.status = .resolved h w →
    m.status = .resolved h' w' → w' < w ∨ w = w' ∧ l.seq < m.seq

/-- The link `u` is what the call has to file when the shelf has become `t`. -/
inductive Brings (s : Shelf) : Demand → Link → Shelf → Prop
  | alone {u : Link} :
    (Demand.call (.getLink u.hash)).reply s = .ok none → Brings s (.call (.addLink u)) u s
  | update {u o : Link} :
    (Demand.call (.getLink u.hash)).reply s = .ok (some o) → o.isOrphan →
      Brings s (.call (.updateLink u)) u s
  | first {u : Link} {promoted : List Link} :
    (Demand.call (.getLink u.hash)).reply s = .ok none →
      Brings s (.call (.addAndPromote u promoted)) u s
  | record {link u o stored : Link} {before after : List Link} {t : Shelf} :
    ask (.addAndPromote link before) s = .ok stored t →
      (Demand.call (.getLink u.hash)).reply t = .ok (some o) → o.isOrphan →
      Brings s (.call (.addAndPromote link (before ++ u :: after))) u t

namespace Handles

variable {ι : Type}

def handle (w : Handles ι) (i : ι) : Shelf :=
  ⟨w.trees, w.caches i⟩

/-- A handle that was just made. -/
def blank (w : Handles ι) : Shelf :=
  ⟨w.trees, ∅⟩

def ask [DecidableEq ι] (w : Handles ι) (i : ι) (r : Demand) : Handles ι where
  trees := (r.after (w.handle i)).trees
  caches := Function.update w.caches i (r.after (w.handle i)).cache

def Forgets (w v : Handles ι) : Prop :=
  v.trees = w.trees ∧
    ∀ (i : ι) (k : Bytes) (l : Link), (v.caches i)[k]? = some l → (w.caches i)[k]? = some l

/-- The demands are made in turn, each through some handle. Caches lose entries at any time. -/
inductive Shares [DecidableEq ι] : Handles ι → List (ι × Demand) → Handles ι → Prop
  | done {w : Handles ι} : Shares w [] w
  | next {w v : Handles ι} {i : ι} {r : Demand} {rs : List (ι × Demand)} :
    Shares (w.ask i r) rs v → Shares w ((i, r) :: rs) v
  | forget {w w' v : Handles ι} {rs : List (ι × Demand)} :
    w.Forgets w' → Shares w' rs v → Shares w rs v

/-- The handle has nothing at hand any more. -/
def lose [DecidableEq ι] (w : Handles ι) (i : ι) : Handles ι :=
  { w with caches := Function.update w.caches i ∅ }

theorem getElem?_lose [DecidableEq ι] (w : Handles ι) (i : ι) (k : Bytes) :
    ((w.lose i).caches i)[k]? = none := by
  simp [lose]

theorem forgets_lose [DecidableEq ι] (w : Handles ι) (i : ι) : w.Forgets (w.lose i) := by
  refine ⟨rfl, fun j k l hl => ?_⟩
  by_cases hji : j = i
  · subst hji
    rw [getElem?_lose] at hl
    cases hl
  · have hkept : (w.lose i).caches j = w.caches j := Function.update_of_ne hji ..
    rwa [hkept] at hl

/-- What all handles say. -/
structure Uniform (w : Handles ι) (stored : List Link) : Prop where
  same : ∀ (i : ι) (q : Demand), q.onlyReads → q.reply (w.handle i) = q.reply w.blank
  indexed : Indexed w.blank stored
  genesis : ∀ l, (Demand.call .genesisLink).reply w.blank = .ok (some l) ↔
    l ∈ stored ∧ ∃ work, l.status = .resolved 0 work
  no_genesis : (Demand.call .genesisLink).reply w.blank = .ok none ↔
    ∀ l ∈ stored, ∀ work, l.status ≠ .resolved 0 work
  last : ∀ l, (Demand.call .lastLink).reply w.blank = .ok (some l) ↔ Foremost stored l
  no_last : (Demand.call .lastLink).reply w.blank = .ok none ↔ ∀ l ∈ stored, l.isOrphan

end Handles

section Refusals

variable {t t' : Trees} {a : Arena} {u o : Link} {g : Hash} {before vs : List Link} {e : Error}

namespace Trees

theorem notice_refused (hg : t.pointers[Key.genesis]? = some (Key.link g)) (hne : g ≠ u.hash)
    (hu : u.isGenesis) : t.notice u = .error (.invariant (.secondGenesis u.hash g)) := by
  have hback : Hash.ofBytes (Key.link g) = g := Hash.ofBytes_bytes g
  simp [notice, noticeGenesis, hu, hg, hback, hne, bind, Except.bind]

theorem promoteAll_append_error (after : List Link)
    (hbefore : promoteAll before t = .ok (vs, t')) (hu : t'.promote u = .error e) :
    promoteAll (before ++ u :: after) t = .error e := by
  induction before generalizing t vs with
  | nil =>
    obtain ⟨-, rfl⟩ := Prod.mk.inj (Except.ok.inj hbefore)
    rw [List.nil_append, promoteAll, hu]
    rfl
  | cons v before ih =>
    rw [promoteAll] at hbefore
    obtain ⟨p, hp, hbefore⟩ := exists_of_bind hbefore
    obtain ⟨q, hq, hbefore⟩ := exists_of_bind hbefore
    obtain ⟨-, rfl⟩ := Prod.mk.inj (Except.ok.inj hbefore)
    simp only [List.cons_append, promoteAll, hp, bind, Except.bind, ih hq]

theorem insertAndPromote_append_error {link l : Link} (after : List Link)
    (hbefore : t.insertAndPromote link before = .ok ((l, vs), t')) (hu : t'.promote u = .error e) :
    t.insertAndPromote link (before ++ u :: after) = .error e := by
  unfold insertAndPromote at hbefore
  obtain ⟨p, hi, hbefore⟩ := exists_of_bind hbefore
  obtain ⟨q, hq, hbefore⟩ := exists_of_bind hbefore
  obtain ⟨-, rfl⟩ := Prod.mk.inj (Except.ok.inj hbefore)
  simp only [insertAndPromote, hi, bind, Except.bind, promoteAll_append_error after hq hu]

namespace Hold

variable (h : t.Hold a) (hg : a.genesis? = some g) (hne : g ≠ u.hash) (hu : u.isGenesis)

include h hg hne hu

theorem insert_refused (hfresh : a.find? u.hash = none) :
    t.insert u = .error (.invariant (.secondGenesis u.hash g)) := by
  have hnone : t.links[Key.link u.hash]? = none := by
    rw [h.links, hfresh]
    rfl
  have hnot : u.isOrphan = false :=
    Link.isOrphan_eq_false_iff.mpr (Link.isResolved_of_isGenesis hu)
  have hpointer : (t.pushed (u.withSeq a.nextSeq)).pointers[Key.genesis]? = some (Key.link g) := by
    rw [pushed, Tree.getElem?_insert, if_neg Key.genesis_ne_counter.symm, h.genesis, hg]
    rfl
  have hrefused := notice_refused hpointer (u := u.withSeq a.nextSeq) hne hu
  rw [insert_eq hnone h.counter, if_neg (by simp [hnot]), hrefused]
  rfl

theorem promote_refused (hf : a.find? u.hash = some o) (ho : o.isOrphan) :
    t.promote u = .error (.invariant (.secondGenesis u.hash g)) := by
  have hfind : t.find? (Key.link u.hash) = .ok (some o) := by
    rw [h.find?, hf]
  have hpointer : (t.revised (u.withSeq o.seq)).pointers[Key.genesis]? = some (Key.link g) := by
    rw [revised, h.genesis, hg]
    rfl
  have hrefused := notice_refused hpointer (u := u.withSeq o.seq) hne hu
  rw [promote_eq hfind ho, if_pos (Link.isResolved_of_isGenesis hu), hrefused]
  rfl

end Hold

end Trees

namespace Shelf

variable {s s' : Shelf} {link l : Link}

theorem exists_of_batch (h : ask (.addAndPromote link before) s = .ok l s') :
    ∃ vs, s.trees.insertAndPromote link before = .ok ((l, vs), s'.trees) := by
  change (attempt (fun t => t.insertAndPromote link before) >>= _) s = _ at h
  cases hc : s.trees.insertAndPromote link before with
  | error e =>
    rw [attempt_bind_error (fun t : Trees => t.insertAndPromote link before) hc] at h
    cases h
  | ok p =>
    rw [attempt_bind_ok (fun t : Trees => t.insertAndPromote link before) hc] at h
    obtain ⟨rfl, rfl⟩ := EStateM.Result.ok.inj h
    have htrees : ((p.1.2 ++ [p.1.1]).foldl remember { s with trees := p.2 }).trees = p.2 :=
      trees_foldl_remember _
    exact ⟨p.1.2, congrArg (fun t => Except.ok (p.1, t)) htrees.symm⟩

end Shelf

end Refusals

section Handles

variable {ι : Type} [DecidableEq ι] {w v : Handles ι} {i : ι} {s t : Shelf} {a : Arena} {r : Demand}
  {rs : List (ι × Demand)} {parent : Hash → Hash} {more : List Link} {hash : Hash}
  {l u o g : Link}

theorem Demand.lasts_inTurn (hk : a.Kept parent) (hsuits : ∀ l ∈ r.links, l.Suits parent)
    (hl : a.find? hash = some l) (hr : l.isResolved) :
    (left (r.runInTurn a)).find? hash = some l := by
  have hsame {b : Arena} (he : b = a) : b.find? hash = some l := he ▸ hl
  cases r with
  | parentOf link => exact hsame Arena.left_parentOf
  | claimedLink link input => exact hsame Arena.left_firstWithin
  | claimerLink link input => exact hsame Arena.left_firstWithin
  | call c =>
    cases c with
    | addAndPromote link promoted =>
      rw [runInTurn_batch, Arena.attempt]
      cases hturn : a.insertInTurn link promoted with
      | error e => exact hl
      | ok q =>
        obtain ⟨-, hkeeps, -⟩ := hk.insertInTurn (hsuits link List.mem_cons_self)
          (fun u hu => hsuits u (List.mem_cons_of_mem _ hu)) hturn
        exact hkeeps hl hr
    | addLink link => exact Arena.lasts hl hr (.addLink link)
    | updateLink link => exact Arena.lasts hl hr (.updateLink link)
    | removeOrphan gone => exact Arena.lasts hl hr (.removeOrphan gone)
    | _ => exact hl

theorem Arena.isBest_iff_foremost : a.IsBest l ↔ Foremost a.links l := by
  constructor
  · intro hl
    refine ⟨hl.mem, hl.resolved, fun m hm hne h w h' w' hs hs' => ?_⟩
    exact (Link.betterTip_all_iff hs).mp hl.better m hm hne h' w' hs'
  · intro hl
    obtain ⟨h, w, hs⟩ := Link.isResolved_iff.mp hl.resolved
    refine ⟨hl.mem, hl.resolved, (Link.betterTip_all_iff hs).mpr fun m hm hne h' w' => ?_⟩
    exact hl.ahead m hm hne h w h' w' hs

namespace Paired

theorem genesis_of_reply (h : Paired parent s a more)
    (hg : (Demand.call .genesisLink).reply s = .ok (some g)) :
    a.genesis? = some g.hash ∧ a.find? g.hash = some g ∧ g.isResolved := by
  have hfound : a.genesis?.bind a.find? = some g := Except.ok.inj ((h.reads rfl).symm.trans hg)
  obtain ⟨hmem, hgenesis⟩ := (h.kept.pointed.genesis_iff h.kept.ordered).mp hfound
  exact ⟨h.kept.pointed.genesis_eq g hmem hgenesis, h.kept.ordered.find?_mem hmem,
    Link.isResolved_of_isGenesis hgenesis⟩

theorem find?_of_reply {l? : Option Link} (h : Paired parent s a more)
    (hl : (Demand.call (.getLink hash)).reply s = .ok l?) : a.find? hash = l? :=
  Except.ok.inj ((h.reads rfl).symm.trans hl)

section Refusals

variable (hg : (Demand.call .genesisLink).reply s = .ok (some g)) (hu : u.isGenesis)

include hg hu

theorem insert_refused (h : Paired parent s a more)
    (hnone : (Demand.call (.getLink u.hash)).reply s = .ok none) :
    s.trees.insert u = .error (.invariant (.secondGenesis u.hash g.hash)) := by
  obtain ⟨hpointer, hfound, -⟩ := h.genesis_of_reply hg
  have hfresh := h.find?_of_reply hnone
  have hne : g.hash ≠ u.hash := (Arena.ne_of_fresh hfound hfresh).symm
  exact h.holds.trees.insert_refused hpointer hne hu hfresh

theorem promote_refused (h : Paired parent s a more)
    (horphan : (Demand.call (.getLink u.hash)).reply s = .ok (some o)) (ho : o.isOrphan) :
    s.trees.promote u = .error (.invariant (.secondGenesis u.hash g.hash)) := by
  obtain ⟨hpointer, hfound, hr⟩ := h.genesis_of_reply hg
  have hwaits := h.find?_of_reply horphan
  have hne : g.hash ≠ u.hash := (Arena.ne_of_waits hfound hr hwaits ho).symm
  exact h.holds.trees.promote_refused hpointer hne hu hwaits ho

end Refusals

/-- The first records of a batch, as a batch of their own. -/
theorem of_batch {link stored : Link} {before after : List Link}
    (h : Paired parent s a ((link :: (before ++ after)) ++ more))
    (hbatch : ask (.addAndPromote link before) s = .ok stored t) :
    ∃ b, Paired parent t b [] := by
  have hsub : ((link :: before) ++ []).Sublist ((link :: (before ++ after)) ++ more) := by
    have hbefore := List.sublist_append_left before after
    exact (hbefore.cons_cons link).append (List.nil_sublist more)
  have hfewer : Paired parent s a ((Demand.call (.addAndPromote link before)).links ++ []) :=
    h.mono hsub
  have hleft : (Demand.call (.addAndPromote link before)).after s = t := congrArg left hbatch
  exact ⟨_, hleft ▸ hfewer.inTurn.2⟩

/-- No call files a second genesis link, and one that tries to leaves the shelf as it was. -/
theorem refuses (h : Paired parent s a (r.links ++ more)) (ho : Brings s r u t)
    (hu : u.isGenesis) (hg : (Demand.call .genesisLink).reply t = .ok (some g)) :
    r.run s = .error (.invariant (.secondGenesis u.hash g.hash)) s := by
  cases ho with
  | alone hnone =>
    exact Shelf.attempt_bind_error (fun t : Trees => t.insert u) (h.insert_refused hg hu hnone)
  | update horphan ho =>
    have herror := h.promote_refused hg hu horphan ho
    exact Shelf.attempt_bind_error (fun t : Trees => t.promote u) herror
  | @first u promoted hnone =>
    have herror : s.trees.insertAndPromote u promoted =
        .error (.invariant (.secondGenesis u.hash g.hash)) := by
      simp only [Trees.insertAndPromote, h.insert_refused hg hu hnone, bind, Except.bind]
    exact Shelf.attempt_bind_error (fun t : Trees => t.insertAndPromote u promoted) herror
  | @record link u o stored before after t hbatch horphan ho =>
    obtain ⟨b, hb⟩ := h.of_batch hbatch
    obtain ⟨vs, hbefore⟩ := Shelf.exists_of_batch hbatch
    have herror := Trees.insertAndPromote_append_error after hbefore
      (hb.promote_refused hg hu horphan ho)
    exact Shelf.attempt_bind_error
      (fun t : Trees => t.insertAndPromote link (before ++ u :: after)) herror

end Paired

namespace Handles

/-- All handles are of the same links. -/
structure Shown (parent : Hash → Hash) (w : Handles ι) (a : Arena) (more : List Link) : Prop where
  blank : Paired parent w.blank a more
  cached : ∀ (i : ι) (h : Hash) (l : Link), (w.caches i)[h.bytes]? = some l →
    a.find? h = some l ∧ l.isResolved

theorem caches_ask :
    (w.ask i r).caches = Function.update w.caches i (r.after (w.handle i)).cache :=
  rfl

namespace Shown

omit [DecidableEq ι] in
theorem handle (h : w.Shown parent a more) (i : ι) : Paired parent (w.handle i) a more :=
  { h.blank with holds := ⟨h.blank.holds.trees, h.cached i⟩ }

theorem ask (h : w.Shown parent a (r.links ++ more)) (i : ι) :
    (w.ask i r).Shown parent (left (r.runInTurn a)) more := by
  obtain ⟨-, hafter⟩ := (h.handle i).inTurn
  refine ⟨{ hafter with holds := ⟨hafter.holds.trees, by simp [Handles.blank]⟩ }, ?_⟩
  intro j hash l hl
  by_cases hji : j = i
  · subst hji
    rw [caches_ask, Function.update_self] at hl
    exact hafter.holds.cache hash l hl
  · rw [caches_ask, Function.update_of_ne hji] at hl
    obtain ⟨hf, hr⟩ := h.cached j hash l hl
    refine ⟨Demand.lasts_inTurn h.blank.kept (fun l hl => ?_) hf hr, hr⟩
    exact h.blank.suits l (List.mem_append_left _ hl)

omit [DecidableEq ι] in
theorem forget (h : w.Shown parent a more) (hd : w.Forgets v) : v.Shown parent a more := by
  have hblank : v.blank = w.blank := by
    rw [Handles.blank, hd.1]
    rfl
  exact ⟨hblank ▸ h.blank, fun i hash l hl => h.cached i hash l (hd.2 i hash.bytes l hl)⟩

theorem run (h : w.Shown parent a (rs.flatMap (fun q => q.2.links) ++ more))
    (hw : Shares w rs v) : ∃ b, v.Shown parent b more := by
  induction hw generalizing a with
  | done => exact ⟨a, h⟩
  | next _ ih =>
    rw [List.flatMap_cons, List.append_assoc] at h
    exact ih (h.ask _)
  | forget hd _ ih => exact ih (h.forget hd)

omit [DecidableEq ι] in
theorem uniform (h : w.Shown parent a more) : w.Uniform a.links := by
  have ho := h.blank.kept.ordered
  have hp := h.blank.kept.pointed
  have hgenesis : (Demand.call .genesisLink).reply w.blank = .ok (a.genesis?.bind a.find?) :=
    h.blank.reads rfl
  have hlast : (Demand.call .lastLink).reply w.blank = .ok (a.best?.bind a.find?) :=
    h.blank.reads rfl
  refine ⟨fun i q hq => ?_, (Tracked.of_paired h.blank).indexed, fun l => ?_, ?_, fun l => ?_, ?_⟩
  · rw [(h.handle i).reply_inTurn hq, h.blank.reply_inTurn hq]
  · rw [hgenesis, Except.ok.injEq, hp.genesis_iff ho, Link.isGenesis_iff]
  · rw [hgenesis, Except.ok.injEq, Option.eq_none_iff_forall_ne_some]
    simp only [ne_eq, hp.genesis_iff ho, Link.isGenesis_iff, not_and, not_exists]
  · rw [hlast, Except.ok.injEq, hp.best_iff ho, Arena.isBest_iff_foremost]
  · rw [hlast, Except.ok.injEq, hp.best_eq_none_iff ho]

end Shown

end Handles

/-- Whatever was asked through whatever handle, all of them say the same, and what a handle
with an empty cache says. -/
theorem uniform_of_shares (hw : Handles.Shares {} rs w)
    (h : Storable (rs.flatMap (fun q => q.2.links) ++ r.links)) :
    (∃ stored, w.Uniform stored) ∧
      ∀ i u g t, Brings (w.handle i) r u t → u.isGenesis →
        (Demand.call .genesisLink).reply t = .ok (some g) →
        r.run (w.handle i) = .error (.invariant (.secondGenesis u.hash g.hash)) (w.handle i) := by
  obtain ⟨parent, hempty⟩ := Paired.empty h
  have hshown : ({} : Handles ι).Shown parent {} (rs.flatMap (fun q => q.2.links) ++ r.links) :=
    ⟨hempty, by simp⟩
  obtain ⟨a, ha⟩ := hshown.run hw
  refine ⟨⟨a.links, ha.uniform⟩, fun i u g t ho hu hg => ?_⟩
  rw [← List.append_nil r.links] at ha
  exact (ha.handle i).refuses ho hu hg

end Handles

section Sessions

/-- The second block comes in through one handle. The first one comes in through the other,
which resolves both, and then the one handle reads them. -/
def sharing : List (Bool × Demand) :=
  [(false, .call (.addLink (.orphan .second))),
    (true, .call (.addAndPromote (.genesis .first) [.resolved .second 1 1])),
    (false, .call (.getLink Block.first.hash)), (false, .call (.getLink Block.second.hash))]

def shared : Handles Bool :=
  sharing.foldl (fun w q => w.ask q.1 q.2) {}

/-- One of the handles has lost all that it had at hand. -/
def emptied : Handles Bool :=
  shared.lose true

theorem shares_emptied : Handles.Shares {} sharing emptied :=
  .next (.next (.next (.next (.forget (shared.forgets_lose true) .done))))

def firstPlaced : Link :=
  (Link.genesis .first).withSeq 1

theorem emptied_computed :
    ([Block.first, .second, .rival].map Block.hash).Nodup ∧
    (shared.caches true)[Block.first.hash.bytes]? = some firstPlaced ∧
    (emptied.caches false)[Block.first.hash.bytes]? = some firstPlaced ∧
    (Demand.call (.getLink Block.first.hash)).reply emptied.blank = .ok (some firstPlaced) ∧
    (Demand.call (.getLink Block.rival.hash)).reply emptied.blank = .ok none ∧
    (Demand.call .genesisLink).reply emptied.blank = .ok (some firstPlaced) := by
  decide +kernel

theorem storable_sharing :
    Storable (sharing.flatMap (fun q => q.2.links) ++ [.genesis .rival]) := by
  have hlinks : sharing.flatMap (fun q => q.2.links) ++ [.genesis .rival] =
      [.orphan .second, .genesis .first, .resolved .second 1 1, .genesis .rival] := rfl
  rw [hlinks]
  refine storable_of_nodup emptied_computed.1 ?_ (by simp)
  simp only [List.forall_mem_cons, List.not_mem_nil, false_imp_iff, implies_true, and_true]
  refine ⟨⟨?_, _, .tail _ (.head _), _, rfl⟩, ⟨?_, _, .head _, _, rfl⟩,
    ⟨?_, _, .tail _ (.head _), _, rfl⟩, ⟨?_, _, .tail _ (.tail _ (.head _)), _, rfl⟩⟩ <;>
    exact Link.writable_make (Block.writable_easy _ _) (by simp)

/-- The first block is at hand for one handle, and the other has lost it: both know it, and
both refuse another genesis block. -/
theorem uniform_emptied : ∃ stored, Handles.Shares {} sharing emptied ∧ emptied.Uniform stored ∧
    (shared.caches true)[Block.first.hash.bytes]? = some firstPlaced ∧
    (emptied.caches true)[Block.first.hash.bytes]? = none ∧
    (emptied.caches false)[Block.first.hash.bytes]? = some firstPlaced ∧
    ∀ i, (Demand.call (.getLink Block.first.hash)).reply (emptied.handle i) =
        .ok (some firstPlaced) ∧
      (Demand.call (.addLink (.genesis .rival))).run (emptied.handle i) =
        .error (.invariant (.secondGenesis Block.rival.hash Block.first.hash))
          (emptied.handle i) := by
  obtain ⟨-, hhad, hhas, hfirst, hrival, hgenesis⟩ := emptied_computed
  obtain ⟨⟨stored, huniform⟩, hrefuses⟩ := uniform_of_shares
    (r := .call (.addLink (.genesis .rival))) shares_emptied storable_sharing
  refine ⟨stored, shares_emptied, huniform, hhad, shared.getElem?_lose true _, hhas, fun i => ?_⟩
  have hnew : (Demand.call (.getLink Block.rival.hash)).reply (emptied.handle i) = .ok none :=
    (huniform.same i _ rfl).trans hrival
  exact ⟨(huniform.same i _ rfl).trans hfirst, hrefuses i _ _ _ (.alone hnew) rfl
    ((huniform.same i _ rfl).trans hgenesis)⟩

end Sessions

end BlockTree
