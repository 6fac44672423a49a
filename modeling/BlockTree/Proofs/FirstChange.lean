import BlockTree.Proofs.BranchChanges

/-! The first move of the tip. It leads to the genesis link unless orphans were waiting for
that link, and a listener ends with the active path just when it does. -/

namespace BlockTree

namespace Arena

variable {a : Arena} {l : Link}

/-- The genesis link is the best one only as long as it is alone. -/
theorem Sound.isGenesis_best_iff (ha : a.Sound) (h : a.IsBest l) :
    l.isGenesis ↔ ∀ m ∈ a.links, m.isResolved → m = l := by
  constructor
  · intro hg m hm hr
    by_contra hne
    have hmg : m.isGenesis = false := by
      apply Bool.eq_false_iff.mpr
      intro hmg
      have he := ha.pointed.genesis_eq l h.mem hg
      rw [ha.pointed.genesis_eq m hm hmg] at he
      exact hne (ha.ordered.eq_of_hash hm h.mem (Option.some.inj he))
    obtain ⟨height, work, hs⟩ := Link.isResolved_iff.mp hr
    have hroot := ha.chained.root l h.mem (ha.chained.isZero_of_isGenesis h.mem hg)
    have hpos := ha.chained.work_pos hm hs hmg
    have hbetter := (Link.betterTip_iff hroot hs).mp (h.better m hm hr hne)
    omega
  · intro hall
    obtain ⟨path, hpath⟩ := ha.chained.exists_lineage h.mem h.resolved
    obtain ⟨g, hg, hgenesis⟩ := hpath.exists_genesis
    obtain ⟨hmem, hr⟩ := hpath.subset g hg
    rw [← hall g hmem hr]
    exact hgenesis

theorem Sound.genesisLink_iff (ha : a.Sound) :
    a.genesis?.bind a.find? = some l ↔ l ∈ a.links ∧ l.isGenesis :=
  ha.pointed.genesis_iff ha.ordered

end Arena

namespace Node

section Firsts

variable {x : Node Arena} {block : Block} {l : Link}

/-- Where nothing was resolved before, the new link is, and what it promotes. -/
theorem Sound.isGenesis_first_iff (hx : x.Sound) (hf : x.Fresh block)
    (hwait : ∀ m ∈ x.store.links, m.isOrphan) (hbest : (x.taken block).store.IsBest l) :
    l.isGenesis ↔ x.store.promotions block (x.store.place block) = [] := by
  have halone := (hx.taken hf).arena.isGenesis_best_iff hbest
  constructor
  · intro hg
    by_contra hne
    obtain ⟨u, hu⟩ := List.exists_mem_of_ne_nil _ hne
    obtain ⟨hur, hug⟩ := (hx.files_taken hf).lifted u hu
    have hul : u = l := halone.mp hg u ((hx.mem_taken_iff hf).mpr (.inr (.inl hu))) hur
    rw [hul, hg] at hug
    cases hug
  · intro hnone
    have honly : ∀ m ∈ (x.taken block).store.links, m.isResolved → m = x.stored block := by
      intro m hm hr
      rcases (hx.mem_taken_iff hf).mp hm with hm | hm | ⟨hm, -⟩
      · exact hm
      · simp [hnone] at hm
      · have ho := hwait m (mem_of_mem_cleared hm)
        simp [Link.isResolved, ho] at hr
    refine halone.mpr fun m hm hr => ?_
    rw [honly m hm hr, honly l hbest.mem hbest.resolved]

end Firsts

variable {b : Backing} {config : ConsensusConfig} {n m : b.Ledger} {x : Node Arena}
  {ds : List Delivery} {change : BranchChange} {changes : List BranchChange}

theorem Shows.tells_genesisLink {F : Prop} (h : Node.Shows F n x) (hx : x.Sound) {l : Link} :
    n.Tells .genesisLink (some l) ↔ l ∈ x.store.links ∧ l.isGenesis := by
  rw [h.tells hx.arena .genesisLink trivial rfl, eq_comm, hx.arena.genesisLink_iff]

/-- What a listener does with a move: a first one is applied as it is, and any other by
the links between its tips. -/
def listen (n : b.Ledger) (change : BranchChange) : Follower Unit :=
  match change.old? with
  | none => Follower.apply change.new
  | some old =>
    match Delta.between old change.new n.store.store with
    | .ok d _ => d.follow
    | .error .. => failure

/-- The links of the active path, of which there are none without a tip. -/
def ActiveLinks (n : b.Ledger) (links : List Link) : Prop :=
  (∃ p s, activePath n.store.store = .ok p s ∧ p.links = links) ∨
    n.Tells .lastLink none ∧ links = []

theorem Shows.exists_active {F : Prop} (h : Node.Shows F n x) (hx : x.Sound) {tip : Link}
    {path : List Link} (hbest : x.store.bestLink? = some tip) (hpath : x.store.Lineage tip path) :
    n.ActiveLinks path.reverse := by
  have hlast : BlockTree.Reads (σ := b.Contents) False (ask .lastLink) x.store (· = some tip) :=
    .ask hx.arena trivial rfl hbest
  have hread : BlockTree.Reads (σ := b.Contents) False activePath x.store
      fun p => p.links = path.reverse := by
    refine hlast.bind ?_
    intro best? hbest?
    rw [hbest?]
    exact hx.arena.reads_toLink hpath
  obtain ⟨p, s, hrun, hp⟩ := h.exists_read hread
  exact .inl ⟨p, s, hrun, hp⟩

theorem Shows.exists_delta {F : Prop} (h : Node.Shows F n x) (hx : x.Sound)
    (hchange : x.store.Explains change) {old : Link} (hold : change.old? = some old) :
    ∃ oldPath newPath, ∃ d : Delta, x.store.Lineage old oldPath ∧
      x.store.Lineage change.new newPath ∧ d.Parts [] [] oldPath newPath ∧
        n.listen change = d.follow := by
  obtain ⟨oldPath, newPath, -, ho, hn, -⟩ := hchange.common_some old hold
  obtain ⟨d, s, hrun, hd⟩ := h.exists_read (hx.arena.reads_between ho hn)
  exact ⟨oldPath, newPath, d, ho, hn, hd, by simp only [listen, hold, hrun]⟩

section Listening

variable {F : Prop} {tip last : Link} {path lastPath : List Link} (h : Node.Shows F n x)
  (hx : x.Sound) (hexplains : ∀ change ∈ changes, x.store.Explains change)

include h hx hexplains

theorem Shows.listen_all (hleads : Leads (some tip) changes (some last))
    (hpath : x.store.Lineage tip path) (hlast : x.store.Lineage last lastPath) :
    changes.forM n.listen path = some ((), lastPath) := by
  induction changes generalizing tip path with
  | nil =>
    cases hleads
    rw [hpath.unique hx.arena.ordered hlast]
    rfl
  | cons change changes ih =>
    obtain ⟨hold, hrest⟩ := hleads
    obtain ⟨oldPath, newPath, d, ho, hn, hd, hlisten⟩ :=
      h.exists_delta hx (hexplains change (by simp)) hold
    have hsame : path = oldPath := hpath.unique hx.arena.ordered ho
    rw [Follower.forM_cons, hlisten, hsame, hd.follow]
    exact ih (fun c hc => hexplains c (by simp [hc])) hrest hn

/-- No move between two tips brings in the genesis link. -/
theorem Shows.mem_of_listen {last? : Option Link} (hleads : Leads (some tip) changes last?)
    {stack after : List Link} (hrun : changes.forM n.listen stack = some ((), after)) :
    ∀ l ∈ after, l.isGenesis → l ∈ stack := by
  induction changes generalizing tip stack with
  | nil =>
    cases hrun
    exact fun l hl _ => hl
  | cons change changes ih =>
    obtain ⟨hold, hrest⟩ := hleads
    obtain ⟨oldPath, newPath, d, ho, hn, hd, hlisten⟩ :=
      h.exists_delta hx (hexplains change (by simp)) hold
    rw [Follower.forM_cons] at hrun
    obtain ⟨⟨⟨⟩, middle⟩, hstep, hthen⟩ := Option.bind_eq_some_iff.mp hrun
    intro l hl hg
    have hmiddle : l ∈ middle := ih (fun c hc => hexplains c (by simp [hc])) hrest hthen l hl hg
    rw [hlisten] at hstep
    rcases Delta.subset_of_follow hstep l hmiddle with happly | hstack
    · rw [hd.isGenesis_apply hn l happly] at hg
      cases hg
    · exact hstack

theorem Shows.listens_iff (hsettled : x.engine.tip? = x.store.bestLink?)
    (hleads : Leads none changes x.engine.tip?) :
    ∃ links, n.ActiveLinks links ∧
      (changes.forM n.listen [] = some ((), links.reverse) ↔ ∀ change ∈ changes,
        change.old? = none → n.Tells .genesisLink (some change.new)) := by
  cases changes with
  | nil =>
    have hnone : n.Tells .lastLink none :=
      (h.tells hx.arena .lastLink trivial rfl).mpr (hleads.trans hsettled)
    exact ⟨[], .inr ⟨hnone, rfl⟩, fun _ => by simp, fun _ => rfl⟩
  | cons change changes =>
    obtain ⟨hold, hrest⟩ := hleads
    obtain ⟨last, hlast⟩ := hrest.exists_last
    have hbest : x.store.bestLink? = some last := hsettled.symm.trans hlast
    obtain ⟨hmem, hr⟩ := hx.tip last hlast
    obtain ⟨lastPath, hlastPath⟩ := hx.arena.chained.exists_lineage hmem hr
    obtain ⟨path, hpath⟩ := (hexplains change (by simp)).new
    have hlater : ∀ c ∈ changes, x.store.Explains c := fun c hc => hexplains c (by simp [hc])
    refine ⟨lastPath.reverse, h.exists_active hx hbest hlastPath, ?_⟩
    have hstart : (change :: changes).forM n.listen [] = changes.forM n.listen [change.new] := by
      rw [Follower.forM_cons, listen, hold]
      rfl
    rw [hstart, List.reverse_reverse]
    rw [hlast] at hrest
    constructor
    · intro hrun c hc hnone
      rcases List.mem_cons.mp hc with he | hc
      · -- the genesis link of the active path can only be the one that was applied first
        obtain ⟨g, hmem, hg⟩ := hlastPath.exists_genesis
        have hroot : g = change.new :=
          List.mem_singleton.mp (h.mem_of_listen hx hlater hrest hrun g hmem hg)
        rw [he]
        exact (h.tells_genesisLink hx).mpr ⟨hpath.mem_links, hroot ▸ hg⟩
      · exact absurd hnone (hrest.old_ne_none c hc)
    · intro hall
      -- the path to the genesis link is that link alone, which is what the stack holds
      obtain ⟨-, hg⟩ := (h.tells_genesisLink hx).mp (hall change (by simp) hold)
      obtain ⟨rest, hhead⟩ := hpath.head_eq
      have hsplit : path = [] ++ change.new :: rest := hhead
      have halone : path = [change.new] := by
        rw [hhead, (hpath.isGenesis_iff hsplit).mp hg]
      rw [halone] at hpath
      exact h.listen_all hx hlater hrest hpath hlastPath

end Listening

/-- Without failing calls, a first move leads to the genesis link if and only if no orphan
was promoted with it. A listener to all moves ends with the active path if and only if
the first of them leads there. -/
theorem listens_iff_of_opened (h : Opened (· = config) n) (hcalm : n.store.outages = [])
    (hroom : n.HasRoom ds) :
    (∀ now block o m change, Medium.room (n.feed ds).store block →
      submit now block (n.feed ds) = .ok o m → o.change? = some change → change.old? = none →
        (m.Tells .genesisLink (some change.new) ↔ o.promoted = [])) ∧
    ∃ links, (n.feed ds).ActiveLinks links ∧
      ((n.changes ds).forM (n.feed ds).listen [] = some ((), links.reverse) ↔
        ∀ change ∈ n.changes ds, change.old? = none →
          (n.feed ds).Tells .genesisLink (some change.new)) := by
  obtain ⟨hshows, hsound⟩ := h.shows_calm hcalm
  obtain ⟨x, hx, hall⟩ := hshows.feed hsound hroom
  have hxs := (hall.sound hsound).1
  have hsettled := hall.settled rfl
  have hpublishes := hall.publishes hsound
  refine ⟨?_, hx.listens_iff hxs hpublishes.explains hsettled hpublishes.leads⟩
  intro now block o m change hnext hrun hchange hold
  have hfits : Faithful.fits (Unreliable b.Contents) x.store.nextSeq block :=
    Faithful.fits_of_room hx.2.1 hnext
  obtain ⟨y, hy, ho⟩ := (ends_submit hxs fun _ => hfits).of_ok hx hrun
  have hf := hxs.fresh ho.admitted
  have hsettles := ho.settles
  have hys := hsettles.sound (hxs.taken hf)
  have hstore := hsettles.store_eq
  rw [hchange] at hsettles
  have hmoves := hsettles.2
  have hnone : x.store.bestLink? = none := by
    rw [← hsettled, ← tip_taken x block, ← hmoves.old, hold]
  have hbest := (hxs.taken hf).arena.bestLink?_eq_some hmoves.best
  have hfirst := hxs.isGenesis_first_iff hf (hxs.arena.bestLink?_eq_none hnone) hbest
  rw [hy.tells_genesisLink hys, hstore, hfirst, ho.promoted_eq, List.map_eq_nil_iff,
    and_iff_right hbest.mem]

def startsAtGenesis (n : Backing.arena.Ledger) (change : BranchChange) : Bool :=
  change.old?.isSome ||
    (Arena.genesis? n.store.store).bind (Arena.find? n.store.store) = some change.new

theorem startsAtGenesis_iff {n : Backing.arena.Ledger} : n.startsAtGenesis change ↔
    (change.old? = none → n.Tells .genesisLink (some change.new)) := by
  cases hold : change.old? with
  | some old => simp [startsAtGenesis, hold]
  | none =>
    simp only [startsAtGenesis, hold, Option.isSome_none, Bool.false_or, decide_eq_true_eq,
      forall_const]
    constructor
    · intro hlink
      exact ⟨n.store.store, congrArg (EStateM.Result.ok · n.store.store) hlink⟩
    · intro htells
      obtain ⟨s, hs⟩ := htells
      exact (EStateM.Result.ok.inj hs).1

theorem upwards_starts : ((started {} []).changes upwards).all
    ((started {} []).feed upwards).startsAtGenesis := by
  decide +kernel

theorem first_computed :
    (match submit 0 .first (started {} []) with
      | .ok o _ => o.promoted.isEmpty && o.change?.any fun change => change.old?.isNone
      | .error .. => false) = true := by
  decide +kernel

theorem listens_upwards :
    (∃ o m change, submit 0 .first (started {} []) = .ok o m ∧ o.change? = some change ∧
      change.old? = none ∧ m.Tells .genesisLink (some change.new)) ∧
    ∃ links, ((started {} []).feed upwards).ActiveLinks links ∧
      ((started {} []).changes upwards).forM ((started {} []).feed upwards).listen [] =
        some ((), links.reverse) := by
  have hopened : Opened (· = {}) (started {} []) := opened_started rfl (by decide)
  constructor
  · obtain ⟨hgenesis, -⟩ := listens_iff_of_opened hopened rfl (hasRoom_arena _ [])
    have hcomputed := first_computed
    cases hrun : submit 0 .first (started {} []) with
    | error e m => simp [hrun] at hcomputed
    | ok o m =>
      simp only [hrun, Bool.and_eq_true, List.isEmpty_iff] at hcomputed
      obtain ⟨hnone, hany⟩ := hcomputed
      obtain ⟨change, hchange, hold⟩ := (Option.any_eq_true _ _).mp hany
      have hold : change.old? = none := Option.isNone_iff_eq_none.mp hold
      exact ⟨o, m, change, rfl, hchange, hold,
        (hgenesis 0 .first o m change trivial hrun hchange hold).mpr hnone⟩
  · obtain ⟨-, links, hactive, hlisten⟩ :=
      listens_iff_of_opened hopened rfl (hasRoom_arena _ upwards)
    have hstarts := List.all_eq_true.mp upwards_starts
    exact ⟨links, hactive, hlisten.mpr fun c hc => startsAtGenesis_iff.mp (hstarts c hc)⟩

theorem downwards_starts : ((started {} []).changes upwards.reverse).all
    ((started {} []).feed upwards.reverse).startsAtGenesis = false := by
  decide +kernel

/-- With the parent last, both links are resolved at once and the first move is to the
upper one. -/
theorem not_genesis_first_downwards :
    ¬ ∀ (n : Backing.arena.Ledger) (ds : List Delivery), Opened (fun _ => True) n →
      n.store.outages = [] → n.HasRoom ds → ∀ change ∈ n.changes ds, change.old? = none →
        (n.feed ds).Tells .genesisLink (some change.new) := by
  intro h
  have hopened : Opened (fun _ => True) (started {} []) := opened_started trivial (by decide)
  have hall := h _ upwards.reverse hopened rfl (hasRoom_arena _ _)
  have hstarts : ((started {} []).changes upwards.reverse).all
      ((started {} []).feed upwards.reverse).startsAtGenesis :=
    List.all_eq_true.mpr fun c hc => startsAtGenesis_iff.mpr (hall c hc)
  rw [downwards_starts] at hstarts
  cases hstarts

end Node

end BlockTree
