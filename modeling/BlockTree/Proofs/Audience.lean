import BlockTree.Proofs.Broadcast
import BlockTree.Proofs.BranchChanges
import BlockTree.Proofs.OrphanPool
import Mathlib.Data.List.Induction

/-! An engine and those who listen to it. Blocks come in, calls fail, listeners come and go
and read at any times. Every move of the tip goes up, so a listener sees what it missed. -/

namespace BlockTree

/-- The tips that moves lead to, after the one they start from. -/
def tips (first? : Option Link) (changes : List BranchChange) : List Link :=
  first?.toList ++ changes.map BranchChange.new

namespace Leads

variable {first? last? : Option Link} {changes more : List BranchChange} {e f : BranchChange}

theorem of_append (h : Leads first? (changes ++ more) last?) :
    ∃ middle?, Leads first? changes middle? ∧ Leads middle? more last? := by
  induction changes generalizing first? with
  | nil => exact ⟨first?, rfl, h⟩
  | cons change changes ih =>
    obtain ⟨hold, hrest⟩ := h
    obtain ⟨middle?, hfirst, hthen⟩ := ih hrest
    exact ⟨middle?, ⟨hold, hfirst⟩, hthen⟩

theorem pairwise_betterTip (h : Leads first? changes last?)
    (hbetter : ∀ change ∈ changes, ∀ old, change.old? = some old → change.new.betterTip old)
    (hresolved : ∀ tip ∈ tips first? changes, tip.isResolved) :
    (tips first? changes).Pairwise fun l m => m.betterTip l := by
  induction changes generalizing first? with
  | nil => cases first? <;> simp [tips]
  | cons change changes ih =>
    obtain ⟨hold, hrest⟩ := h
    have hlater := ih hrest (fun c hc => hbetter c (List.mem_cons_of_mem _ hc)) fun tip htip =>
      hresolved tip (List.mem_append_right _ htip)
    cases hfirst : first? with
    | none => exact hlater
    | some old =>
      rw [hfirst] at hold hresolved
      have hup := hbetter change List.mem_cons_self old hold
      refine List.pairwise_cons.mpr ⟨fun m hm => ?_, hlater⟩
      rcases List.mem_cons.mp hm with he | hm
      · exact he ▸ hup
      · have hnext := (List.pairwise_cons.mp hlater).1 m hm
        exact Link.betterTip_trans (hresolved old List.mem_cons_self) hnext hup

/-- One move starts where another one led just when it is the next one. -/
theorem adjacent_iff (h : Leads first? changes last?) (hn : (tips first? changes).Nodup)
    (he : e ∈ changes) (hf : f ∈ changes) : f.old? = some e.new ↔ Adjacent changes e f := by
  obtain ⟨-, hnews, hfresh⟩ := List.nodup_append.mp hn
  constructor
  · intro hold
    -- the move right before `f` led to the same tip, and no other move led there
    obtain ⟨before, after, rfl⟩ := List.append_of_mem hf
    obtain ⟨middle?, hbefore, hmiddle, -⟩ := h.of_append
    rw [hold] at hmiddle
    cases before using List.reverseRecOn with
    | nil =>
      have hfirst : first? = some e.new := hbefore.trans hmiddle.symm
      exact absurd rfl (hfresh e.new (by simp [hfirst]) e.new (List.mem_map_of_mem he))
    | append_singleton before g =>
      obtain ⟨_, -, -, hg⟩ := hbefore.of_append
      have hnew : g.new = e.new := Option.some.inj (hg.trans hmiddle.symm)
      have hsame : g = e := List.inj_on_of_nodup_map hnews (by simp) he hnew
      exact ⟨before, after, by simp [hsame]⟩
  · intro hadjacent
    obtain ⟨before, after, rfl⟩ := hadjacent
    obtain ⟨_, -, -, hold, -⟩ := h.of_append
    exact hold

end Leads

namespace Node

section Climbing

variable {F : Prop} {d : Delivery} {x y : Node Arena} {change : BranchChange}
  {change? : Option BranchChange}

theorem Moves.betterTip (h : x.Moves change) (hx : x.Sound) {old : Link}
    (hold : change.old? = some old) : change.new.betterTip old := by
  have htip : x.engine.tip? = some old := h.old.symm.trans hold
  obtain ⟨hmem, hr⟩ := hx.tip old htip
  refine (hx.arena.bestLink?_eq_some h.best).better old hmem hr fun he => ?_
  exact h.away (htip.trans (congrArg some he))

theorem Receives.betterTip (h : x.Receives F d change? y) (hx : x.Sound) :
    ∀ change ∈ change?.toList, ∀ old, change.old? = some old → change.new.betterTip old := by
  intro change hchange old hold
  cases h with
  | refused => simp at hchange
  | aborted => simp at hchange
  | @submitted o y ho =>
    have hsettles := ho.settles
    rw [Option.mem_toList.mp hchange] at hsettles
    exact hsettles.2.betterTip (hx.taken (hx.fresh ho.admitted)) hold

/-- The moves lead up to the tip, and all their tips are stored. -/
structure Climbs (first? : Option Link) (published : List BranchChange) (x : Node Arena) :
    Prop where
  leads : Leads first? published x.engine.tip?
  better : ∀ change ∈ published, ∀ old, change.old? = some old → change.new.betterTip old
  stored : ∀ tip ∈ tips first? published, tip ∈ x.store.links ∧ tip.isResolved

namespace Climbs

variable {first? : Option Link} {published : List BranchChange}

theorem start (hx : x.Sound) : Climbs x.engine.tip? [] x where
  leads := rfl
  better := by simp
  stored tip htip := hx.tip tip (by simpa [tips] using htip)

theorem receives (h : Climbs first? published x) (hx : x.Sound) (hr : x.Receives F d change? y) :
    Climbs first? (published ++ change?.toList) y := by
  have hpublishes := hr.publishes hx
  obtain ⟨-, hkeeps⟩ := hr.sound hx
  refine ⟨h.leads.append hpublishes.leads, ?_, ?_⟩
  · intro change hchange
    rcases List.mem_append.mp hchange with hchange | hchange
    · exact h.better change hchange
    · exact hr.betterTip hx change hchange
  · intro tip htip
    rw [tips, List.map_append, ← List.append_assoc] at htip
    rcases List.mem_append.mp htip with htip | htip
    · obtain ⟨hmem, hresolved⟩ := h.stored tip htip
      exact ⟨hkeeps tip hmem hresolved, hresolved⟩
    · obtain ⟨change, hchange, rfl⟩ := List.mem_map.mp htip
      obtain ⟨path, hpath⟩ := (hpublishes.explains change hchange).new
      exact ⟨hpath.mem_links, hpath.isResolved⟩

/-- What goes up never comes back. -/
theorem nodup_hash (h : Climbs first? published x) (hx : x.Sound) :
    ((tips first? published).map Link.hash).Nodup := by
  have hup := h.leads.pairwise_betterTip h.better fun tip htip => (h.stored tip htip).2
  refine List.pairwise_map.mpr (hup.imp_of_mem ?_)
  intro l m hl hm hbetter he
  have hsame := hx.arena.ordered.eq_of_hash (h.stored l hl).1 (h.stored m hm).1 he
  rw [hsame] at hbetter
  exact Link.betterTip_asymm hbetter hbetter

end Climbs

end Climbing

section Opening

variable {b : Backing} {n : b.Ledger}

theorem Starts.exists_fresh (h : Starts n) : ∃ x, Node.Shows True n x ∧ x.Sound ∧
    x.engine = .ofArena x.engine.config x.store := by
  rcases h with ⟨config, s, -, hdrift, hopen⟩ | ⟨config, k, hk, hreopen⟩
  · obtain ⟨hshows, hsound⟩ := Opened.shows_blank (n := n) ⟨config, s, rfl, hdrift, hopen⟩
    exact ⟨blank config, hshows, hsound, rfl⟩
  · obtain ⟨x, hx⟩ := hk.exists_mirror
    obtain ⟨y, hy, rfl, hcap⟩ :=
      (ends_reopen (σ := Unreliable b.Contents) hx.sound config).of_ok hx.shows hreopen
    exact ⟨_, hy, hx.sound.reopened hcap, rfl⟩

end Opening

def tuned {σ : Type} (n : Node σ) (events : Channel BranchChange) : Node σ :=
  { n with engine := { n.engine with events := events } }

end Node

/-- An engine with its listeners, and the moves that it has published since it was opened. -/
structure Audience (σ : Type) where
  node : Node σ
  published : List BranchChange := []
  listeners : List Listener := []

namespace Audience

section Steps

variable {σ : Type}

def events (a : Audience σ) : Channel BranchChange :=
  a.node.engine.events

def deliver [Store σ] (a : Audience σ) (d : Delivery) : Audience σ where
  node := a.node.deliver d
  published := a.published ++ (a.node.change? d).toList
  listeners := a.listeners

def subscribe (a : Audience σ) : Audience σ where
  node := a.node.tuned a.events.subscribe.2
  published := a.published
  listeners := a.listeners ++ [⟨a.events.subscribe.1, a.published.length, []⟩]

def unsubscribe (a : Audience σ) (i : Nat) : Audience σ where
  node := a.node.tuned a.events.unsubscribe
  published := a.published
  listeners := a.listeners.eraseIdx i

def read (a : Audience σ) (i : Nat) : Audience σ :=
  { a with listeners := a.listeners.modify i fun l => l.read a.events }

inductive Step [Medium σ] : Audience σ → Audience σ → Prop
  | deliver {a : Audience σ} (d : Delivery) :
    Medium.room a.node.store d.block → Step a (a.deliver d)
  | drift {a : Audience σ} {s : σ} : Medium.drifts a.node.store s →
    Step a { a with node := { a.node with store := s } }
  | subscribe {a : Audience σ} : Step a a.subscribe
  | unsubscribe {a : Audience σ} (i : Nat) : Step a (a.unsubscribe i)
  | read {a : Audience σ} (i : Nat) : Step a (a.read i)

abbrev Later [Medium σ] : Audience σ → Audience σ → Prop :=
  Relation.ReflTransGen Step

end Steps

variable {b : Backing} {n : b.Ledger} {a : Audience (Unreliable b.Contents)} {x : Node Arena}

/-- Whatever blocks keep, and listeners have no part in, is kept from the opening on. -/
theorem Later.exists_shows {P : List BranchChange → Node Arena → Prop}
    (h : Later ⟨n, [], []⟩ a) (hn : Node.Shows True n x) (hx : x.Sound) (hstart : P [] x)
    (hreceives : ∀ published x d change? y, x.Sound → x.Receives True d change? y →
      P published x → P (published ++ change?.toList) y)
    (htuned : ∀ published x events, P published x → P published (x.tuned events)) :
    ∃ y, Node.Shows True a.node y ∧ y.Sound ∧ P a.published y := by
  induction h with
  | refl => exact ⟨x, hn, hx, hstart⟩
  | @tail m k _ hstep ih =>
    obtain ⟨y, hy, hsound, hp⟩ := ih
    have htune (events : Channel BranchChange) :
        (y.tuned events).Sound := ⟨hsound.arena, hsound.queue, hsound.tip, hsound.cap⟩
    cases hstep with
    | deliver d hroom =>
      obtain ⟨z, hz, hreceive⟩ := hy.deliver hsound fun _ => Faithful.fits_of_room hy.2.1 hroom
      exact ⟨z, hz, (hreceive.sound hsound).1, hreceives _ y d _ z hsound hreceive hp⟩
    | drift hd =>
      exact ⟨y, hy.drifted hd, hsound, hp⟩
    | subscribe =>
      exact ⟨y.tuned m.events.subscribe.2, ⟨by simp [subscribe, Node.tuned, hy.1], hy.2⟩,
        htune _, htuned _ y _ hp⟩
    | unsubscribe i =>
      exact ⟨y.tuned m.events.unsubscribe, ⟨by simp [unsubscribe, Node.tuned, hy.1], hy.2⟩,
        htune _, htuned _ y _ hp⟩
    | read i => exact ⟨y, hy, hsound, hp⟩

/-- The channel keeps the latest of the moves, and the listeners keep up with it. -/
structure Attended (a : Audience (Unreliable b.Contents)) (capacity : Nat) : Prop where
  carries : a.events.Carries capacity a.published
  attends : ∀ l ∈ a.listeners, l.Attends capacity a.published

theorem attended_start (hx : n.engine = .ofArena n.engine.config x.store) :
    Attended ⟨n, [], []⟩ (Channel.roundUp n.engine.config.eventCapacity) := by
  refine ⟨?_, by simp⟩
  have hevents : n.engine.events = .ofCapacity n.engine.config.eventCapacity := by rw [hx]; rfl
  change n.engine.events.Carries _ []
  rw [hevents]
  exact Channel.carries_ofCapacity _

theorem Attended.step {capacity : Nat} {c : Audience (Unreliable b.Contents)}
    (h : Attended a capacity) (ha : Node.Shows True a.node x) (hx : x.Sound) (hs : Step a c) :
    Attended c capacity := by
  cases hs with
  | deliver d hroom =>
    obtain ⟨y, hy, hreceives⟩ := ha.deliver hx fun _ => Faithful.fits_of_room ha.2.1 hroom
    have hevents : (a.deliver d).events =
        (a.node.change? d).toList.foldl Channel.publish a.events := by
      change (a.node.deliver d).engine.events = _
      rw [hy.1, (hreceives.publishes hx).events, ← ha.1]
      rfl
    refine ⟨?_, fun l hl => (h.attends l hl).append _⟩
    rw [hevents]
    exact h.carries.foldl_publish _
  | drift hd => exact ⟨h.carries, h.attends⟩
  | subscribe =>
    refine ⟨h.carries.subscribe, fun l hl => ?_⟩
    rcases List.mem_append.mp hl with hl | hl
    · exact h.attends l hl
    · rw [List.mem_singleton.mp hl]
      exact Listener.attends_subscribe h.carries
  | unsubscribe i =>
    exact ⟨h.carries.unsubscribe, fun l hl => h.attends l (List.mem_of_mem_eraseIdx hl)⟩
  | read i =>
    refine ⟨h.carries, fun l hl => ?_⟩
    obtain ⟨j, hj⟩ := List.mem_iff_getElem?.mp hl
    simp only [read, List.getElem?_modify, Option.map_eq_map, Option.map_eq_some_iff] at hj
    obtain ⟨m, hm, he⟩ := hj
    have hattends := h.attends m (List.mem_of_getElem? hm)
    by_cases hij : i = j
    · rw [if_pos hij] at he
      exact he ▸ hattends.read h.carries
    · rw [if_neg hij] at he
      exact he ▸ hattends

theorem Later.attended {capacity : Nat} (h : Later ⟨n, [], []⟩ a) (hn : Node.Shows True n x)
    (hx : x.Sound) (hstart : Attended ⟨n, [], []⟩ capacity) : Attended a capacity := by
  induction h with
  | refl => exact hstart
  | tail hbefore hs ih =>
    obtain ⟨y, hy, hsound, -⟩ := Later.exists_shows (P := fun _ _ => True) hbefore hn hx trivial
      (fun _ _ _ _ _ _ _ _ => trivial) fun _ _ _ _ => trivial
    exact ih.step hy hsound hs

theorem Later.attended_of_starts (hn : Node.Starts n) (h : Later ⟨n, [], []⟩ a) :
    Attended a (Channel.roundUp n.engine.config.eventCapacity) := by
  obtain ⟨x, hx, hsound, hfresh⟩ := hn.exists_fresh
  rw [← hx.1] at hfresh
  exact h.attended hx hsound (attended_start hfresh)

/-- Every move goes up, so no tip comes back, and two moves heard one after the other fit
together just when nothing was missed between them. A listener misses a move only by
reading too late. -/
theorem heard_of_later (hn : Node.Starts n) (h : Later ⟨n, [], []⟩ a) :
    (∀ change ∈ a.published, ∀ old, change.old? = some old → change.new.betterTip old) ∧
    ((tips n.engine.tip? a.published).map Link.hash).Nodup ∧
    a.events.kept = a.published.drop
      (a.published.length - Channel.roundUp n.engine.config.eventCapacity) ∧
    ∀ l ∈ a.listeners,
      l.heard.Sublist (a.published.drop l.since) ∧ l.heard.Nodup ∧
      (∀ change ∈ a.published.drop l.since, change ∈ a.events.kept → change ∉ l.heard →
        ∃ next, (l.read a.events).heard = l.heard ++ [next] ∧
          (next = change ∨ [next, change].Sublist a.published)) ∧
      ∀ e f, Adjacent l.heard e f → (f.old? = some e.new ↔ Adjacent a.published e f) := by
  have hattended := h.attended_of_starts hn
  obtain ⟨x, hx, hsound, -⟩ := hn.exists_fresh
  obtain ⟨y, hy, hysound, hclimbs⟩ := h.exists_shows
    (P := fun published y => Node.Climbs x.engine.tip? published y) hx hsound (.start hsound)
    (fun _ _ _ _ _ hsound hr hclimbs => hclimbs.receives hsound hr)
    fun _ _ _ hclimbs => ⟨hclimbs.leads, hclimbs.better, hclimbs.stored⟩
  rw [← hx.1] at hclimbs
  have hhashes := hclimbs.nodup_hash hysound
  have htips := hhashes.of_map
  have hnodup : a.published.Nodup := (List.nodup_append.mp htips).2.1.of_map
  refine ⟨hclimbs.better, hhashes, hattended.carries.kept_eq, fun l hl => ?_⟩
  have hattends := hattended.attends l hl
  have hheard : l.heard.Sublist a.published := hattends.heard_since.trans (List.drop_sublist _ _)
  refine ⟨hattends.heard_since, hnodup.sublist hheard, ?_, ?_⟩
  · intro change hsince hkept hnew
    exact hattends.exists_read hattended.carries hnodup hsince hkept hnew
  · intro e f hadjacent
    have hpair := hadjacent.sublist.trans hheard
    exact hclimbs.leads.adjacent_iff htips (hpair.subset (by simp)) (hpair.subset (by simp))

section Sessions

/-- The listener hears of the first move, and then reads too late for the second. -/
def drowsy : Audience (Unreliable Arena) :=
  let opened : Audience (Unreliable Arena) := ⟨Node.started { eventCapacity := 1 } [], [], []⟩
  let awake := (opened.subscribe.deliver ⟨0, .first⟩).read 0
  (((awake.deliver ⟨0, .second⟩).deliver ⟨0, .rival⟩).deliver ⟨0, .third⟩).read 0

theorem later_drowsy :
    Later (σ := Unreliable Backing.arena.Contents) ⟨Node.started { eventCapacity := 1 } [], [], []⟩
      drowsy :=
  ((((((Relation.ReflTransGen.single .subscribe).tail (.deliver ⟨0, .first⟩ trivial)).tail
    (.read 0)).tail (.deliver ⟨0, .second⟩ trivial)).tail (.deliver ⟨0, .rival⟩ trivial)).tail
      (.deliver ⟨0, .third⟩ trivial)).tail (.read 0)

theorem drowsy_computed :
    drowsy.listeners.map (fun l => l.heard.map fun change =>
        (change.old?.map Link.hash, change.new.hash)) =
      [[(none, Block.first.hash), (some Block.second.hash, Block.third.hash)]] ∧
    Block.second.hash ≠ Block.first.hash := by
  decide +kernel

/-- What is heard last does not start where the tip was taken to be, so one move is missed. -/
theorem drowsy_missed : ∃ l ∈ drowsy.listeners, ∃ e f, l.heard = [e, f] ∧
    f.old? ≠ some e.new ∧ ¬ Adjacent drowsy.published e f ∧
      ∀ old, f.old? = some old → f.new.betterTip old := by
  obtain ⟨hheard, hne⟩ := drowsy_computed
  have hstarts : Node.Starts (b := .arena) (Node.started { eventCapacity := 1 } []) :=
    .inl (Node.opened_started trivial (by decide))
  obtain ⟨hbetter, -, -, hlisteners⟩ := heard_of_later hstarts later_drowsy
  obtain ⟨l, hl, hheard⟩ := List.map_eq_singleton_iff.mp hheard
  have hmem : l ∈ drowsy.listeners := by simp [hl]
  obtain ⟨e, rest, hlist, he, hrest⟩ := List.map_eq_cons_iff.mp hheard
  obtain ⟨f, rfl, hf⟩ := List.map_eq_singleton_iff.mp hrest
  obtain ⟨hsub, -, -, htells⟩ := hlisteners l hmem
  have haway : f.old? ≠ some e.new := by
    intro hold
    simp only [hold, Option.map_some, Prod.mk.injEq, Option.some.injEq] at he hf
    exact hne (hf.1.symm.trans he.2)
  have hpublished : f ∈ drowsy.published :=
    List.mem_of_mem_drop (hsub.subset (by simp [hlist]))
  refine ⟨l, hmem, e, f, hlist, haway, fun hadjacent => haway ?_, hbetter f hpublished⟩
  exact (htells e f ⟨[], [], by simp [hlist]⟩).mpr hadjacent

end Sessions

end Audience

end BlockTree
