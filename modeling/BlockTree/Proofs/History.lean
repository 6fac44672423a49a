import BlockTree.Proofs.Submission
import Mathlib.Logic.Relation

/-! What can become of a node from its start on: blocks are handed in at any times,
engines are opened again with other settings, caches are lost, and calls fail. -/

namespace BlockTree

namespace Engine

/-- The engine that is opened on an arena. -/
def ofArena (config : ConsensusConfig) (a : Arena) : Engine :=
  let orphans := a.orphans.map Link.hash
  { config := config
    tip? := a.bestLink?
    orphans := orphans
    events := .ofCapacity config.eventCapacity
    metrics := {
      tipHeight := gauge ((a.bestLink?.bind Link.height?).getD 0)
      orphanCount := orphans.length } }

variable {σ : Type} [Medium σ] [Faithful σ] {F : Prop} {a : Arena}

theorem ends_ofStore (ha : a.Sound) (config : ConsensusConfig) :
    Ends (Backed (σ := σ) F) (ofStore config) a
      (fun engine b => b = a ∧ engine = ofArena config a ∧ 1 ≤ config.maxOrphans)
      fun e b => b = a ∧ (e = .config .noRoomForOrphans ∧ config.maxOrphans = 0 ∨
        F ∧ e = Unreliable.failure) := by
  unfold ofStore
  by_cases hcap : config.maxOrphans = 0
  · simp only [hcap, if_true]
    exact Ends.bind (Ends.throw ⟨rfl, .inl ⟨rfl, trivial⟩⟩)
  · simp only [hcap, if_false]
    refine Ends.bind (Ends.ask ha trivial rfl ?_ fun hF => ⟨rfl, .inr ⟨hF, rfl⟩⟩)
    refine Ends.bind (Ends.ask ha trivial rfl ?_ fun hF => ⟨rfl, .inr ⟨hF, rfl⟩⟩)
    exact Ends.pure ⟨rfl, rfl, by omega⟩

omit [Faithful σ] in
/-- What an engine knows of a store that answers as an arena would. -/
theorem ofStore_eq {s : σ} {config : ConsensusConfig} (hcap : config.maxOrphans ≠ 0)
    (hlast : Store.answer .lastLink s = .ok a.bestLink? s)
    (horphans : Store.answer .orphanLinks s = .ok a.orphans s) :
    ofStore config s = .ok (.ofArena config a) s := by
  simp only [ofStore, hcap, if_false, ask, bind, EStateM.bind, hlast, horphans]
  rfl

end Engine

namespace Node

def after {σ α : Type} (act : NodeM σ α) (n : Node σ) : Node σ :=
  match act n with
  | .ok _ m => m
  | .error _ m => m

def reopen {σ : Type} [Store σ] (config : ConsensusConfig) : NodeM σ Unit := do
  let engine ← onStore (Engine.ofStore config)
  modify fun n => { n with engine := engine }

section Steps

variable {σ : Type} [Medium σ] (permitted : ConsensusConfig → Prop)

/-- What happens to a node whose engines are opened with permitted settings. -/
inductive Step : Node σ → Node σ → Prop
  | submit {n : Node σ} (now : Int) (block : Block) :
    Medium.room n.store block → Step n (n.after (submit now block))
  | reopen {n : Node σ} (config : ConsensusConfig) :
    permitted config → Step n (n.after (reopen config))
  | drift {n : Node σ} {s : σ} : Medium.drifts n.store s → Step n { n with store := s }

def Opened (n : Node σ) : Prop :=
  ∃ config s, permitted config ∧ Medium.drifts Medium.empty s ∧
    Engine.ofStore config s = .ok n.engine n.store

abbrev Later : Node σ → Node σ → Prop :=
  Relation.ReflTransGen (Step permitted)

def Reachable (n : Node σ) : Prop :=
  ∃ m, Opened permitted m ∧ Later permitted m n

end Steps

variable {σ : Type} [Medium σ] {permitted : ConsensusConfig → Prop} {n n' : Node σ}
  {x y : Node Arena}

theorem Reachable.later (h : Reachable permitted n) (hlater : Later permitted n n') :
    Reachable permitted n' := by
  obtain ⟨k, hk, hkn⟩ := h
  exact ⟨k, hk, hkn.trans hlater⟩

variable [Faithful σ]

/-- The sound node that a node of another store looks like. -/
structure Mirrors (permitted : ConsensusConfig → Prop) (n : Node σ) (x : Node Arena) : Prop where
  shows : Node.Shows True n x
  sound : x.Sound
  config : permitted x.engine.config
  anchored : ∀ l ∈ x.store.links, l.isGenesis →
    ∃ c, permitted c ∧ ∀ g, c.genesisHash? = some g → g = l.hash

/-- Nothing that is resolved is lost or changed. -/
def Keeps (x y : Node Arena) : Prop :=
  ∀ l ∈ x.store.links, l.isResolved → l ∈ y.store.links

theorem exists_after {α : Type} {act : NodeM σ α} {ok : α → Node Arena → Prop}
    {bad : Error → Node Arena → Prop} (h : Ends (Node.Shows True) act x ok bad)
    (hn : Node.Shows True n x) :
    ∃ y, Node.Shows True (n.after act) y ∧ ((∃ v, ok v y) ∨ ∃ e, bad e y) := by
  have hh := h n hn
  unfold after
  cases he : act n with
  | ok v m =>
    simp only [he] at hh
    obtain ⟨y, hy, hok⟩ := hh
    exact ⟨y, hy, .inl ⟨v, hok⟩⟩
  | error e m =>
    simp only [he] at hh
    obtain ⟨y, hy, hbad⟩ := hh
    exact ⟨y, hy, .inr ⟨e, hbad⟩⟩

theorem Sound.reopened (hx : x.Sound) {config : ConsensusConfig} (hcap : 1 ≤ config.maxOrphans) :
    Sound { x with engine := .ofArena config x.store } := by
  refine ⟨hx.arena, rfl, ?_, hcap⟩
  intro t ht
  have hbest := hx.arena.bestLink?_eq_some ht
  exact ⟨hbest.mem, hbest.resolved⟩

theorem ends_reopen {F : Prop} (hx : x.Sound) (config : ConsensusConfig) :
    Ends (Node.Shows (σ := σ) F) (reopen config) x
      (fun _ y => y = { x with engine := .ofArena config x.store } ∧ 1 ≤ config.maxOrphans)
      fun _ y => y = x ∧ (config.maxOrphans = 0 ∨ F) := by
  refine Ends.bind (Ends.onStore ((Engine.ends_ofStore hx.arena config).mono ?_ ?_))
  · intro engine b hb
    obtain ⟨hb, he, hcap⟩ := hb
    subst hb he
    exact Ends.modifyEngine (fun _ _ => rfl) ⟨rfl, hcap⟩
  · intro e b hb
    obtain ⟨hb, he⟩ := hb
    subst hb
    exact ⟨rfl, he.imp And.right And.left⟩

theorem config_taken (x : Node Arena) (block : Block) :
    (x.taken block).engine.config = x.engine.config := by
  unfold taken cleared
  cases x.store.place block <;> rfl

theorem tip_taken (x : Node Arena) (block : Block) :
    (x.taken block).engine.tip? = x.engine.tip? := by
  unfold taken cleared
  cases x.store.place block <;> rfl

theorem events_taken (x : Node Arena) (block : Block) :
    (x.taken block).engine.events = x.engine.events := by
  unfold taken cleared
  cases x.store.place block <;> rfl

theorem Shows.drifted {F : Prop} (h : Node.Shows F n x) {s : σ} (hd : Medium.drifts n.store s) :
    Node.Shows True { n with store := s } x :=
  ⟨h.1, Faithful.holds_drift h.2.1 hd, fun _ => trivial⟩

namespace Mirrors

theorem noted (h : Mirrors permitted n x) (e : Error) {m : Node σ}
    (hm : Node.Shows True m (x.noted e)) : Mirrors permitted m (x.noted e) ∧ x.Keeps (x.noted e) :=
  ⟨⟨hm, sound_noted h.sound e, h.config, h.anchored⟩, fun _ hl _ => hl⟩

theorem evict (h : Mirrors permitted n x) (k : Nat) {m : Node σ}
    (hm : Node.Shows True m (x.evict k)) : Mirrors permitted m (x.evict k) ∧ x.Keeps (x.evict k) :=
  ⟨⟨hm, h.sound.evict k, h.config, fun l hl => h.anchored l (Arena.mem_drop.mp hl).1⟩,
    fun _ hl hr => (h.sound.mem_evict hr).mpr hl⟩

theorem taken (h : Mirrors permitted n x) {block : Block} (hf : x.Fresh block) {m : Node σ}
    (hm : Node.Shows True m (x.taken block)) :
    Mirrors permitted m (x.taken block) ∧ x.Keeps (x.taken block) := by
  refine ⟨⟨hm, h.sound.taken hf, (config_taken x block).symm ▸ h.config, ?_⟩,
    fun l hl hr => h.sound.mem_taken hf hl hr⟩
  intro l hl hg
  rcases h.sound.genesis_taken hf hl hg with hl | hexpected
  · exact h.anchored l hl hg
  · exact ⟨_, h.config, hexpected⟩

theorem settled (h : Mirrors permitted n x) {change? : Option BranchChange}
    (hy : x.Settles change? y) {m : Node σ} (hm : Node.Shows True m y) :
    Mirrors permitted m y ∧ x.Keeps y := by
  have hstore := hy.store_eq
  exact ⟨⟨hm, hy.sound h.sound, hy.config_eq ▸ h.config, hstore ▸ h.anchored⟩,
    fun l hl _ => hstore ▸ hl⟩

theorem fits (h : Mirrors permitted n x) {block : Block} (hroom : Medium.room n.store block) :
    Faithful.fits σ x.store.nextSeq block :=
  Faithful.fits_of_room h.shows.2.1 hroom

theorem aborted (h : Mirrors permitted n x) {now : Int} {block : Block}
    (hy : x.Aborted now block y) {m : Node σ} (hm : Node.Shows True m y) :
    Mirrors permitted m y ∧ x.Keeps y := by
  rcases hy with hy | ⟨hgranted, ⟨k, -, hy⟩ | hy⟩
  · rw [hy] at hm ⊢
    exact ⟨⟨hm, h.sound, h.config, h.anchored⟩, fun _ hl _ => hl⟩
  · subst hy
    exact h.evict k hm
  · subst hy
    exact h.taken (h.sound.fresh hgranted) hm

theorem submitted (h : Mirrors permitted n x) {now : Int} {block : Block} {o : Outcome}
    (hy : x.Submitted now block o y) {m : Node σ} (hm : Node.Shows True m y) :
    Mirrors permitted m y ∧ x.Keeps y := by
  have hf := h.sound.fresh hy.admitted
  -- no node of the store itself need look like the one in between
  have htaken : Mirrors (σ := Arena) permitted (x.taken block) (x.taken block) ∧
      x.Keeps (x.taken block) :=
    Mirrors.taken ⟨⟨rfl, rfl, fun _ => trivial⟩, h.sound, h.config, h.anchored⟩ hf
      ⟨rfl, rfl, fun _ => trivial⟩
  have hsettled := htaken.1.settled hy.settles (m := y) ⟨rfl, rfl, fun _ => trivial⟩
  exact ⟨⟨hm, hsettled.1.sound, hsettled.1.config, hsettled.1.anchored⟩,
    fun l hl hr => hsettled.2 l (htaken.2 l hl hr) hr⟩

theorem reopened (h : Mirrors permitted n x) {config : ConsensusConfig} (hc : permitted config)
    (hcap : 1 ≤ config.maxOrphans) {m : Node σ}
    (hm : Node.Shows True m { x with engine := .ofArena config x.store }) :
    Mirrors permitted m { x with engine := .ofArena config x.store } :=
  ⟨hm, h.sound.reopened hcap, hc, h.anchored⟩

theorem step (h : Mirrors permitted n x) (hs : Step permitted n n') :
    ∃ y, Mirrors permitted n' y ∧ x.Keeps y := by
  cases hs with
  | submit now block hroom =>
    have hsubmit : Ends (Node.Shows (σ := σ) True) (submit now block) x _ _ :=
      ends_submit h.sound fun _ => h.fits hroom
    obtain ⟨y, hy, ⟨o, ho⟩ | ⟨e, ⟨-, hnoted⟩ | ⟨-, -, habort⟩⟩⟩ := exists_after hsubmit h.shows
    · exact ⟨y, h.submitted ho hy⟩
    · subst hnoted
      exact ⟨_, h.noted e hy⟩
    · exact ⟨y, h.aborted habort hy⟩
  | reopen config hc =>
    have hopen := ends_reopen (σ := σ) (F := True) h.sound config
    obtain ⟨y, hy, ⟨-, hopened, hcap⟩ | ⟨-, hsame, -⟩⟩ := exists_after hopen h.shows
    · subst hopened
      exact ⟨_, h.reopened hc hcap hy, fun _ hl _ => hl⟩
    · rw [hsame] at hy
      exact ⟨x, ⟨hy, h.sound, h.config, h.anchored⟩, fun _ hl _ => hl⟩
  | drift hd =>
    exact ⟨x, ⟨h.shows.drifted hd, h.sound, h.config, h.anchored⟩, fun _ hl _ => hl⟩

end Mirrors

theorem Opened.exists_mirror (h : Opened permitted n) : ∃ x, Mirrors permitted n x := by
  obtain ⟨config, s, hc, hd, hopen⟩ := h
  have hs : Backed True s {} := ⟨Faithful.holds_drift Faithful.holds_empty hd, fun _ => trivial⟩
  obtain ⟨b, hb, hbe, he, hcap⟩ :=
    (Engine.ends_ofStore Arena.sound_empty config).of_ok hs hopen
  subst hbe
  refine ⟨⟨.ofArena config {}, {}⟩, ⟨he, hb⟩, ⟨Arena.sound_empty, rfl, ?_, hcap⟩, hc, ?_⟩
  · intro t ht
    exact absurd ht (by simp [Engine.ofArena, Arena.bestLink?])
  · intro l hl
    exact absurd hl (by simp)

theorem Later.exists_mirror (h : Later permitted n n') (hx : Mirrors permitted n x) :
    ∃ y, Mirrors permitted n' y ∧ x.Keeps y := by
  induction h with
  | refl => exact ⟨x, hx, fun _ hl _ => hl⟩
  | tail _ hs ih =>
    obtain ⟨y, hy, hxy⟩ := ih
    obtain ⟨z, hz, hyz⟩ := hy.step hs
    exact ⟨z, hz, fun l hl hr => hyz l (hxy l hl hr) hr⟩

theorem Reachable.exists_mirror (h : Reachable permitted n) : ∃ x, Mirrors permitted n x := by
  obtain ⟨m, hm, hlater⟩ := h
  obtain ⟨x, hx⟩ := hm.exists_mirror
  obtain ⟨y, hy, -⟩ := Later.exists_mirror hlater hx
  exact ⟨y, hy⟩

end Node

end BlockTree
