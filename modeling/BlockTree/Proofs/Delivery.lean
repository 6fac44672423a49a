import BlockTree.Importing
import BlockTree.Proofs.Observation

/-! Blocks handed in one after another, with the moves of the tip that are published on
the way. What one block can do to a sound node is carried over to a list of them. -/

namespace BlockTree.Node

section Runs

variable {σ : Type} [Store σ]

def deliver (n : Node σ) (d : Delivery) : Node σ :=
  n.after (submit d.now d.block)

def feed (n : Node σ) : List Delivery → Node σ
  | [] => n
  | d :: ds => (n.deliver d).feed ds

/-- The move of the tip that is published while a block is handed in. -/
def change? (n : Node σ) (d : Delivery) : Option BranchChange :=
  match submit d.now d.block n with
  | .ok o _ => o.change?
  | .error .. => none

theorem feed_append (n : Node σ) (ds es : List Delivery) :
    n.feed (ds ++ es) = (n.feed ds).feed es := by
  induction ds generalizing n with
  | nil => rfl
  | cons d ds ih => exact ih (n.deliver d)

def changes (n : Node σ) : List Delivery → List BranchChange
  | [] => []
  | d :: ds => (n.change? d).toList ++ (n.deliver d).changes ds

end Runs

section Room

variable {σ : Type} [Medium σ]

def HasRoom (n : Node σ) : List Delivery → Prop
  | [] => True
  | d :: ds => Medium.room n.store d.block ∧ (n.deliver d).HasRoom ds

theorem hasRoom_append {n : Node σ} {ds es : List Delivery} :
    n.HasRoom (ds ++ es) ↔ n.HasRoom ds ∧ (n.feed ds).HasRoom es := by
  induction ds generalizing n with
  | nil => simp [HasRoom, feed]
  | cons d ds ih =>
    have hrest := ih (n := n.deliver d)
    simp only [List.cons_append, HasRoom, hrest, and_assoc]
    rfl

end Room

theorem hasRoom_arena (n : Backing.arena.Ledger) (ds : List Delivery) : n.HasRoom ds := by
  induction ds generalizing n with
  | nil => trivial
  | cons d ds ih => exact ⟨trivial, ih _⟩

variable {F : Prop} {d : Delivery} {ds : List Delivery} {x y z : Node Arena}
  {change? : Option BranchChange} {changes : List BranchChange}

/-- What a block can do to a node. Calls may fail if `F` holds. -/
inductive Receives (F : Prop) (d : Delivery) (x : Node Arena) :
    Option BranchChange → Node Arena → Prop
  | refused {e : Error} : x.refusal? d.now d.block = some e → Receives F d x none (x.noted e)
  | aborted {y : Node Arena} : F → x.Aborted d.now d.block y → Receives F d x none y
  | submitted {o : Outcome} {y : Node Arena} :
    x.Submitted d.now d.block o y → Receives F d x o.change? y

inductive ReceivesAll (F : Prop) :
    Node Arena → List Delivery → List BranchChange → Node Arena → Prop
  | done {x : Node Arena} : ReceivesAll F x [] [] x
  | next {x y z : Node Arena} {d : Delivery} {ds : List Delivery}
    {change? : Option BranchChange} {changes : List BranchChange} :
    x.Receives F d change? y → ReceivesAll F y ds changes z →
      ReceivesAll F x (d :: ds) (change?.toList ++ changes) z

/-- Any settings allow what is stored, if nothing is said of them. -/
theorem Sound.mirrors (hx : x.Sound) : Mirrors (σ := Arena) (fun _ => True) x x :=
  ⟨⟨rfl, rfl, fun _ => trivial⟩, hx, trivial, fun _ _ _ => ⟨{}, trivial, by simp⟩⟩

theorem Receives.sound (h : x.Receives F d change? y) (hx : x.Sound) : y.Sound ∧ x.Keeps y := by
  have hsame (y : Node Arena) : Node.Shows (σ := Arena) True y y := ⟨rfl, rfl, fun _ => trivial⟩
  cases h with
  | refused =>
    obtain ⟨hy, hkeeps⟩ := hx.mirrors.noted _ (hsame _)
    exact ⟨hy.sound, hkeeps⟩
  | aborted _ habort =>
    obtain ⟨hy, hkeeps⟩ := hx.mirrors.aborted habort (hsame _)
    exact ⟨hy.sound, hkeeps⟩
  | submitted ho =>
    obtain ⟨hy, hkeeps⟩ := hx.mirrors.submitted ho (hsame _)
    exact ⟨hy.sound, hkeeps⟩

theorem ReceivesAll.sound (h : x.ReceivesAll F ds changes y) (hx : x.Sound) :
    y.Sound ∧ x.Keeps y := by
  induction h with
  | done => exact ⟨hx, fun _ hl _ => hl⟩
  | next hstep _ ih =>
    obtain ⟨hy, hxy⟩ := hstep.sound hx
    obtain ⟨hz, hyz⟩ := ih hy
    exact ⟨hz, fun l hl hr => hyz l (hxy l hl hr) hr⟩

/-- Without failing calls, the tip follows the best link at once. -/
theorem Receives.settled (h : x.Receives False d change? y)
    (hx : x.engine.tip? = x.store.bestLink?) : y.engine.tip? = y.store.bestLink? := by
  cases h with
  | refused => exact hx
  | aborted hF => exact hF.elim
  | submitted ho => exact ho.settles.tip_eq

theorem ReceivesAll.settled (h : x.ReceivesAll False ds changes y)
    (hx : x.engine.tip? = x.store.bestLink?) : y.engine.tip? = y.store.bestLink? := by
  induction h with
  | done => exact hx
  | next hstep _ ih => exact ih (hstep.settled hx)

section Stores

variable {σ : Type} [Medium σ] [Faithful σ] {n : Node σ}

theorem Shows.deliver (h : Node.Shows F n x) (hx : x.Sound)
    (hfits : x.refusal? d.now d.block = none → Faithful.fits σ x.store.nextSeq d.block) :
    ∃ y, Node.Shows F (n.deliver d) y ∧ x.Receives F d (n.change? d) y := by
  have hsubmit := ends_submit (σ := σ) (F := F) hx hfits n h
  unfold Node.deliver Node.change? after
  cases hrun : submit d.now d.block n with
  | ok o m =>
    simp only [hrun] at hsubmit ⊢
    obtain ⟨y, hy, ho⟩ := hsubmit
    exact ⟨y, hy, .submitted ho⟩
  | error e m =>
    simp only [hrun] at hsubmit ⊢
    obtain ⟨y, hy, ⟨hrefused, hnoted⟩ | ⟨hF, -, habort⟩⟩ := hsubmit
    · subst hnoted
      exact ⟨_, hy, .refused hrefused⟩
    · exact ⟨y, hy, .aborted hF habort⟩

theorem Shows.feed (h : Node.Shows F n x) (hx : x.Sound) (hroom : n.HasRoom ds) :
    ∃ y, Node.Shows F (n.feed ds) y ∧ x.ReceivesAll F ds (n.changes ds) y := by
  induction ds generalizing n x with
  | nil => exact ⟨x, h, .done⟩
  | cons d ds ih =>
    obtain ⟨hfirst, hrest⟩ := hroom
    have hfits : Faithful.fits σ x.store.nextSeq d.block := Faithful.fits_of_room h.2.1 hfirst
    obtain ⟨y, hy, hstep⟩ := h.deliver hx fun _ => hfits
    obtain ⟨z, hz, hsteps⟩ := ih hy (hstep.sound hx).1 hrest
    exact ⟨z, hz, .next hstep hsteps⟩

end Stores

section Start

variable {b : Backing} {config : ConsensusConfig} {n : b.Ledger}

def blank (config : ConsensusConfig) : Node Arena :=
  ⟨.ofArena config {}, {}⟩

@[simp] theorem config_blank : (blank config).engine.config = config := rfl

@[simp] theorem store_blank : (blank config).store = {} := rfl

theorem sound_blank (hcap : 1 ≤ config.maxOrphans) : (blank config).Sound := by
  refine ⟨Arena.sound_empty, rfl, ?_, hcap⟩
  intro t ht
  exact absurd ht (by simp [blank, Engine.ofArena, Arena.bestLink?])

theorem Opened.shows_blank (h : Opened (· = config) n) :
    Node.Shows True n (blank config) ∧ (blank config).Sound := by
  obtain ⟨_, s, rfl, hd, hopen⟩ := h
  have hs : Backed True s {} := ⟨Faithful.holds_drift Faithful.holds_empty hd, fun _ => trivial⟩
  obtain ⟨a, ha, hae, he, hcap⟩ :=
    (Engine.ends_ofStore Arena.sound_empty _).of_ok hs hopen
  subst hae
  exact ⟨⟨he, ha⟩, sound_blank hcap⟩

theorem Opened.shows_calm (h : Opened (· = config) n) (hcalm : n.store.outages = []) :
    Node.Shows False n (blank config) ∧ (blank config).Sound := by
  obtain ⟨hshows, hsound⟩ := h.shows_blank
  exact ⟨hshows.of_calm hcalm, hsound⟩

end Start

def upwards : List Delivery :=
  [⟨0, .first⟩, ⟨0, .second⟩]

end BlockTree.Node
