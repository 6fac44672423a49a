import BlockTree.Proofs.Cascade
import BlockTree.Proofs.Walks

/-! Contracts of what a node does, told on an arena with the same engine. -/

namespace BlockTree

variable {σ α β : Type} [Medium σ] [Faithful σ] {F : Prop} {x : Node Arena}
  {ok : α → Node Arena → Prop} {bad : Error → Node Arena → Prop}

/-- The node has the engine of `x` and a store that holds what the arena of `x` holds. -/
def Node.Shows (F : Prop) (n : Node σ) (x : Node Arena) : Prop :=
  n.engine = x.engine ∧ Backed F n.store x.store

namespace Ends

theorem onStore {act : StoreM σ α} (h : Ends (Backed F) act x.store
    (fun v b => ok v { x with store := b }) fun e b => bad e { x with store := b }) :
    Ends (Node.Shows F) (Node.onStore act) x ok bad := by
  rintro n ⟨hn, hs⟩
  have hh := h n.store hs
  unfold Node.onStore
  cases he : act n.store with
  | ok v t =>
    simp only [he] at hh ⊢
    obtain ⟨b, hb, hv⟩ := hh
    exact ⟨{ x with store := b }, ⟨hn, hb⟩, hv⟩
  | error e t =>
    simp only [he] at hh ⊢
    obtain ⟨b, hb, hv⟩ := hh
    exact ⟨{ x with store := b }, ⟨hn, hb⟩, hv⟩

theorem reads {act : StoreM σ α} {found : α → Prop} (h : Reads F act x.store found)
    (hok : ∀ v, found v → ok v x) (hbad : F → bad Unreliable.failure x) :
    Ends (Node.Shows F) (Node.onStore act) x ok bad := by
  refine onStore (Ends.mono h ?_ ?_)
  · rintro v _ ⟨rfl, hv⟩
    exact hok v hv
  · rintro e _ ⟨rfl, hF, rfl⟩
    exact hbad hF

theorem get {next : Node σ → NodeM σ α}
    (h : ∀ n, Node.Shows F n x → Ends (Node.Shows F) (next n) x ok bad) :
    Ends (Node.Shows F) (get >>= next) x ok bad :=
  fun n hn => h n hn n hn

theorem modifyEngine {change : Node σ → Node σ} {engine : Engine}
    (hchange : ∀ n : Node σ, n.engine = x.engine → change n = { n with engine := engine })
    {ok : Unit → Node Arena → Prop} (h : ok () { x with engine := engine }) :
    Ends (Node.Shows F) (modify change) x ok bad := by
  rintro n ⟨hn, hs⟩
  refine ⟨{ x with engine := engine }, ?_, h⟩
  rw [hchange n hn]
  exact ⟨rfl, hs⟩

theorem modifyMetrics {change : Metrics → Metrics} {ok : Unit → Node Arena → Prop}
    (h : ok () { x with engine := { x.engine with metrics := change x.engine.metrics } }) :
    Ends (Node.Shows (σ := σ) F) (Node.modifyMetrics change) x ok bad :=
  modifyEngine (fun n hn => by rw [hn]) h

theorem setOrphans {orphans : List Hash} {ok : Unit → Node Arena → Prop}
    (h : ok () { x with engine := { x.engine with orphans := orphans } }) :
    Ends (Node.Shows (σ := σ) F) (Node.setOrphans orphans) x ok bad :=
  modifyEngine (fun n hn => by rw [hn]) h

theorem attempt {act : NodeM σ α} {ok : Except Error α → Node Arena → Prop}
    (h : Ends (Node.Shows F) act x (fun v y => ok (.ok v) y) fun e y => ok (.error e) y) :
    Ends (Node.Shows F) (Node.attempt act) x ok bad := by
  intro n hn
  have hh := h n hn
  unfold Node.attempt
  cases he : act n with
  | ok v t => simpa only [he] using hh
  | error e t => simpa only [he] using hh

end Ends

/-- A computation that leaves the node alone, and answers what `ok` allows unless a
call fails. -/
def Node.Reads (F : Prop) (act : NodeM σ α) (x : Node Arena) (ok : α → Prop) : Prop :=
  Ends (Node.Shows F) act x (fun v y => y = x ∧ ok v)
    fun e y => y = x ∧ F ∧ e = Unreliable.failure

namespace Node.Reads

variable {act : NodeM σ α} {ok : α → Prop}

theorem pure {v : α} (h : ok v) : Node.Reads (σ := σ) F (pure v) x ok :=
  Ends.pure ⟨rfl, h⟩

theorem bind {next : α → NodeM σ β} {ok' : β → Prop} (h : Node.Reads F act x ok)
    (hnext : ∀ v, ok v → Node.Reads F (next v) x ok') : Node.Reads F (act >>= next) x ok' := by
  refine Ends.bind (Ends.mono h ?_ fun _ _ hv => hv)
  rintro v _ ⟨rfl, hv⟩
  exact hnext v hv

theorem of_store {act : StoreM σ α} (h : BlockTree.Reads F act x.store ok) :
    Node.Reads F (Node.onStore act) x ok :=
  Ends.reads h (fun _ hv => ⟨rfl, hv⟩) fun hF => ⟨rfl, hF, rfl⟩

theorem ends {next : α → NodeM σ β} {ok' : β → Node Arena → Prop} (h : Node.Reads F act x ok)
    (hnext : ∀ v, ok v → Ends (Node.Shows F) (next v) x ok' bad)
    (hbad : F → bad Unreliable.failure x) : Ends (Node.Shows F) (act >>= next) x ok' bad := by
  refine Ends.bind (Ends.mono h ?_ ?_)
  · rintro v _ ⟨rfl, hv⟩
    exact hnext v hv
  · rintro e _ ⟨rfl, hF, rfl⟩
    exact hbad hF

end Node.Reads

namespace Node

variable (ha : x.store.Sound)

/-- A child that cannot be resolved has bits that give no work. -/
theorem resolveChildren_or (x : Anchor) (children : List Link) :
    resolveChildren x.height x.work children =
      .ok ((children.filter Link.isOrphan).map x.lift) ∨
    ∃ o ∈ children, o.isOrphan ∧ ∃ fault, Work.ofBits o.block.header.bits = .error fault ∧
      resolveChildren x.height x.work children =
        .error (.validation (.invalidTarget fault o.block.header.bits)) := by
  induction children with
  | nil => exact .inl rfl
  | cons l ls ih =>
    rw [resolveChildren]
    by_cases ho : l.isOrphan
    · have hopen : l.isResolved = false := by simp [Link.isResolved, ho]
      cases hown : Work.ofBits l.block.header.bits with
      | error fault =>
        exact .inr ⟨l, List.mem_cons_self, ho, fault, hown, by simp only [hopen]; rfl⟩
      | ok own =>
        have hlift : (Link.resolved l.block (x.height + 1) (x.work + own)).withSeq l.seq =
            x.lift l := by rw [Anchor.lift, Block.ownWork_eq hown]
        rcases ih with hall | ⟨o, hmem, horphan, fault, hfault, hbad⟩
        · refine .inl ?_
          simp only [hopen, hall, hlift, List.filter_cons_of_pos ho, List.map_cons]
          rfl
        · refine .inr ⟨o, List.mem_cons_of_mem _ hmem, horphan, fault, hfault, ?_⟩
          simp only [hopen, hbad]
          rfl
    · have hdone : l.isResolved = true := by simp [Link.isResolved, ho]
      rw [if_pos hdone, List.filter_cons_of_neg ho]
      rcases ih with hall | ⟨o, hmem, hrest⟩
      · exact .inl hall
      · exact .inr ⟨o, List.mem_cons_of_mem _ hmem, hrest⟩

theorem resolveChildren_eq {x : Anchor} {children : List Link}
    (hvalid : ∀ l ∈ children, ∃ own, Work.ofBits l.block.header.bits = .ok own) :
    resolveChildren x.height x.work children =
      .ok ((children.filter Link.isOrphan).map x.lift) := by
  rcases resolveChildren_or x children with hall | ⟨o, hmem, -, fault, hfault, -⟩
  · exact hall
  · obtain ⟨own, hown⟩ := hvalid o hmem
    cases hown.symm.trans hfault

include ha

theorem reads_planGeneration {anchors : List Anchor} :
    Node.Reads (σ := σ) F (planGeneration anchors) x (· = x.store.generation anchors) := by
  induction anchors with
  | nil => exact .pure rfl
  | cons anchor anchors ih =>
    have hread : BlockTree.Reads (σ := σ) F (ask (.nextLinks anchor.hash)) x.store
        (· = x.store.children anchor.hash) := .ask ha trivial rfl rfl
    refine (Reads.of_store hread).bind ?_
    rintro _ rfl
    have hresolve := resolveChildren_eq (x := anchor) fun l
      (hl : l ∈ x.store.children anchor.hash) => ha.chained.valid l (List.mem_of_mem_filter hl)
    rw [hresolve]
    refine ih.bind ?_
    rintro _ rfl
    exact .pure (by simp [Arena.generation, Arena.waiting])

theorem reads_planGenerations {n : Nat} {anchors : List Anchor}
    (hend : x.store.descend^[n] anchors = []) :
    Node.Reads (σ := σ) F (planGenerations n anchors) x (· = x.store.cascade n anchors) := by
  induction n generalizing anchors with
  | zero =>
    rw [Function.iterate_zero_apply] at hend
    subst hend
    exact .pure rfl
  | succ n ih =>
    cases anchors with
    | nil => exact .pure (Arena.cascade_nil _).symm
    | cons anchor anchors =>
      refine (reads_planGeneration ha).bind ?_
      rintro _ rfl
      refine (ih hend).bind ?_
      rintro _ rfl
      exact .pure rfl

theorem reads_planPromotions {root : Anchor} (hroot : x.store.find? root.hash = none) :
    Node.Reads (σ := σ) F (planPromotions root) x (· = x.store.plan root) := by
  refine Ends.get fun n hn => ?_
  have hlen : x.store.orphans.length < Store.reach n.store + 1 :=
    Nat.lt_succ_of_le (Nat.le_trans (List.length_filter_le _ _) (Faithful.reach hn.2.1))
  refine Ends.mono (reads_planGenerations ha (ha.ordered.generations_end hroot hlen)) ?_
    fun _ _ h => h
  rintro _ _ ⟨rfl, rfl⟩
  exact ⟨rfl, ha.ordered.cascade_eq_plan hroot hlen⟩

end Node

end BlockTree
