import BlockTree.Proofs.Replies
import BlockTree.Proofs.Retry
import BlockTree.Proofs.Rooting

/-! No history keeps a branch from growing. Blocks that stand one on another, the first
on a resolved link, are all resolved in the end, whatever was left behind before. -/

namespace BlockTree

/-- Each block stands on the one before it, and the first one on `parent`. -/
def Stacked (parent : Hash) : List Block → Prop
  | [] => True
  | block :: blocks => block.prevHash = parent ∧ Stacked block.hash blocks

theorem Link.isResolved_of_height? {l : Link} {height : Nat} (h : l.height? = some height) :
    l.isResolved := by
  rw [isResolved_iff]
  cases hs : l.status with
  | orphan => simp [height?, LinkStatus.height?, hs] at h
  | resolved h w => exact ⟨h, w, rfl⟩

namespace Node

variable {d : Delivery} {ds : List Delivery} {x y : Node Arena} {r : Except Error Outcome}
  {rs : List (Except Error Outcome)} {p : Link} {height : Nat}

/-- The node answers that the block is resolved at the height, or that it is known. -/
def Welcomes (d : Delivery) (height : Nat) (r : Except Error Outcome) : Prop :=
  r = .error (.duplicateLink d.block.hash) ∨
    ∃ o work, r = .ok o ∧ o.status = .resolved height work

/-- The link is that of the block, resolved at the height. -/
structure Resolves (l : Link) (block : Block) (height : Nat) : Prop where
  hash_eq : l.hash = block.hash
  header_eq : l.block.header = block.header
  height_eq : l.height? = some height

theorem Replies.blocks_subset (h : x.Replies d r y) (hx : x.Sound) :
    y.store.blocks ⊆ d.block :: x.store.blocks := by
  cases h with
  | refused => exact List.subset_cons_self _ _
  | submitted ho =>
    have hf := hx.fresh ho.admitted
    have hcleared {l : Link} (hl : l ∈ (x.cleared (x.store.place d.block)).store.links) :
        l.block ∈ d.block :: x.store.blocks :=
      List.mem_cons_of_mem _ (List.mem_map_of_mem (mem_of_mem_cleared hl))
    intro block hblock
    rw [ho.settles.store_eq] at hblock
    obtain ⟨l, hl, rfl⟩ := List.mem_map.mp hblock
    rcases (hx.mem_taken_iff hf).mp hl with rfl | hl | ⟨hl, -⟩
    · exact List.mem_cons_self
    · obtain ⟨o, ho', -, -, hb, -⟩ := (hx.files_taken hf).replaces l hl
      exact hb ▸ hcleared ho'
    · exact hcleared hl

/-- An acceptable block with a parent is only refused for being known. -/
theorem refusal?_eq_duplicate {e : Error} (h : x.refusal? d.now d.block = some e)
    (hvalid : ∃ work, validate d.now x.engine.config.maxFutureDrift d.block = .ok work)
    (hz : d.block.prevHash.isZero = false) :
    e = .duplicateLink d.block.hash ∧ ∃ l ∈ x.store.links, l.hash = d.block.hash := by
  obtain ⟨work, hv⟩ := hvalid
  unfold refusal? at h
  cases hf : x.store.find? d.block.hash with
  | none => simp [hv, hf, hz] at h
  | some l =>
    simp only [hv, hf, Option.isSome_some, if_true, Option.some.injEq] at h
    exact ⟨h.symm, l, Arena.mem_of_find? hf⟩

/-- No orphan is stored below a resolved link. -/
theorem Sound.height_above (hx : x.Sound) {l : Link} (hl : l ∈ x.store.links)
    (hz : l.parentHash.isZero = false) (hp : p ∈ x.store.links) (hpl : p.hash = l.parentHash)
    (hheight : p.height? = some height) : l.height? = some (height + 1) := by
  have hresolved : l.isResolved := by
    rw [← Link.isOrphan_eq_false_iff]
    by_contra horphan
    have hpo := hx.arena.chained.waits l hl (by simpa using horphan) p hp hpl
    rw [Link.height?, Link.isOrphan_iff.mp hpo] at hheight
    cases hheight
  obtain ⟨q, hq, habove⟩ := hx.arena.chained.stands l hl hresolved hz
  obtain rfl : q = p := hx.arena.ordered.eq_of_hash hq hp (habove.hash_eq.trans hpl.symm)
  obtain ⟨h, w, own, hqs, -, hls⟩ := habove.status_eq
  rw [Link.height?, hqs] at hheight
  rw [Link.height?, hls, ← Option.some.inj hheight]
  rfl

section Step

variable (hx : x.Sound)
  (hvalid : ∃ work, validate d.now x.engine.config.maxFutureDrift d.block = .ok work)
  (hz : d.block.prevHash.isZero = false) (hp : p ∈ x.store.links)
  (hparent : d.block.prevHash = p.hash) (hheight : p.height? = some height)

include hx hvalid hz hp hparent hheight

theorem Replies.grows (h : x.Replies d r y)
    (hknown : ∀ b ∈ x.store.blocks, b.hash = d.block.hash → b.header = d.block.header) :
    Welcomes d (height + 1) r ∧ ∃ l ∈ y.store.links, Resolves l d.block (height + 1) := by
  cases h with
  | refused hrefused =>
    obtain ⟨rfl, l, hl, hh⟩ := refusal?_eq_duplicate hrefused hvalid hz
    -- the block is known from before, and so is its parent
    have hheader : l.block.header = d.block.header :=
      hknown l.block (List.mem_map_of_mem hl) ((hx.arena.ordered.hash_eq l hl).symm.trans hh)
    have hprev : l.parentHash = d.block.prevHash := congrArg Header.prevHash hheader
    have habove := hx.height_above hl (hprev ▸ hz) hp (hparent.symm.trans hprev.symm) hheight
    exact ⟨.inl rfl, l, hl, hh, hheader, habove⟩
  | @submitted o _ ho =>
    have hf := hx.fresh ho.admitted
    have hstored : x.stored d.block ∈ (x.taken d.block).store.links :=
      (hx.mem_taken_iff hf).mpr (.inl rfl)
    have hpt : p ∈ (x.taken d.block).store.links :=
      hx.mem_taken hf hp (Link.isResolved_of_height? hheight)
    have habove : (x.stored d.block).height? = some (height + 1) :=
      (hx.taken hf).height_above hstored hz hpt hparent.symm hheight
    refine ⟨.inr ?_, x.stored d.block, ho.settles.store_eq ▸ hstored, rfl, rfl, habove⟩
    have hplace : (x.store.place d.block).height? = some (height + 1) := habove
    cases hs : x.store.place d.block with
    | orphan => simp [hs, LinkStatus.height?] at hplace
    | resolved h w =>
      rw [hs] at hplace
      exact ⟨o, w, rfl, by rw [ho.status_eq, hs, Option.some.inj hplace]⟩

end Step

theorem RepliesAll.grows (h : x.RepliesAll ds rs y) (hx : x.Sound)
    (hvalid : ∀ d ∈ ds, ∃ work,
      validate d.now x.engine.config.maxFutureDrift d.block = .ok work)
    (hz : ∀ d ∈ ds, d.block.prevHash.isZero = false) (hp : p ∈ x.store.links)
    (hstacked : Stacked p.hash (ds.map Delivery.block)) (hheight : p.height? = some height)
    (hknown : ∀ d ∈ ds, ∀ b ∈ ds.map Delivery.block ++ x.store.blocks,
      b.hash = d.block.hash → b.header = d.block.header)
    {i : Nat} (hd : ds[i]? = some d) :
    (∃ r, rs[i]? = some r ∧ Welcomes d (height + (i + 1)) r) ∧
      ∃ l ∈ y.store.links, Resolves l d.block (height + (i + 1)) := by
  induction h generalizing p height i with
  | done => simp at hd
  | @next x y z e ds r rs hstep hrest ih =>
    obtain ⟨hparent, hstacked⟩ := hstacked
    have hfirst := hstep.grows hx (hvalid e (by simp)) (hz e (by simp)) hp hparent hheight
      fun b hb => hknown e (by simp) b (by simp [hb])
    obtain ⟨hwelcome, l, hl, hresolves⟩ := hfirst
    obtain ⟨hy, -⟩ := hstep.sound hx
    cases i with
    | zero =>
      obtain rfl : e = d := by simpa using hd
      have hkept := (hrest.sound hy).2 l hl (Link.isResolved_of_height? hresolves.height_eq)
      exact ⟨⟨r, rfl, hwelcome⟩, l, hkept, hresolves⟩
    | succ i =>
      have hlater := ih hy (fun d hd => hstep.config_eq ▸ hvalid d (by simp [hd]))
        (fun d hd => hz d (by simp [hd])) hl (hresolves.hash_eq ▸ hstacked) hresolves.height_eq
        (fun d hd b hb => hknown d (by simp [hd]) b ?_) (by simpa using hd)
      · have hi : height + 1 + (i + 1) = height + (i + 1 + 1) := by omega
        simpa [hi] using hlater
      · rcases List.mem_append.mp hb with hb | hb
        · simp [List.mem_map.mp hb]
        · have := hstep.blocks_subset hx hb
          rcases List.mem_cons.mp this with rfl | hb
          · simp
          · simp [hb]

section Histories

variable {b : Backing} {permitted : ConsensusConfig → Prop} {n : b.Ledger}

/-- Two different headers have one hash, and one of them is that of a listed block. -/
def Clashes (n : b.Ledger) (blocks : List Block) : Prop :=
  ∃ block ∈ blocks, ∃ other, (other ∈ blocks ∨ ∃ l, n.Stores l ∧ l.block = other) ∧
    other.hash = block.hash ∧ other.header ≠ block.header

/-- Whatever was handed in and whichever calls failed before, acceptable blocks that stand
one on another above a resolved link are taken in or known, and end up resolved. -/
theorem grows_of_reachable (h : Reachable permitted n) (hp : n.Stores p)
    (hheight : p.height? = some height) (hstacked : Stacked p.hash (ds.map Delivery.block))
    (hvalid : ∀ d ∈ ds, ∃ work,
      validate d.now n.engine.config.maxFutureDrift d.block = .ok work)
    (hz : ∀ d ∈ ds, d.block.prevHash.isZero = false) (hroom : n.mended.HasRoom ds) :
    (∀ i d, ds[i]? = some d →
      (∃ r, (n.mended.replies ds)[i]? = some r ∧ Welcomes d (height + (i + 1)) r) ∧
        ∃ l, (n.mended.feed ds).Stores l ∧ Resolves l d.block (height + (i + 1))) ∨
      n.Clashes (ds.map Delivery.block) := by
  obtain ⟨x, hx⟩ := h.exists_mirror
  obtain ⟨y, hy, hreplies⟩ := hx.shows.mended.replies hx.sound hroom
  have hstored : ∀ {l : Link}, n.Stores l ↔ l ∈ x.store.links := hx.shows.stores hx.sound.arena
  have hconfig : x.engine.config = n.engine.config := congrArg Engine.config hx.shows.1.symm
  by_cases hclash : n.Clashes (ds.map Delivery.block)
  · exact .inr hclash
  · have hknown : ∀ d ∈ ds, ∀ block ∈ ds.map Delivery.block ++ x.store.blocks,
        block.hash = d.block.hash → block.header = d.block.header := by
      intro d hd block hblock hhash
      by_contra hne
      refine hclash ⟨d.block, List.mem_map_of_mem hd, block, ?_, hhash, hne⟩
      refine (List.mem_append.mp hblock).imp_right fun hold => ?_
      obtain ⟨l, hl, hb⟩ := List.mem_map.mp hold
      exact ⟨l, hstored.mpr hl, hb⟩
    refine .inl fun i d hd => ?_
    obtain ⟨hwelcome, l, hl, hresolves⟩ := hreplies.grows hx.sound (hconfig ▸ hvalid) hz
      (hstored.mp hp) hstacked hheight hknown hd
    exact ⟨hwelcome, l, (hy.stores (hreplies.sound hx.sound).1.arena).mpr hl, hresolves⟩

/-- The genesis block was written when a call failed, and the third block waits for its
parent. -/
def halfBuilt : Backing.arena.Ledger :=
  ((hindered .lastLink).after (submit 0 .first)).after (submit 0 .third)

def missingPart : List Delivery :=
  [⟨0, .rival⟩, ⟨0, .third⟩]

theorem halfBuilt_computed :
    Arena.find? halfBuilt.store.store Block.first.hash = some (.genesis .first) ∧
    halfBuilt.engine.config = {} ∧
    ∀ d ∈ missingPart, validate d.now 7200 d.block = .ok 1 ∧ d.block.prevHash.isZero = false := by
  decide +kernel

theorem reachable_halfBuilt : Reachable (fun _ => True) halfBuilt := by
  refine (reachable_hindered .lastLink).later ?_
  exact (later_submit _ 0 .first).trans (later_submit _ 0 .third)

theorem grows_halfBuilt :
    (∀ i d, missingPart[i]? = some d →
      (∃ r, (halfBuilt.mended.replies missingPart)[i]? = some r ∧ Welcomes d (0 + (i + 1)) r) ∧
        ∃ l, (halfBuilt.mended.feed missingPart).Stores l ∧ Resolves l d.block (0 + (i + 1))) ∨
      halfBuilt.Clashes (missingPart.map Delivery.block) := by
  obtain ⟨hfind, hconfig, hvalid⟩ := halfBuilt_computed
  have hp : halfBuilt.Stores (.genesis .first) := stores_of_find? (l := .genesis .first) hfind
  have hstacked : Stacked (Link.genesis .first).hash (missingPart.map Delivery.block) :=
    ⟨rfl, rfl, trivial⟩
  refine grows_of_reachable reachable_halfBuilt hp rfl hstacked ?_
    (fun d hd => (hvalid d hd).2) (hasRoom_arena _ _)
  exact fun d hd => ⟨1, hconfig ▸ (hvalid d hd).1⟩

end Histories

end Node

end BlockTree
