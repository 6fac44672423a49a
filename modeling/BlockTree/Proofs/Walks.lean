import BlockTree.Delta
import BlockTree.Path
import BlockTree.Proofs.Faithful

/-! Walks along parents in a store that answers as a sound arena does. They follow the
lineage of the link where they start, and nothing but a failing call stops them. -/

namespace BlockTree

variable {σ : Type} [Medium σ] [Faithful σ] {F : Prop} {a b : Arena} {α β : Type}

/-- The store holds what the arena holds, and can fail only if `F` holds. -/
def Backed (F : Prop) (s : σ) (a : Arena) : Prop :=
  Faithful.holds s a ∧ (Faithful.troubled s → F)

theorem Ends.ask {call : Call α} {v : α} {ok : α → Arena → Prop} {bad : Error → Arena → Prop}
    (ha : a.Sound) (hp : a.Promised (Faithful.fits σ) call) (he : Arena.answer call a = .ok v b)
    (hok : ok v b) (hbad : F → bad Unreliable.failure a) :
    Ends (S := σ) (Backed F) (BlockTree.ask call) a ok bad := by
  rintro s ⟨hs, hF⟩
  rcases Faithful.answers hs ha hp he with ⟨t, ht, htb, hback⟩ | ⟨htrouble, t, ht, hta⟩
  · simp only [BlockTree.ask, ht]
    exact ⟨b, ⟨htb, fun h => hF (hback h)⟩, hok⟩
  · simp only [BlockTree.ask, ht]
    exact ⟨a, ⟨hta, fun _ => hF htrouble⟩, hbad (hF htrouble)⟩

/-- A computation that leaves what is stored alone, and answers what `ok` allows
unless a call fails. -/
def Reads (F : Prop) (act : StoreM σ α) (a : Arena) (ok : α → Prop) : Prop :=
  Ends (Backed F) act a (fun v b => b = a ∧ ok v)
    fun e b => b = a ∧ F ∧ e = Unreliable.failure

namespace Reads

variable {act : StoreM σ α} {ok ok' : α → Prop}

theorem pure {v : α} (h : ok v) : Reads (σ := σ) F (pure v) a ok :=
  Ends.pure ⟨rfl, h⟩

theorem bind {next : α → StoreM σ β} {ok' : β → Prop} (h : Reads F act a ok)
    (hnext : ∀ v, ok v → Reads F (next v) a ok') : Reads F (act >>= next) a ok' := by
  refine Ends.bind (Ends.mono h ?_ fun _ _ hv => hv)
  rintro v _ ⟨rfl, hv⟩
  exact hnext v hv

theorem mono (h : Reads F act a ok) (hok : ∀ v, ok v → ok' v) : Reads F act a ok' :=
  Ends.mono h (fun v _ hv => ⟨hv.1, hok v hv.2⟩) fun _ _ hv => hv

theorem ask {call : Call α} {v : α} (ha : a.Sound) (hp : a.Promised (Faithful.fits σ) call)
    (he : Arena.answer call a = .ok v a) (hok : ok v) :
    Reads (σ := σ) F (BlockTree.ask call) a ok :=
  Ends.ask ha hp he ⟨rfl, hok⟩ fun h => ⟨rfl, h, rfl⟩

end Reads

/-- A computation that leaves what is stored alone and ends with the error, unless a call
fails. -/
def Refuses (F : Prop) (act : StoreM σ α) (a : Arena) (e : Error) : Prop :=
  Ends (Backed F) act a (fun _ _ => False)
    fun e' b => b = a ∧ (e' = e ∨ F ∧ e' = Unreliable.failure)

namespace Refuses

variable {act : StoreM σ α} {e : Error}

theorem throw : Refuses (σ := σ) F (throw e : StoreM σ α) a e :=
  Ends.throw ⟨rfl, .inl rfl⟩

theorem bind {next : α → StoreM σ β} (h : Refuses F act a e) : Refuses F (act >>= next) a e :=
  Ends.bind (Ends.mono h (fun _ _ hv => hv.elim) fun _ _ hv => hv)

end Refuses

theorem Reads.refuses {act : StoreM σ α} {next : α → StoreM σ β} {ok : α → Prop} {e : Error}
    (h : Reads F act a ok) (hnext : ∀ v, ok v → Refuses F (next v) a e) :
    Refuses F (act >>= next) a e := by
  refine Ends.bind (Ends.mono h ?_ fun e' b hb => ⟨hb.1, .inr hb.2⟩)
  rintro v _ ⟨rfl, hv⟩
  exact hnext v hv

namespace Arena.Sound

variable (ha : a.Sound)

include ha

theorem reads_getLink (hash : Hash) :
    Reads (σ := σ) F (ask (.getLink hash)) a (· = a.find? hash) :=
  .ask ha trivial rfl rfl

theorem reads_parentOf_child {l p : Link} (hz : l.parentHash.isZero = false) (habove : l.Above p)
    (hp : p ∈ a.links) : Reads (σ := σ) F (parentOf l) a (· = some p) := by
  have hgo : ¬(l.isGenesis || l.parentHash.isZero) := by simp [habove.isGenesis, hz]
  rw [parentOf, if_neg hgo]
  refine (ha.reads_getLink l.parentHash).mono ?_
  rintro _ rfl
  rw [← habove.hash_eq]
  exact ha.ordered.find?_mem hp

omit ha in
theorem reads_parentOf_root {l : Link} (hz : l.parentHash.isZero) :
    Reads (σ := σ) F (parentOf l) a (· = none) := by
  rw [parentOf, if_pos (by simp [hz])]
  exact .pure rfl

omit ha in
theorem reads_stride : Reads (σ := σ) F stride a (a.links.length < ·) := by
  rintro s ⟨hs, hF⟩
  exact ⟨a, ⟨hs, hF⟩, rfl, Nat.lt_succ_of_le (Faithful.reach hs)⟩

theorem reads_ancestryWithin {steps : Nat} {l : Link} {path : List Link} (h : a.Lineage l path)
    (hsteps : path.length ≤ steps) :
    Reads (σ := σ) F (ancestryWithin steps l) a (· = path) := by
  induction h generalizing steps with
  | root hl hz hs =>
    obtain ⟨steps, rfl⟩ : ∃ n, steps = n + 1 := ⟨steps - 1, by simp at hsteps; omega⟩
    refine (reads_parentOf_root hz).bind ?_
    rintro _ rfl
    exact .pure rfl
  | child hl hz habove hpath ih =>
    obtain ⟨steps, rfl⟩ : ∃ n, steps = n + 1 := ⟨steps - 1, by simp at hsteps; omega⟩
    refine (ha.reads_parentOf_child hz habove hpath.mem_links).bind ?_
    rintro _ rfl
    refine (ih (by simpa using hsteps)).bind ?_
    rintro _ rfl
    exact .pure rfl

theorem reads_firstWithin {wanted : Link → Bool} {steps : Nat} {l : Link} {path : List Link}
    (h : a.Lineage l path) (hsteps : path.length ≤ steps) :
    Reads (σ := σ) F (firstWithin wanted steps l) a (· = path.find? wanted) := by
  induction h generalizing steps with
  | @root l hl hz hs =>
    obtain ⟨steps, rfl⟩ : ∃ n, steps = n + 1 := ⟨steps - 1, by simp at hsteps; omega⟩
    rw [firstWithin]
    by_cases hw : wanted l
    · rw [if_pos hw]
      exact .pure (by simp [hw])
    · rw [if_neg hw]
      refine (reads_parentOf_root hz).bind ?_
      rintro _ rfl
      exact .pure (by simp [hw])
  | @child l p path hl hz habove hpath ih =>
    obtain ⟨steps, rfl⟩ : ∃ n, steps = n + 1 := ⟨steps - 1, by simp at hsteps; omega⟩
    rw [firstWithin]
    by_cases hw : wanted l
    · rw [if_pos hw]
      exact .pure (by simp [hw])
    · rw [if_neg hw]
      refine (ha.reads_parentOf_child hz habove hpath.mem_links).bind ?_
      rintro _ rfl
      refine (ih (by simpa using hsteps)).mono ?_
      rintro _ rfl
      simp [hw]

theorem reads_ancestry {l : Link} {path : List Link} (h : a.Lineage l path) :
    Reads (σ := σ) F (ancestry l) a (· = path) := by
  refine reads_stride.bind fun steps hsteps => ha.reads_ancestryWithin h ?_
  have := h.length_le
  omega

theorem reads_firstOnBranch {wanted : Link → Bool} {l : Link} {path : List Link}
    (h : a.Lineage l path) :
    Reads (σ := σ) F (firstOnBranch wanted l) a (· = path.find? wanted) := by
  refine reads_stride.bind fun steps hsteps => ha.reads_firstWithin h ?_
  have := h.length_le
  omega

theorem reads_toLink {l : Link} {path : List Link} (h : a.Lineage l path) :
    Reads (σ := σ) F (Path.toLink l) a fun p => p.links = path.reverse := by
  obtain ⟨n, w, hs⟩ := Link.isResolved_iff.mp h.isResolved
  have hheight : l.height? = some n := by simp [Link.height?, LinkStatus.height?, hs]
  have hne : path ≠ [] := h.ne_nil
  have hfits : path.reverse ≠ [] ∧ path.reverse.head?.any Link.isGenesis ∧
      path.reverse.length = n + 1 := by
    refine ⟨by simpa using hne, ?_, by simpa using (h.length_eq hs).1⟩
    rw [List.head?_reverse, List.getLast?_eq_some_getLast hne]
    exact h.isGenesis_getLast hne
  rw [Path.toLink, hheight]
  refine (ha.reads_ancestry h).bind ?_
  rintro _ rfl
  rw [Path.ofLinks, dif_pos hfits]
  exact .pure rfl

end Arena.Sound

/-- Where two lineages part: each runs down to the ancestor by links of its own, and
they are the same from there. -/
structure Delta.Parts (d : Delta) (undo apply old new : List Link) : Prop where
  ancestor : ∃ du da rest, old = du ++ d.ancestor :: rest ∧ new = da ++ d.ancestor :: rest ∧
    d.undo = undo.reverse ++ du ∧ d.apply = da.reverse ++ apply ∧ ∀ l ∈ du, l ∉ da

namespace Delta.Parts

variable {d : Delta} {undo apply oldPath newPath : List Link} {old new : Link}

theorem undone (h : d.Parts (old :: undo) apply oldPath newPath) (hnot : old ∉ newPath) :
    d.Parts undo apply (old :: oldPath) newPath := by
  obtain ⟨du, da, below, hold, hnew, hundo, happly, hapart⟩ := h
  refine ⟨⟨old :: du, da, below, by simp [hold], hnew, by simp [hundo], happly, ?_⟩⟩
  intro l hl hmem
  rcases List.mem_cons.mp hl with he | hl
  · exact hnot (by simp [hnew, ← he, hmem])
  · exact hapart l hl hmem

theorem applied (h : d.Parts undo (new :: apply) oldPath newPath) (hnot : new ∉ oldPath) :
    d.Parts undo apply oldPath (new :: newPath) := by
  obtain ⟨du, da, below, hold, hnew, hundo, happly, hapart⟩ := h
  refine ⟨⟨du, new :: da, below, hold, by simp [hnew], hundo, by simp [happly], ?_⟩⟩
  intro l hl hmem
  rcases List.mem_cons.mp hmem with he | hmem
  · exact hnot (by simp [hold, ← he, hl])
  · exact hapart l hl hmem

end Delta.Parts

namespace Arena.Sound

variable (ha : a.Sound)

include ha

theorem reads_stepDown {l p : Link} (hz : l.parentHash.isZero = false) (habove : l.Above p)
    (hp : p ∈ a.links) : Reads (σ := σ) F (Delta.stepDown l) a (· = p) := by
  refine (ha.reads_parentOf_child hz habove hp).bind ?_
  rintro _ rfl
  exact .pure rfl

omit ha in
theorem reads_heightOf {l : Link} {n w : Nat} (hs : l.status = .resolved n w) :
    Reads (σ := σ) F (Delta.heightOf l) a (· = n) := by
  have hheight : l.height? = some n := by simp [Link.height?, LinkStatus.height?, hs]
  rw [Delta.heightOf, hheight]
  exact .pure rfl

theorem exists_height_succ {old new : Link} {n w v : Nat} (ho : old ∈ a.links)
    (hn : new ∈ a.links) (hs : old.status = .resolved n w) (hs' : new.status = .resolved n v)
    (hne : old.hash ≠ new.hash) : ∃ k, n = k + 1 := by
  cases n with
  | zero =>
    have hold := ha.pointed.genesis_eq old ho (Link.isGenesis_iff.mpr ⟨w, hs⟩)
    have hnew := ha.pointed.genesis_eq new hn (Link.isGenesis_iff.mpr ⟨v, hs'⟩)
    rw [hold] at hnew
    exact absurd (Option.some.inj hnew) hne
  | succ k => exact ⟨k, rfl⟩

/-- Both sides come down to the same height before they come down together, so what
they left behind has no link in common. -/
theorem reads_meet {steps : Nat} {old new : Link} {oldPath newPath undo apply : List Link}
    (ho : a.Lineage old oldPath) (hn : a.Lineage new newPath)
    (hsteps : oldPath.length + newPath.length ≤ steps) :
    Reads (σ := σ) F (Delta.meet steps old new undo apply) a
      fun d => d.Parts undo apply oldPath newPath := by
  induction steps generalizing old new oldPath newPath undo apply with
  | zero =>
    obtain ⟨rest, rfl⟩ := ho.head_eq
    simp at hsteps
  | succ steps ih =>
    obtain ⟨n, w, hs⟩ := Link.isResolved_iff.mp ho.isResolved
    obtain ⟨m, v, hs'⟩ := Link.isResolved_iff.mp hn.isResolved
    rw [Delta.meet]
    by_cases he : old.hash = new.hash
    · have hsame : old = new := ha.ordered.eq_of_hash ho.mem_links hn.mem_links he
      subst hsame
      rw [if_pos rfl]
      obtain ⟨oldRest, hor⟩ := ho.head_eq
      have hpaths : newPath = old :: oldRest := (hn.unique ha.ordered ho).trans hor
      exact .pure ⟨⟨[], [], oldRest, hor, hpaths, by simp, by simp, by simp⟩⟩
    · rw [if_neg he]
      refine (reads_heightOf hs).bind ?_
      rintro n rfl
      refine (reads_heightOf hs').bind ?_
      rintro m rfl
      rcases Nat.lt_trichotomy m n with hlt | heq | hlt
      · obtain ⟨n, rfl⟩ : ∃ k, n = k + 1 := ⟨n - 1, by omega⟩
        obtain ⟨p, rest, w', rfl, hp, hz, habove, -⟩ := ho.exists_parent hs
        rw [if_pos hlt]
        refine (ha.reads_stepDown hz habove hp.mem_links).bind ?_
        rintro _ rfl
        refine (ih hp hn (by simp at hsteps; omega)).mono fun d hd => ?_
        exact hd.undone (hn.not_mem_of_height_lt hs' hs hlt)
      · subst heq
        obtain ⟨m, rfl⟩ := ha.exists_height_succ ho.mem_links hn.mem_links hs hs' he
        obtain ⟨p, rest, w', rfl, hp, hz, habove, hps⟩ := ho.exists_parent hs
        obtain ⟨q, rest', v', rfl, hq, hz', habove', hqs⟩ := hn.exists_parent hs'
        rw [if_neg (Nat.lt_irrefl _), if_neg (Nat.lt_irrefl _)]
        refine (ha.reads_stepDown hz habove hp.mem_links).bind ?_
        rintro _ rfl
        refine (ha.reads_stepDown hz' habove' hq.mem_links).bind ?_
        rintro _ rfl
        refine (ih hp hq (by simp at hsteps; omega)).mono fun d hd => ?_
        have hnew : new ∉ rest := hp.not_mem_of_height_lt hps hs' (Nat.lt_succ_self m)
        have hold : old ∉ rest' := hq.not_mem_of_height_lt hqs hs (Nat.lt_succ_self m)
        have hne : old ≠ new := fun h => he (congrArg Link.hash h)
        exact (hd.applied hnew).undone (by simp [hne, hold])
      · obtain ⟨m, rfl⟩ : ∃ k, m = k + 1 := ⟨m - 1, by omega⟩
        obtain ⟨p, rest, w', rfl, hp, hz, habove, -⟩ := hn.exists_parent hs'
        rw [if_neg (by omega), if_pos hlt]
        refine (ha.reads_stepDown hz habove hp.mem_links).bind ?_
        rintro _ rfl
        refine (ih ho hp (by simp at hsteps; omega)).mono fun d hd => ?_
        exact hd.applied (ho.not_mem_of_height_lt hs hs' hlt)

theorem reads_between {old new : Link} {oldPath newPath : List Link}
    (ho : a.Lineage old oldPath) (hn : a.Lineage new newPath) :
    Reads (σ := σ) F (Delta.between old new) a fun d => d.Parts [] [] oldPath newPath := by
  refine reads_stride.bind fun steps hsteps => ha.reads_meet ho hn ?_
  have := ho.length_le
  have := hn.length_le
  omega

theorem reads_commonAncestor {old new : Link} {oldPath newPath : List Link}
    (ho : a.Lineage old oldPath) (hn : a.Lineage new newPath) :
    Reads (σ := σ) F (commonAncestor old new) a
      fun l => ∃ d : Delta, d.ancestor = l ∧ d.Parts [] [] oldPath newPath :=
  (ha.reads_between ho hn).bind fun d hd => .pure ⟨d, rfl, hd⟩

end Arena.Sound

end BlockTree
