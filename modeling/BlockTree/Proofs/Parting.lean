import BlockTree.Proofs.BranchChanges

/-! Where the paths of two resolved links part. What lies above on the one path is undone,
from its tip down, and what lies above on the other is applied, up to its tip. The way back
is the same, read backwards. -/

namespace BlockTree

/-- The path from a stored link down to the root, by parent hashes. -/
inductive Descends (stored : Link → Prop) : Link → List Link → Prop
  | root {l : Link} : stored l → l.parentHash.isZero → Descends stored l [l]
  | child {l p : Link} {path : List Link} : stored l → l.parentHash.isZero = false →
    p.hash = l.parentHash → Descends stored p path → Descends stored l (l :: path)

theorem Descends.stored {known : Link → Prop} {l : Link} {path : List Link}
    (h : Descends known l path) : known l := by
  cases h <;> assumption

namespace Arena

variable {a : Arena} {l : Link} {path path' : List Link}

theorem Lineage.descends (h : a.Lineage l path) : Descends (· ∈ a.links) l path := by
  induction h with
  | root hl hz => exact .root hl hz
  | child hl hz habove _ ih => exact .child hl hz habove.hash_eq ih

theorem Ordered.descends_unique (ho : a.Ordered) (h : Descends (· ∈ a.links) l path)
    (h' : Descends (· ∈ a.links) l path') : path = path' := by
  induction h generalizing path' with
  | root hl hz =>
    cases h' with
    | root => rfl
    | child _ hz' => simp [hz] at hz'
  | child hl hz hp hpath ih =>
    cases h' with
    | root _ hz' => simp [hz] at hz'
    | child _ _ hp' hpath' =>
      have hsame := ho.eq_of_hash hpath'.stored hpath.stored (hp'.trans hp.symm)
      rw [ih (hsame ▸ hpath')]

theorem Lineage.descends_iff (h : a.Lineage l path) (ho : a.Ordered) :
    Descends (· ∈ a.links) l path' ↔ path' = path :=
  ⟨fun h' => ho.descends_unique h' h.descends, fun he => he ▸ h.descends⟩

end Arena

namespace Delta

/-- The way back. -/
def reversed (d : Delta) : Delta where
  ancestor := d.ancestor
  undo := d.apply.reverse
  apply := d.undo.reverse

theorem reversed_reversed (d : Delta) : d.reversed.reversed = d := by
  simp [reversed]

namespace Parts

variable {a : Arena} {d d' : Delta} {old new : Link} {oldPath newPath : List Link}

theorem exists_cut (h : d.Parts [] [] oldPath newPath) : ∃ above beside shared,
    oldPath = above ++ d.ancestor :: shared ∧ newPath = beside ++ d.ancestor :: shared ∧
      d = ⟨d.ancestor, above, beside.reverse⟩ ∧ ∀ l ∈ above, l ∉ beside := by
  obtain ⟨above, beside, shared, hold, hnew, hundo, happly, hapart⟩ := h
  refine ⟨above, beside, shared, hold, hnew, ?_, hapart⟩
  rw [List.reverse_nil, List.nil_append] at hundo
  rw [List.append_nil] at happly
  rw [← hundo, ← happly]

theorem reversed (h : d.Parts [] [] oldPath newPath) :
    d.reversed.Parts [] [] newPath oldPath := by
  obtain ⟨above, beside, shared, hold, hnew, hundo, happly, hapart⟩ := h
  refine ⟨beside, above, shared, hnew, hold, ?_, ?_, fun l hl hmem => hapart l hmem hl⟩
  · simp [Delta.reversed, happly]
  · simp [Delta.reversed, hundo]

/-- The path of a resolved link meets no link twice, so it is cut at the ancestor in one
way only. -/
theorem unique (h : d.Parts [] [] oldPath newPath) (h' : d'.Parts [] [] oldPath newPath)
    (hold : a.Lineage old oldPath) (hnew : a.Lineage new newPath) : d = d' := by
  have hsame := h.ancestor_unique hold h'
  obtain ⟨above, beside, shared, ho, hn, hd, -⟩ := h.exists_cut
  obtain ⟨above', beside', shared', ho', hn', hd', -⟩ := h'.exists_cut
  have hcut {path upper upper' rest rest' : List Link} {top : Link} (hnodup : path.Nodup)
      (he : path = upper ++ top :: rest) (he' : path = upper' ++ top :: rest') :
      upper = upper' := by
    rw [he, List.nodup_middle, List.nodup_cons, List.mem_append, not_or] at hnodup
    rw [he] at he'
    exact ((List.append_cons_inj_of_notMem hnodup.1.1 hnodup.1.2).mp he').1
  rw [← hsame] at ho' hn' hd'
  rw [hd, hd', hcut hold.nodup ho ho', hcut hnew.nodup hn hn']

end Parts

end Delta

namespace Node

variable {b : Backing} {permitted : ConsensusConfig → Prop} {n : b.Ledger} {old new : Link}

/-- Between any two resolved links of a store there is a way, over the highest link that
lies on both their paths, and the way back is the same. -/
theorem between_of_reachable (h : Reachable permitted n) (hold : n.Stores old)
    (hnew : n.Stores new) (hold' : old.isResolved) (hnew' : new.isResolved) :
    ∃ above beside shared top,
      (∀ path, Descends n.Stores old path ↔ path = above ++ top :: shared) ∧
      (∀ path, Descends n.Stores new path ↔ path = beside ++ top :: shared) ∧
      top.Highest (above ++ top :: shared) (beside ++ top :: shared) ∧
      (∀ l ∈ above, l ∉ beside) ∧
      (∃ s, Delta.between old new n.store.store = .ok ⟨top, above, beside.reverse⟩ s) ∧
      ∃ s, Delta.between new old n.store.store = .ok ⟨top, beside, above.reverse⟩ s := by
  obtain ⟨x, hx⟩ := h.exists_mirror
  have harena := hx.sound.arena
  have hstores {l : Link} : n.Stores l ↔ l ∈ x.store.links := hx.shows.stores harena
  have heq : n.Stores = (· ∈ x.store.links) := hx.shows.stores_eq harena
  obtain ⟨oldPath, ho⟩ := harena.chained.exists_lineage (hstores.mp hold) hold'
  obtain ⟨newPath, hn⟩ := harena.chained.exists_lineage (hstores.mp hnew) hnew'
  obtain ⟨d, s, hd, hparts⟩ := hx.shows.exists_read (harena.reads_between ho hn)
  obtain ⟨e, t, he, hback⟩ := hx.shows.exists_read (harena.reads_between hn ho)
  have hsame : e = d.reversed := by
    rw [← hback.reversed.unique hparts ho hn, Delta.reversed_reversed]
  have hhighest := hparts.highest ho
  obtain ⟨above, beside, shared, hop, hnp, hcut, hapart⟩ := hparts.exists_cut
  rw [hop, hnp] at hhighest
  refine ⟨above, beside, shared, d.ancestor, ?_, ?_, hhighest, hapart, ⟨s, ?_⟩, ⟨t, ?_⟩⟩
  · intro path
    rw [heq, ho.descends_iff harena.ordered, hop]
  · intro path
    rw [heq, hn.descends_iff harena.ordered, hnp]
  · rw [← hcut, hd]
  · rw [he, hsame, hcut, Delta.reversed, List.reverse_reverse]

section Sessions

theorem Reachable.feed {n : Backing.arena.Ledger} (h : Reachable permitted n)
    (ds : List Delivery) : Reachable permitted (n.feed ds) := by
  induction ds generalizing n with
  | nil => exact h
  | cons d ds ih => exact ih (h.later (later_submit n d.now d.block))

/-- One branch of one block and one of two, above the first block. -/
def forked : Backing.arena.Ledger :=
  (started {} []).feed branches

theorem forked_computed :
    (Arena.find? forked.store.store Block.second.hash).map Link.isResolved = some true ∧
    (Arena.find? forked.store.store Block.third.hash).map Link.isResolved = some true := by
  decide +kernel

theorem exists_stored_of_find? {n : Backing.arena.Ledger} {hash : Hash}
    (h : (Arena.find? n.store.store hash).map Link.isResolved = some true) :
    ∃ l, n.Stores l ∧ l.hash = hash ∧ l.isResolved := by
  obtain ⟨l, hl, hr⟩ := Option.map_eq_some_iff.mp h
  obtain ⟨-, rfl⟩ := Arena.mem_of_find? hl
  exact ⟨l, stores_of_find? hl, rfl, hr⟩

theorem between_forked : ∃ old new, old.hash = Block.second.hash ∧
    new.hash = Block.third.hash ∧ ∃ top above beside, (∀ l ∈ above, l ∉ beside) ∧
      (∃ s, Delta.between old new forked.store.store = .ok ⟨top, above, beside.reverse⟩ s) ∧
      ∃ s, Delta.between new old forked.store.store = .ok ⟨top, beside, above.reverse⟩ s := by
  obtain ⟨hsecond, hthird⟩ := forked_computed
  obtain ⟨old, hold, hsecondHash, holdResolved⟩ := exists_stored_of_find? hsecond
  obtain ⟨new, hnew, hthirdHash, hnewResolved⟩ := exists_stored_of_find? hthird
  have hreachable : Reachable (fun _ => True) forked :=
    Reachable.feed (reachable_planned trivial (by decide) []) branches
  obtain ⟨above, beside, -, top, -, -, -, hapart, hforth, hback⟩ :=
    between_of_reachable hreachable hold hnew holdResolved hnewResolved
  exact ⟨old, new, hsecondHash, hthirdHash, top, above, beside, hapart, hforth, hback⟩

end Sessions

end Node

end BlockTree
