import BlockTree.Proofs.Walks

/-! A listener that keeps the path to the tip as a stack. The links between two tips turn
the path to the one into the path to the other. -/

namespace BlockTree

/-- What is done to a stack of links, which may fail. -/
abbrev Follower := StateT (List Link) Option

namespace Follower

/-- Takes the link from the top, and fails if another one is there. -/
def undo (link : Link) : Follower Unit
  | top :: rest => if top = link then some ((), rest) else none
  | [] => none

def apply (link : Link) : Follower Unit
  | stack => some ((), link :: stack)

theorem forM_cons {α : Type} {act : α → Follower Unit} {v : α} {vs : List α}
    {stack : List Link} :
    (v :: vs).forM act stack = (act v stack).bind fun r => vs.forM act r.2 := by
  rfl

variable {links stack after : List Link}

theorem undo_all (links rest : List Link) :
    links.forM undo (links ++ rest) = some ((), rest) := by
  induction links with
  | nil => rfl
  | cons link links ih => simpa [forM_cons, undo] using ih

theorem apply_all (links rest : List Link) :
    links.forM apply rest = some ((), links.reverse ++ rest) := by
  induction links generalizing rest with
  | nil => rfl
  | cons link links ih => simpa [forM_cons, apply] using ih (link :: rest)

theorem subset_of_undo (h : links.forM undo stack = some ((), after)) : after ⊆ stack := by
  induction links generalizing stack with
  | nil =>
    cases h
    exact List.Subset.refl _
  | cons link links ih =>
    rw [forM_cons] at h
    cases stack with
    | nil => cases h
    | cons top rest =>
      by_cases htop : top = link
      · simp only [undo, htop, if_true, Option.bind_some] at h
        exact List.subset_cons_of_subset _ (ih h)
      · simp [undo, htop] at h

end Follower

def Delta.follow (d : Delta) : Follower Unit :=
  d.replay Follower.undo Follower.apply

theorem Delta.follow_eq (d : Delta) (stack : List Link) :
    d.follow stack = (d.undo.forM Follower.undo stack).bind fun r =>
      some ((), d.apply.reverse ++ r.2) := by
  change (d.undo.forM Follower.undo stack).bind (fun r => d.apply.forM Follower.apply r.2) = _
  simp only [Follower.apply_all]

/-- On a stack with the tip on top, the links turn one path into the other. -/
def Delta.Turns (d : Delta) (before after : List Link) : Prop :=
  d.follow before.reverse = some ((), after.reverse)

theorem Delta.subset_of_follow {d : Delta} {stack after : List Link}
    (h : d.follow stack = some ((), after)) : ∀ l ∈ after, l ∈ d.apply ∨ l ∈ stack := by
  rw [follow_eq] at h
  obtain ⟨⟨⟨⟩, rest⟩, hundo, happly⟩ := Option.bind_eq_some_iff.mp h
  obtain ⟨-, rfl⟩ := Prod.mk.inj (Option.some.inj happly)
  intro l hl
  rcases List.mem_append.mp hl with hl | hl
  · exact .inl (List.mem_reverse.mp hl)
  · exact .inr (Follower.subset_of_undo hundo hl)

namespace Arena

variable {a : Arena} {l m : Link} {path upper rest : List Link}

theorem Lineage.suffix (h : a.Lineage l path) (he : path = upper ++ m :: rest) :
    a.Lineage m (m :: rest) := by
  induction h generalizing upper with
  | root hl hz hs =>
    cases upper with
    | nil =>
      obtain ⟨rfl, rfl⟩ := List.cons.inj he
      exact .root hl hz hs
    | cons k upper => simp at he
  | child hl hz habove hpath ih =>
    cases upper with
    | nil =>
      obtain ⟨rfl, rfl⟩ := List.cons.inj he
      exact .child hl hz habove hpath
    | cons k upper => exact ih (List.cons.inj he).2

theorem Lineage.eq_of_height (h : a.Lineage l path) (hm : m ∈ path)
    (hheight : m.height? = l.height?) : m = l := by
  cases h with
  | root => simpa using hm
  | child hl hz habove hpath =>
    rcases List.mem_cons.mp hm with he | hm
    · exact he
    · obtain ⟨n, w, own, hp, -, hs⟩ := habove.status_eq
      obtain ⟨k, v, hms, hle⟩ := hpath.height_le hp m hm
      simp only [Link.height?, LinkStatus.height?, hs, hms, Option.some.injEq] at hheight
      omega

/-- Only the last link of a path to the root is the genesis link. -/
theorem Lineage.isGenesis_iff (h : a.Lineage l path) (he : path = upper ++ m :: rest) :
    m.isGenesis ↔ rest = [] := by
  have hbelow := h.suffix he
  cases hbelow with
  | root hl hz hs => simpa using Link.isGenesis_iff.mpr ⟨0, hs⟩
  | child hl hz habove hpath =>
    obtain ⟨rest', rfl⟩ := hpath.head_eq
    simp [habove.isGenesis]

end Arena

/-- A link on both paths that no other link on both is above. -/
structure Link.Highest (l : Link) (before after : List Link) : Prop where
  mem_before : l ∈ before
  mem_after : l ∈ after
  highest : ∀ m ∈ before, m ∈ after → ∃ low high : Nat,
    m.height? = some low ∧ l.height? = some high ∧ low ≤ high

theorem Link.Highest.reverse {l : Link} {before after : List Link} (h : l.Highest before after) :
    l.Highest before.reverse after.reverse where
  mem_before := List.mem_reverse.mpr h.mem_before
  mem_after := List.mem_reverse.mpr h.mem_after
  highest m hm hm' := h.highest m (List.mem_reverse.mp hm) (List.mem_reverse.mp hm')

theorem Link.Highest.height_eq {l m : Link} {before after : List Link}
    (h : l.Highest before after) (h' : m.Highest before after) : l.height? = m.height? := by
  obtain ⟨low, high, hm, hl, hle⟩ := h.highest m h'.mem_before h'.mem_after
  obtain ⟨low', high', hl', hm', hle'⟩ := h'.highest l h.mem_before h.mem_after
  rw [hl, Option.some.injEq] at hl'
  rw [hm, Option.some.injEq] at hm'
  rw [hl, hm, Nat.le_antisymm hle (by omega)]

namespace Delta.Parts

variable {a : Arena} {d : Delta} {old new : Link} {oldPath newPath : List Link}

theorem follow (h : d.Parts [] [] oldPath newPath) : d.follow oldPath = some ((), newPath) := by
  obtain ⟨du, da, rest, hold, hnew, hundo, happly, -⟩ := h
  rw [follow_eq, hundo, happly, hold, hnew]
  simp [Follower.undo_all]

theorem below_ancestor (h : d.Parts [] [] oldPath newPath) {l : Link} (hl : l ∈ oldPath)
    (hl' : l ∈ newPath) :
    ∃ upper rest, oldPath = upper ++ d.ancestor :: rest ∧ l ∈ d.ancestor :: rest := by
  obtain ⟨du, da, rest, hodu, hnda, -, -, hapart⟩ := h
  refine ⟨du, rest, hodu, ?_⟩
  by_contra hnot
  have hdu : l ∈ du := by
    rw [hodu, List.mem_append] at hl
    exact hl.resolve_right hnot
  have hda : l ∈ da := by
    rw [hnda, List.mem_append] at hl'
    exact hl'.resolve_right hnot
  exact hapart l hdu hda

section Lineages

variable (h : d.Parts [] [] oldPath newPath) (hold : a.Lineage old oldPath)

include h hold

theorem highest : d.ancestor.Highest oldPath newPath := by
  obtain ⟨du, da, rest, hodu, hnda, -, -, -⟩ := id h
  refine ⟨by simp [hodu], by simp [hnda], fun m hm hm' => ?_⟩
  obtain ⟨upper, rest, he, hmem⟩ := h.below_ancestor hm hm'
  have hbelow := hold.suffix he
  obtain ⟨high, w, hs⟩ := Link.isResolved_iff.mp hbelow.isResolved
  obtain ⟨low, v, hms, hle⟩ := hbelow.height_le hs m hmem
  exact ⟨low, high, by simp [Link.height?, LinkStatus.height?, hms],
    by simp [Link.height?, LinkStatus.height?, hs], hle⟩

theorem ancestor_eq_iff : d.ancestor = old ↔ old ∈ newPath := by
  obtain ⟨oldRest, hhead⟩ := hold.head_eq
  constructor
  · intro he
    exact he ▸ (h.highest hold).mem_after
  · intro hmem
    obtain ⟨upper, rest, he, hbelow⟩ := h.below_ancestor (by simp [hhead]) hmem
    cases upper with
    | nil =>
      rw [hhead] at he
      exact (List.cons.inj he).1.symm
    | cons k upper =>
      have hnodup := hold.nodup
      rw [hhead, List.cons_append] at he
      obtain ⟨rfl, hrest⟩ := List.cons.inj he
      rw [hhead, hrest, List.nodup_cons] at hnodup
      exact absurd (List.mem_append_right _ hbelow) hnodup.1

theorem ancestor_unique {d' : Delta} (h' : d'.Parts [] [] oldPath newPath) :
    d.ancestor = d'.ancestor := by
  have hhighest := h'.highest hold
  obtain ⟨upper, rest, he, hmem⟩ := h.below_ancestor hhighest.mem_before hhighest.mem_after
  exact ((hold.suffix he).eq_of_height hmem (hhighest.height_eq (h.highest hold))).symm

end Lineages

/-- What is applied lies above the ancestor, so the genesis link is never among it. -/
theorem isGenesis_apply (h : d.Parts [] [] oldPath newPath) (hnew : a.Lineage new newPath) :
    ∀ l ∈ d.apply, l.isGenesis = false := by
  obtain ⟨du, da, rest, -, hnda, -, happly, -⟩ := h
  intro l hl
  have hda : l ∈ da := by simpa [happly] using hl
  obtain ⟨upper, more, rfl⟩ := List.append_of_mem hda
  have he : newPath = upper ++ l :: (more ++ d.ancestor :: rest) := by simp [hnda]
  apply Bool.eq_false_iff.mpr
  intro hg
  simpa using (hnew.isGenesis_iff he).mp hg

end Delta.Parts

end BlockTree
