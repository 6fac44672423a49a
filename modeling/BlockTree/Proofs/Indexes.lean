import BlockTree.Proofs.Serving

/-! The indexes of a store. Children, orphans and their number are always those of the links
that are stored, and a new link gets a place beyond all the places given out before. -/

namespace BlockTree

/-- All that a store says of its links, in the order of their arrival. -/
structure Indexed {σ : Type} [Store σ] (s : σ) (stored : List Link) : Prop where
  nodup : (stored.map Link.hash).Nodup
  sorted : stored.Pairwise fun l m => l.seq < m.seq
  getLink : ∀ hash, (Demand.call (.getLink hash)).reply s =
    .ok (stored.find? fun l => l.hash == hash)
  nextLinks : ∀ hash, (Demand.call (.nextLinks hash)).reply s =
    .ok (stored.filter fun l => l.parentHash == hash)
  orphanLinks : (Demand.call .orphanLinks).reply s = .ok (stored.filter Link.isOrphan)
  linkCount : (Demand.call .linkCount).reply s = .ok stored.length

theorem Tracked.indexed {b : Backing} {parent : Hash → Hash} {s : b.Contents} {a : Arena}
    {more : List Link} (h : Tracked parent s a more) : Indexed s a.links where
  nodup := h.lined.ordered.nodup
  sorted := h.lined.ordered.sorted
  getLink _ := h.reply rfl
  nextLinks _ := h.reply rfl
  orphanLinks := h.reply rfl
  linkCount := h.reply rfl

/-- Whatever a store was asked, its indexes are those of its links, and the places that it
gave out go up. The answer to the next demand says which links come and go, and the others
keep their places. -/
theorem indexed_of_serves {b : Backing} {s : b.Contents} {rs : List Demand} {ns : List Nat}
    {r : Demand} (hs : Serves Medium.empty rs ns s)
    (h : Storable ((rs ++ [r]).flatMap Demand.links)) :
    ∃ stored stored', Indexed s stored ∧ Indexed (r.after s) stored' ∧
      (∀ l ∈ stored, l.seq ∈ ns) ∧ (ns ++ r.assigned s).Pairwise (· < ·) ∧
      stored'.map Link.tag = r.retag (r.reply s) (stored.map Link.tag) := by
  obtain ⟨parent, hempty⟩ := Tracked.empty h b
  rw [List.flatMap_append] at hempty
  obtain ⟨a, ha, hns, hseq⟩ := hempty.run hs
  rw [List.flatMap_singleton, ← List.append_nil r.links] at ha
  obtain ⟨a', ha', hadvances⟩ := ha.step
  refine ⟨a.links, a'.links, ha.indexed, ha'.indexed, fun l hl => ?_, ?_, hadvances.tags_eq⟩
  · have hlt : l.seq < 0 + ns.length := hseq ▸ ha.lined.ordered.seq_lt l hl
    rw [hns, List.mem_range'_1]
    exact ⟨Nat.zero_le _, hlt⟩
  · have hall : ns ++ r.assigned s = List.range' 0 (ns.length + (r.assigned s).length) := by
      rw [← List.range'_append_1, ← hns, ← hseq, ← hadvances.places_eq]
    rw [hall]
    exact List.pairwise_lt_range'

/-- Orphans that are as many as all links are all links. -/
theorem Indexed.eq_orphans {σ : Type} [Store σ] {s : σ} {stored orphans : List Link}
    (h : Indexed s stored) (horphans : (Demand.call .orphanLinks).reply s = .ok orphans)
    (hcount : (Demand.call .linkCount).reply s = .ok orphans.length) : stored = orphans := by
  have hfilter : stored.filter Link.isOrphan = orphans :=
    Except.ok.inj (h.orphanLinks.symm.trans horphans)
  have hlength : stored.length = orphans.length := Except.ok.inj (h.linkCount.symm.trans hcount)
  have hall : (stored.filter Link.isOrphan).length = stored.length := by rw [hfilter, hlength]
  exact (List.filter_eq_self.mpr (List.length_filter_eq_length_iff.mp hall)).symm.trans hfilter

theorem exists_serves {σ : Type} [Medium σ] (s : σ) (rs : List Demand) :
    ∃ ns, Serves s rs ns (rs.foldl (fun s r => r.after s) s) := by
  induction rs generalizing s with
  | nil => exact ⟨[], .done⟩
  | cons r rs ih =>
    obtain ⟨ns, hns⟩ := ih (r.after s)
    exact ⟨_, .next hns⟩

section Sessions

/-- Stands on the first block, as the second and its rival do. -/
def sibling : Block :=
  .easy Block.first.hash [.coinbase 4]

def came (block : Block) : Demand :=
  .call (.addLink (.orphan block))

/-- Three blocks came that wait for the first one, and the earliest of them is gone again. -/
def thinning : List Demand :=
  [came .second, came .rival, came sibling, .call (.removeOrphan Block.second.hash)]

def thinned : Shelf :=
  thinning.foldl (fun s r => r.after s) {}

def rivalPlaced : Link :=
  (Link.orphan .rival).withSeq 1

def siblingPlaced : Link :=
  (Link.orphan sibling).withSeq 2

/-- The second block when it came again. -/
def secondPlaced : Link :=
  (Link.orphan .second).withSeq 3

theorem thinned_computed :
    ([Block.second, .rival, sibling].map Block.hash).Nodup ∧
    (Demand.call .orphanLinks).reply thinned = .ok [rivalPlaced, siblingPlaced] ∧
    (Demand.call .linkCount).reply thinned = .ok 2 ∧
    (Demand.call .orphanLinks).reply ((came .second).after thinned) =
      .ok [rivalPlaced, siblingPlaced, secondPlaced] ∧
    (Demand.call .linkCount).reply ((came .second).after thinned) = .ok 3 := by
  decide +kernel

theorem storable_thinning :
    Storable ((thinning ++ [came .second]).flatMap Demand.links) := by
  have hlinks : (thinning ++ [came .second]).flatMap Demand.links =
      [.orphan .second, .orphan .rival, .orphan sibling, .orphan .second] := rfl
  rw [hlinks]
  refine storable_of_nodup thinned_computed.1 ?_ (by simp)
  simp only [List.forall_mem_cons, List.not_mem_nil, false_imp_iff, implies_true, and_true]
  refine ⟨⟨?_, _, .head _, _, rfl⟩, ⟨?_, _, .tail _ (.head _), _, rfl⟩,
    ⟨?_, _, .tail _ (.tail _ (.head _)), _, rfl⟩, ⟨?_, _, .head _, _, rfl⟩⟩ <;>
    exact Link.writable_make (Block.writable_easy _ _) (by simp)

/-- The block that came again is the last of its siblings. -/
theorem indexed_thinned : ∃ ns, Serves (Medium.empty : Shelf) thinning ns thinned ∧
    Indexed thinned [rivalPlaced, siblingPlaced] ∧
    Indexed ((came .second).after thinned) [rivalPlaced, siblingPlaced, secondPlaced] ∧
    (1 ∈ ns ∧ 2 ∈ ns) ∧ (ns ++ (came .second).assigned thinned).Pairwise (· < ·) ∧
    (Demand.call (.nextLinks Block.first.hash)).reply ((came .second).after thinned) =
      .ok [rivalPlaced, siblingPlaced, secondPlaced] ∧
    [rivalPlaced, siblingPlaced, secondPlaced].map Link.tag =
      (came .second).retag ((came .second).reply thinned)
        ([rivalPlaced, siblingPlaced].map Link.tag) := by
  obtain ⟨-, horphans, hcount, horphans', hcount'⟩ := thinned_computed
  obtain ⟨ns, hs⟩ := exists_serves (Medium.empty : Shelf) thinning
  have hparent : ∀ l ∈ [rivalPlaced, siblingPlaced, secondPlaced],
      l.parentHash = Block.first.hash := by
    simp only [List.forall_mem_cons, List.not_mem_nil, false_imp_iff, implies_true, and_true]
    exact ⟨rfl, rfl, rfl⟩
  obtain ⟨stored, stored', h, h', hseq, hup, htags⟩ := indexed_of_serves (b := .shelf) hs
    storable_thinning
  obtain rfl := h.eq_orphans horphans hcount
  obtain rfl := h'.eq_orphans horphans' hcount'
  have hkids := h'.nextLinks Block.first.hash
  rw [List.filter_eq_self.mpr fun l hl => beq_iff_eq.mpr (hparent l hl)] at hkids
  exact ⟨ns, hs, h, h', ⟨hseq _ (.head _), hseq _ (.tail _ (.head _))⟩, hup, hkids, htags⟩

end Sessions

end BlockTree
