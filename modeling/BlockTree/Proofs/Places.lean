import BlockTree.Proofs.Batches

/-! Places in the order of arrival. Whatever a call does to an arena, every hash keeps its
place, and a new one gets a place that none had before. -/

namespace BlockTree

/-- A link under the hash of its block, where `parent` tells the parents of all links. -/
structure Link.Placed (parent : Hash → Hash) (l : Link) : Prop where
  hash_eq : l.hash = l.block.hash
  parent_eq : l.parentHash = parent l.hash

theorem Link.Suits.placed {parent : Hash → Hash} {l : Link} (h : l.Suits parent) :
    l.Placed parent :=
  ⟨h.hash_eq, h.parent_eq⟩

theorem Link.Placed.withSeq {parent : Hash → Hash} {l : Link} (h : l.Placed parent) (seq : Nat) :
    (l.withSeq seq).Placed parent :=
  ⟨h.hash_eq, h.parent_eq⟩

/-- What comes of a batch comes of one of its records. -/
theorem exists_of_mapM {plan : Link → Except Error (Option Link)} {us : List Link}
    {planned : List (Option Link)} (h : us.mapM plan = .ok planned) :
    ∀ v ∈ planned.filterMap id, ∃ u ∈ us, plan u = .ok (some v) := by
  induction us generalizing planned with
  | nil =>
    obtain rfl : [] = planned := Except.ok.inj h
    simp
  | cons u us ih =>
    rw [List.mapM_cons] at h
    obtain ⟨v?, hp, h⟩ := exists_of_bind h
    obtain ⟨rest, hm, h⟩ := exists_of_bind h
    obtain rfl : v? :: rest = planned := Except.ok.inj h
    intro v hv
    obtain ⟨w?, hw, hwv⟩ := List.mem_filterMap.mp hv
    obtain rfl : w? = some v := hwv
    rcases List.mem_cons.mp hw with hw | hw
    · exact ⟨u, List.mem_cons_self, hw ▸ hp⟩
    · obtain ⟨w, hw, hwp⟩ := ih hm v (List.mem_filterMap.mpr ⟨_, hw, rfl⟩)
      exact ⟨w, List.mem_cons_of_mem _ hw, hwp⟩

/-- The place that a call gave out. -/
def Call.places : {α : Type} → Call α → Except Error α → List Nat
  | _, .addLink _, .ok stored => [stored.seq]
  | _, .addAndPromote .., .ok stored => [stored.seq]
  | _, _, _ => []

/-- A hash with its place. -/
def Link.tag (l : Link) : Hash × Nat :=
  (l.hash, l.seq)

/-- What an answer says of the tags: a new link comes last, an orphan that was removed is
gone, and all else stays. -/
def Call.retag : {α : Type} → Call α → Except Error α → List (Hash × Nat) → List (Hash × Nat)
  | _, .addLink link, .ok stored, tags => tags ++ [(link.hash, stored.seq)]
  | _, .addAndPromote link _, .ok stored, tags => tags ++ [(link.hash, stored.seq)]
  | _, .removeOrphan hash, .ok _, tags => tags.filter fun t => t.1 ≠ hash
  | _, _, _, tags => tags

theorem Call.places_error {α : Type} {c : Call α} {e : Error} : c.places (.error e) = [] := by
  cases c <;> rfl

theorem Call.retag_error {α : Type} {c : Call α} {e : Error} {tags : List (Hash × Nat)} :
    c.retag (.error e) tags = tags := by
  cases c <;> rfl

namespace Arena

structure Lined (parent : Hash → Hash) (a : Arena) : Prop where
  ordered : a.Ordered
  parents : ∀ l ∈ a.links, l.parentHash = parent l.hash

def tags (a : Arena) : List (Hash × Nat) :=
  a.links.map Link.tag

/-- What became of an arena while places were given out. -/
structure Advances (parent : Hash → Hash) (a : Arena) (places : List Nat)
    (tags : List (Hash × Nat)) (b : Arena) : Prop where
  lined : b.Lined parent
  places_eq : places = List.range' a.nextSeq places.length
  nextSeq_eq : b.nextSeq = a.nextSeq + places.length
  tags_eq : b.tags = tags

variable {parent : Hash → Hash} {a b c : Arena} {link u v l : Link} {us promoted vs : List Link}
  {hash : Hash}

theorem lined_empty : Lined parent {} :=
  ⟨ordered_empty, by simp⟩

theorem Kept.lined (h : a.Kept parent) : a.Lined parent :=
  ⟨h.ordered, h.parents⟩

theorem mem_tags {n : Nat} : (hash, n) ∈ a.tags ↔ ∃ l ∈ a.links, l.hash = hash ∧ l.seq = n := by
  simp [tags, Link.tag]

theorem tags_replace (ho : a.Ordered) (h : a.Renews u) : (a.replace u).tags = a.tags := by
  unfold tags Link.tag
  rw [← List.zip_map', ← List.zip_map', map_hash_replace, map_seq_replace ho h]

theorem tags_file_nil : (a.file link []).tags = a.tags ++ [(link.hash, a.nextSeq)] := by
  simp [tags, Link.tag, links_file_nil]

theorem tags_drop : (a.drop [hash]).tags = a.tags.filter fun t => t.1 ≠ hash := by
  rw [tags, tags, List.filter_map]
  refine congrArg (List.map Link.tag) (List.filter_congr fun l _ => ?_)
  exact decide_eq_decide.mpr (not_congr List.mem_singleton)

namespace Lined

variable (ha : a.Lined parent)

include ha

theorem renews (hu : u.Placed parent) (h : (u.hash, u.seq) ∈ a.tags) : a.Renews u := by
  obtain ⟨o, hmem, hhash, hseq⟩ := mem_tags.mp h
  exact ⟨o, hmem, hhash, by rw [ha.parents o hmem, hhash, hu.parent_eq], hseq⟩

theorem replace (hu : u.Placed parent) (h : (u.hash, u.seq) ∈ a.tags) :
    (a.replace u).Lined parent := by
  have hrenews := ha.renews hu h
  refine ⟨ha.ordered.renew hrenews hu.hash_eq, fun l hl => ?_⟩
  rcases (mem_replace hrenews).mp hl with rfl | ⟨hl, -⟩
  · exact hu.parent_eq
  · exact ha.parents l hl

theorem foldl_replace (hus : ∀ u ∈ us, u.Placed parent ∧ (u.hash, u.seq) ∈ a.tags) :
    (us.foldl Arena.replace a).Lined parent ∧ (us.foldl Arena.replace a).tags = a.tags := by
  induction us generalizing a with
  | nil => exact ⟨ha, rfl⟩
  | cons u us ih =>
    obtain ⟨hu, htag⟩ := hus u List.mem_cons_self
    have hsame := tags_replace ha.ordered (ha.renews hu htag)
    obtain ⟨hlined, htags⟩ := ih (ha.replace hu htag) fun v hv => by
      rw [hsame]
      exact hus v (List.mem_cons_of_mem _ hv)
    exact ⟨hlined, htags.trans hsame⟩

omit ha in
theorem tag_planned (h : a.planUpdate u = .ok (some v)) : (v.hash, v.seq) ∈ a.tags := by
  obtain ⟨-, o, hmem, -, hhash, rfl⟩ := planUpdate_eq_some h
  exact mem_tags.mpr ⟨o, hmem, hhash, rfl⟩

omit ha in
theorem placed_planned (hu : u.Placed parent) (h : a.planUpdate u = .ok (some v)) :
    v.Placed parent := by
  obtain ⟨-, o, -, -, -, rfl⟩ := planUpdate_eq_some h
  exact hu.withSeq o.seq

omit ha in
/-- What was planned for a batch still has its place after the new link came in. -/
theorem planned_file {planned : List (Option Link)} (hus : ∀ u ∈ us, u.Placed parent)
    (h : us.mapM a.planUpdate = .ok planned) :
    ∀ v ∈ planned.filterMap id, v.Placed parent ∧ (v.hash, v.seq) ∈ (a.file link []).tags := by
  intro v hv
  obtain ⟨u, hu, hp⟩ := exists_of_mapM h v hv
  rw [tags_file_nil]
  exact ⟨placed_planned (hus u hu) hp, List.mem_append_left _ (tag_planned hp)⟩

theorem planned {v? : Option Link} (hu : u.Placed parent) (h : a.planUpdate u = .ok v?) :
    (v?.elim a a.replace).Lined parent ∧ (v?.elim a a.replace).tags = a.tags := by
  cases v? with
  | none => exact ⟨ha, rfl⟩
  | some v =>
    have hv := placed_planned hu h
    have htag := tag_planned h
    exact ⟨ha.replace hv htag, tags_replace ha.ordered (ha.renews hv htag)⟩

theorem file (hl : link.Placed parent) (hfresh : a.find? link.hash = none) :
    (a.file link []).Lined parent := by
  refine ⟨(ha.ordered.push hfresh hl.hash_eq).noticeResolved, fun m hm => ?_⟩
  rw [links_file_nil] at hm
  rcases List.mem_append.mp hm with hm | hm
  · exact ha.parents m hm
  · rw [List.mem_singleton.mp hm]
    exact hl.parent_eq

theorem amendInTurn (hus : ∀ u ∈ us, u.Placed parent)
    (h : amendInTurn us a = .ok (vs, b)) : b.Lined parent ∧ b.tags = a.tags := by
  induction us generalizing a vs with
  | nil =>
    obtain ⟨-, rfl⟩ := Prod.mk.inj (Except.ok.inj h)
    exact ⟨ha, rfl⟩
  | cons u us ih =>
    obtain ⟨v?, rest, hp, hrest, -⟩ := amendInTurn_cons h
    obtain ⟨hlined, htags⟩ := ha.planned (hus u List.mem_cons_self) hp
    obtain ⟨hb, hbtags⟩ := ih hlined (fun v hv => hus v (List.mem_cons_of_mem _ hv)) hrest
    exact ⟨hb, hbtags.trans htags⟩

end Lined

namespace Advances

variable {tags : List (Hash × Nat)}

theorem of_tags (hb : b.Lined parent) (htags : b.tags = tags) (hseq : b.nextSeq = a.nextSeq) :
    a.Advances parent [] tags b :=
  ⟨hb, rfl, hseq, htags⟩

theorem of_eq (ha : a.Lined parent) (he : b = a) : a.Advances parent [] a.tags b := by
  rw [he]
  exact of_tags ha rfl rfl

theorem of_append (hb : b.Lined parent) (htags : b.tags = a.tags ++ [(hash, a.nextSeq)])
    (hseq : b.nextSeq = a.nextSeq + 1) :
    a.Advances parent [a.nextSeq] (a.tags ++ [(hash, a.nextSeq)]) b :=
  ⟨hb, rfl, hseq, htags⟩

theorem attempt {α : Type} (call : Call α) (change : Arena → Except Error (α × Arena))
    (ha : a.Lined parent) (hok : ∀ v b, change a = .ok (v, b) →
      a.Advances parent (call.places (.ok v)) (call.retag (.ok v) a.tags) b) :
    a.Advances parent (call.places (said (attempt change a)))
      (call.retag (said (attempt change a)) a.tags) (left (attempt change a)) := by
  unfold Arena.attempt
  cases hc : change a with
  | error e =>
    change a.Advances parent (call.places (.error e)) (call.retag (.error e) a.tags) a
    rw [Call.places_error, Call.retag_error]
    exact of_eq ha rfl
  | ok p => exact hok p.1 p.2 hc

end Advances

theorem Lined.insertAndPromote (ha : a.Lined parent) (hl : link.Placed parent)
    (hus : ∀ u ∈ promoted, u.Placed parent)
    (h : a.insertAndPromote link promoted = .ok (l, b)) :
    a.Advances parent [l.seq] (a.tags ++ [(link.hash, l.seq)]) b := by
  unfold Arena.insertAndPromote at h
  obtain ⟨planned, hm, h⟩ := exists_of_bind h
  obtain ⟨p, hi, h⟩ := exists_of_bind h
  obtain ⟨hfresh, -, rfl⟩ := insert_eq_ok hi
  obtain ⟨rfl, rfl⟩ := Prod.mk.inj (Except.ok.inj h)
  obtain ⟨hlined, htags⟩ := (ha.file hl hfresh).foldl_replace (planned_file hus hm)
  exact .of_append hlined (htags.trans tags_file_nil) (by simp)

theorem Lined.insertInTurn (ha : a.Lined parent) (hl : link.Placed parent)
    (hus : ∀ u ∈ promoted, u.Placed parent)
    (h : a.insertInTurn link promoted = .ok ((l, vs), b)) :
    a.Advances parent [l.seq] (a.tags ++ [(link.hash, l.seq)]) b := by
  obtain ⟨c, hi, hr⟩ := insertInTurn_eq_ok h
  obtain ⟨hfresh, -, hp⟩ := insert_eq_ok hi
  obtain ⟨rfl, rfl⟩ := Prod.mk.inj hp
  obtain ⟨hlined, htags⟩ := (ha.file hl hfresh).amendInTurn hus hr
  refine .of_append hlined (htags.trans tags_file_nil) ?_
  rw [(map_hash_amendInTurn hr).2, nextSeq_file]

section Answers

variable {α : Type} {call : Call α} (ha : a.Lined parent)
  (hcall : ∀ l ∈ call.links, l.Placed parent)

include ha hcall

/-- A batch made at once gives out places as one does that is made record by record. -/
theorem Lined.answer : a.Advances parent (call.places (said (answer call a)))
    (call.retag (said (answer call a)) a.tags) (left (answer call a)) := by
  cases call with
  | addLink link =>
    refine .attempt (.addLink link) (fun a => a.insert link) ha fun v b h => ?_
    obtain ⟨hfresh, -, hp⟩ := insert_eq_ok h
    obtain ⟨rfl, rfl⟩ := Prod.mk.inj hp
    have hlined := ha.file (hcall link List.mem_cons_self) hfresh
    exact .of_append hlined tags_file_nil nextSeq_file
  | updateLink link =>
    refine .attempt (.updateLink link) (fun a => a.update link) ha fun v b h => ?_
    obtain ⟨v?, hp, rfl⟩ := update_eq_ok h
    obtain ⟨hlined, htags⟩ := ha.planned (hcall link List.mem_cons_self) hp
    refine .of_tags hlined htags ?_
    cases v? <;> simp
  | addAndPromote link promoted =>
    refine .attempt (.addAndPromote link promoted) (fun a => a.insertAndPromote link promoted) ha
      fun v b h => ?_
    exact ha.insertAndPromote (hcall link List.mem_cons_self)
      (fun u hu => hcall u (List.mem_cons_of_mem _ hu)) h
  | removeOrphan hash =>
    refine .attempt (.removeOrphan hash) (fun a => a.removeOrphan hash) ha fun v b h => ?_
    obtain ⟨l, -, -, hp⟩ := removeOrphan_eq_ok h
    obtain ⟨-, rfl⟩ := Prod.mk.inj hp
    have hlined : (a.drop [hash]).Lined parent :=
      ⟨ha.ordered.drop _, fun m hm => ha.parents m (mem_drop.mp hm).1⟩
    exact .of_tags hlined tags_drop rfl
  | _ => exact .of_eq ha rfl

theorem Lined.answerInTurn : a.Advances parent (call.places (said (answerInTurn call a)))
    (call.retag (said (answerInTurn call a)) a.tags) (left (answerInTurn call a)) := by
  cases call with
  | addAndPromote link promoted =>
    refine .attempt (.addAndPromote link promoted)
      (fun a => (a.insertInTurn link promoted).map fun p => (p.1.1, p.2)) ha fun v b h => ?_
    cases hturn : a.insertInTurn link promoted with
    | error e => simp [hturn, Except.map] at h
    | ok q =>
      simp only [hturn, Except.map] at h
      obtain ⟨rfl, rfl⟩ := Prod.mk.inj (Except.ok.inj h)
      exact ha.insertInTurn (hcall link List.mem_cons_self)
        (fun u hu => hcall u (List.mem_cons_of_mem _ hu)) hturn
  | _ => exact ha.answer hcall

end Answers

end Arena

end BlockTree
