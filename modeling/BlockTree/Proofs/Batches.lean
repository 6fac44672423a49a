import BlockTree.Proofs.Shelving

/-! Batches of records. An arena plans a whole batch before it changes anything, and trees
take in one record after another. Unless the records of a batch get in each other's way,
this comes to the same. -/

namespace BlockTree

/-- A link that can be stored where `parent` tells the parents of all links. -/
structure Link.Suits (parent : Hash → Hash) (l : Link) : Prop where
  hash_eq : l.hash = l.block.hash
  parent_eq : l.parentHash = parent l.hash
  writable : ∀ n < 2 ^ 64, (l.withSeq n).Writable

/-- The links that a call brings in. -/
def Call.links : {α : Type} → Call α → List Link
  | _, .addLink link | _, .updateLink link => [link]
  | _, .addAndPromote link promoted => link :: promoted
  | _, _ => []

section Results

variable {σ α : Type}

/-- What a call says, without the store that it leaves. -/
def said : EStateM.Result Error σ α → Except Error α
  | .ok v _ => .ok v
  | .error e _ => .error e

def left : EStateM.Result Error σ α → σ
  | .ok _ s => s
  | .error _ s => s

theorem eq_ok_of_said {r : EStateM.Result Error σ α} {v : α} (h : said r = .ok v) :
    r = .ok v (left r) := by
  cases r with
  | error e s => cases h
  | ok w s =>
    rw [Except.ok.inj h]
    rfl

theorem exists_of_map_said {β : Type} {r : EStateM.Result Error σ α} {f : α → β} {w : β}
    (h : (said r).map f = .ok w) : ∃ v, r = .ok v (left r) ∧ f v = w := by
  cases r with
  | error e s => cases h
  | ok v s => exact ⟨v, rfl, Except.ok.inj h⟩

end Results

namespace Arena

structure Kept (parent : Hash → Hash) (a : Arena) : Prop where
  ordered : a.Ordered
  pointed : a.Pointed
  parents : ∀ l ∈ a.links, l.parentHash = parent l.hash

/-- The records of a batch in place of those of orphans, one after another. -/
def amendInTurn : List Link → Arena → Except Error (List Link × Arena)
  | [], a => .ok ([], a)
  | u :: us, a => do
    let updated? ← a.planUpdate u
    let (updated, a) ← amendInTurn us (updated?.elim a a.replace)
    return (updated?.toList ++ updated, a)

def insertInTurn (a : Arena) (link : Link) (promoted : List Link) :
    Except Error ((Link × List Link) × Arena) := do
  let (stored, a) ← a.insert link
  let (updated, a) ← amendInTurn promoted a
  return ((stored, updated), a)

/-- Answers as a store does that makes batches one record after another. -/
def answerInTurn {α : Type} : Call α → StoreM Arena α
  | .addAndPromote link promoted =>
    attempt fun a => (a.insertInTurn link promoted).map fun p => (p.1.1, p.2)
  | call => answer call

variable {parent : Hash → Hash} {a b c : Arena} {link u v l : Link} {v? : Option Link}
  {us vs promoted : List Link} {hash : Hash}

theorem kept_empty : Kept parent {} :=
  ⟨ordered_empty, pointed_empty, by simp⟩

theorem links_file_nil : (a.file link []).links = a.links ++ [link.withSeq a.nextSeq] := by
  simp [file, push]

theorem insert_eq_ok {p : Link × Arena} (h : a.insert link = .ok p) :
    a.find? link.hash = none ∧ a.checkGenesis link = .ok () ∧
      p = (link.withSeq a.nextSeq, a.file link []) := by
  cases hf : a.find? link.hash with
  | some known => simp [insert, hf, bind, Except.bind] at h
  | none =>
    rw [insert_eq hf] at h
    cases hc : a.checkGenesis link with
    | error e => simp [hc, Except.map] at h
    | ok _ =>
      rw [hc] at h
      exact ⟨rfl, rfl, (Except.ok.inj h).symm⟩

theorem find?_of_planUpdate (h : a.planUpdate u = .ok (some v)) :
    a.checkGenesis u = .ok () ∧
      ∃ o, a.find? u.hash = some o ∧ o.isOrphan ∧ v = u.withSeq o.seq := by
  unfold planUpdate at h
  cases hf : a.find? u.hash with
  | none => simp [hf] at h
  | some o =>
    by_cases hr : o.isResolved
    · simp [hf, hr] at h
    · have ho : o.isOrphan := by simpa [Link.isResolved] using hr
      cases hc : a.checkGenesis u with
      | error e => simp [hf, hr, hc] at h
      | ok _ =>
        simp only [hf, hr, hc] at h
        exact ⟨rfl, o, rfl, ho, (Option.some.inj (Except.ok.inj h)).symm⟩

theorem planUpdate_eq_some (h : a.planUpdate u = .ok (some v)) :
    a.checkGenesis u = .ok () ∧
      ∃ o ∈ a.links, o.isOrphan ∧ o.hash = u.hash ∧ v = u.withSeq o.seq := by
  obtain ⟨hc, o, hf, ho, hv⟩ := find?_of_planUpdate h
  obtain ⟨hmem, hh⟩ := mem_of_find? hf
  exact ⟨hc, o, hmem, ho, hh, hv⟩

theorem removeOrphan_eq_ok {p : Link × Arena} (h : a.removeOrphan hash = .ok p) :
    ∃ l, a.find? hash = some l ∧ l.isOrphan ∧ p = (l, a.drop [hash]) := by
  unfold removeOrphan at h
  cases hf : a.find? hash with
  | none => simp [hf] at h
  | some l =>
    by_cases hr : l.isResolved
    · simp [hf, hr] at h
    · simp only [hf, hr] at h
      refine ⟨l, rfl, by simpa [Link.isResolved] using hr, ?_⟩
      rw [← Except.ok.inj h]
      simp [drop]

theorem find?_replace_of_ne (hne : u.hash ≠ hash) : (a.replace u).find? hash = a.find? hash := by
  rw [find?, links_replace, List.find?_map, find?]
  have hsame : ((fun l : Link => l.hash == hash) ∘ fun l => if l.hash = u.hash then u else l) =
      fun l => l.hash == hash := by
    funext l
    by_cases he : l.hash = u.hash
    · simp [he]
    · simp [he]
  rw [hsame]
  cases hf : a.links.find? fun l => l.hash == hash with
  | none => rfl
  | some l =>
    have hl : l.hash = hash := by simpa using List.find?_some hf
    simp [hl, Ne.symm hne]

theorem genesis?_replace (hg : u.isGenesis = false) : (a.replace u).genesis? = a.genesis? := by
  unfold replace noticeResolved
  split
  · simp [notice, hg]
  · rfl

theorem find?_replace (hu : a.Renews u) : (a.replace u).find? hash =
    if u.hash = hash then some u else a.find? hash := by
  have hsame : (a.replace u).find? hash = (a.revise u).find? hash := by
    rw [find?, links_replace]
    rfl
  rw [hsame, find?_revise hu]

namespace Kept

variable (hk : a.Kept parent)

include hk

theorem amends (hu : u.Suits parent) (h : a.planUpdate u = .ok (some v)) :
    a.Amends v ∧ v.hash = v.block.hash := by
  obtain ⟨-, o, hmem, ho, hh, rfl⟩ := planUpdate_eq_some h
  refine ⟨⟨o, hmem, ho, hh, ?_, rfl⟩, hu.hash_eq⟩
  rw [hk.parents o hmem, hh, ← hu.parent_eq]
  rfl

theorem insert (hl : link.Suits parent) {p : Link × Arena} (h : a.insert link = .ok p) :
    p.2.Kept parent := by
  obtain ⟨hfresh, hcheck, rfl⟩ := insert_eq_ok h
  have hnew : ∀ m ∈ a.links, m.hash = link.hash → m.isOrphan :=
    fun m hm he => absurd he (find?_eq_none.mp hfresh m hm)
  have hfirst := hk.pointed.eq_none_of_checkGenesis hcheck hnew
  refine ⟨(hk.ordered.push hfresh hl.hash_eq).noticeResolved,
    hk.pointed.push hk.ordered hfresh hl.hash_eq hfirst, fun m hm => ?_⟩
  rw [links_file_nil] at hm
  rcases List.mem_append.mp hm with hm | hm
  · exact hk.parents m hm
  · rw [List.mem_singleton.mp hm]
    exact hl.parent_eq

/-- What is final stays, and what is new is there. -/
theorem find?_insert (hl : link.Suits parent) {p : Link × Arena} (h : a.insert link = .ok p) :
    (∀ {hash l}, a.find? hash = some l → p.2.find? hash = some l) ∧
      p.2.find? p.1.hash = some p.1 := by
  have hkept := hk.insert hl h
  obtain ⟨-, -, rfl⟩ := insert_eq_ok h
  refine ⟨fun hf => ?_, ?_⟩
  · obtain ⟨hmem, hh⟩ := mem_of_find? hf
    refine hh ▸ hkept.ordered.find?_mem ?_
    rw [links_file_nil]
    exact List.mem_append_left _ hmem
  · refine hkept.ordered.find?_mem ?_
    rw [links_file_nil]
    simp

theorem planned (hu : u.Suits parent) (h : a.planUpdate u = .ok v?) :
    (v?.elim a a.replace).Kept parent := by
  cases v? with
  | none => exact hk
  | some v =>
    obtain ⟨hamends, hhash⟩ := hk.amends hu h
    obtain ⟨hcheck, o, hmem, ho, hh, rfl⟩ := planUpdate_eq_some h
    have hfirst := hk.pointed.eq_none_of_checkGenesis hcheck fun m hm he => by
      rw [hk.ordered.eq_of_hash hm hmem (he.trans hh.symm)]
      exact ho
    refine ⟨hk.ordered.renew hamends.renews hhash, hk.pointed.amend hk.ordered hamends hhash hfirst,
      fun m hm => ?_⟩
    rcases (mem_replace hamends.renews).mp hm with rfl | ⟨hm, -⟩
    · exact hu.parent_eq
    · exact hk.parents m hm

theorem find?_planned (hu : u.Suits parent) (h : a.planUpdate u = .ok v?) :
    (∀ {hash l}, a.find? hash = some l → l.isResolved →
        (v?.elim a a.replace).find? hash = some l) ∧
      ∀ v ∈ v?.toList, (v?.elim a a.replace).find? v.hash = some v := by
  cases v? with
  | none => exact ⟨fun hf _ => hf, by simp⟩
  | some v =>
    obtain ⟨hamends, -⟩ := hk.amends hu h
    refine ⟨fun {hash l} hf hr => ?_, ?_⟩
    · refine (find?_replace hamends.renews).trans ?_
      obtain ⟨o, hmem, ho, hh, -⟩ := hamends
      rw [if_neg, hf]
      intro he
      obtain ⟨hl, hlh⟩ := mem_of_find? hf
      have hlo : l = o := hk.ordered.eq_of_hash hl hmem (hlh.trans (he.symm.trans hh.symm))
      rw [hlo] at hr
      simp [Link.isResolved, ho] at hr
    · intro w hw
      obtain rfl : w = v := by simpa using hw
      exact (find?_replace hamends.renews).trans (if_pos rfl)

end Kept

theorem amendInTurn_cons {q : List Link × Arena} (h : amendInTurn (u :: us) a = .ok q) :
    ∃ v? vs, a.planUpdate u = .ok v? ∧
      amendInTurn us (v?.elim a a.replace) = .ok (vs, q.2) ∧ q.1 = v?.toList ++ vs := by
  rw [amendInTurn] at h
  obtain ⟨v?, hp, h⟩ := exists_of_bind h
  obtain ⟨p, hrest, h⟩ := exists_of_bind h
  obtain rfl := Except.ok.inj h
  exact ⟨v?, p.1, hp, hrest, rfl⟩

theorem Kept.amendInTurn (hk : a.Kept parent) (hus : ∀ u ∈ us, u.Suits parent)
    (h : amendInTurn us a = .ok (vs, b)) : b.Kept parent ∧
      (∀ {hash l}, a.find? hash = some l → l.isResolved → b.find? hash = some l) ∧
      ∀ v ∈ vs, v.isResolved → b.find? v.hash = some v := by
  induction us generalizing a vs with
  | nil =>
    obtain ⟨rfl, rfl⟩ := Prod.mk.inj (Except.ok.inj h)
    exact ⟨hk, fun hf _ => hf, by simp⟩
  | cons u us ih =>
    obtain ⟨v?, rest, hp, hrest, rfl⟩ := amendInTurn_cons h
    have hu := hus u List.mem_cons_self
    obtain ⟨hkeep, hnew⟩ := hk.find?_planned hu hp
    obtain ⟨hkb, hkeep', hnew'⟩ :=
      ih (hk.planned hu hp) (fun v hv => hus v (List.mem_cons_of_mem _ hv)) hrest
    refine ⟨hkb, fun hf hr => hkeep' (hkeep hf hr) hr, fun v hv hr => ?_⟩
    rcases List.mem_append.mp hv with hv | hv
    · exact hkeep' (hnew v hv) hr
    · exact hnew' v hv hr

theorem insertInTurn_eq_ok (h : a.insertInTurn link promoted = .ok ((l, vs), b)) :
    ∃ c, a.insert link = .ok (l, c) ∧ amendInTurn promoted c = .ok (vs, b) := by
  unfold Arena.insertInTurn at h
  obtain ⟨p, hi, h⟩ := exists_of_bind h
  obtain ⟨q, hr, h⟩ := exists_of_bind h
  obtain ⟨he, rfl⟩ := Prod.mk.inj (Except.ok.inj h)
  obtain ⟨rfl, rfl⟩ := Prod.mk.inj he
  exact ⟨p.2, hi, hr⟩

theorem update_eq_ok {v : Unit} (h : a.update link = .ok (v, b)) :
    ∃ v?, a.planUpdate link = .ok v? ∧ b = v?.elim a a.replace := by
  unfold update at h
  obtain ⟨v?, hp, h⟩ := exists_of_bind h
  refine ⟨v?, hp, ?_⟩
  cases v? <;> exact (Prod.mk.inj (Except.ok.inj h)).2.symm

theorem Kept.insertInTurn (hk : a.Kept parent) (hl : link.Suits parent)
    (hus : ∀ u ∈ promoted, u.Suits parent)
    (h : a.insertInTurn link promoted = .ok ((l, vs), b)) : b.Kept parent ∧
      (∀ {hash m}, a.find? hash = some m → m.isResolved → b.find? hash = some m) ∧
      ∀ v ∈ vs ++ [l], v.isResolved → b.find? v.hash = some v := by
  obtain ⟨c, hi, hr⟩ := insertInTurn_eq_ok h
  obtain ⟨hold, hnew⟩ := hk.find?_insert hl hi
  obtain ⟨hkb, hkeep, hnew'⟩ := (hk.insert hl hi).amendInTurn hus hr
  refine ⟨hkb, fun hf hm => hkeep (hold hf) hm, fun v hv hm => ?_⟩
  rcases List.mem_append.mp hv with hv | hv
  · exact hnew' v hv hm
  · rw [List.mem_singleton] at hv
    exact hkeep (hv ▸ hnew) hm

theorem map_hash_amendInTurn (h : amendInTurn us a = .ok (vs, b)) :
    b.links.map Link.hash = a.links.map Link.hash ∧ b.nextSeq = a.nextSeq := by
  induction us generalizing a vs with
  | nil =>
    obtain ⟨-, rfl⟩ := Prod.mk.inj (Except.ok.inj h)
    exact ⟨rfl, rfl⟩
  | cons u us ih =>
    obtain ⟨v?, rest, -, hrest, -⟩ := amendInTurn_cons h
    obtain ⟨hhash, hseq⟩ := ih hrest
    cases v? with
    | none => exact ⟨hhash, hseq⟩
    | some v => exact ⟨hhash.trans map_hash_replace, hseq.trans nextSeq_replace⟩

theorem map_hash_insertInTurn (h : a.insertInTurn link promoted = .ok ((l, vs), b)) :
    b.links.map Link.hash = a.links.map Link.hash ++ [link.hash] ∧ b.nextSeq = a.nextSeq + 1 := by
  obtain ⟨p, hi, hr⟩ := insertInTurn_eq_ok h
  obtain ⟨hhash, hseq⟩ := map_hash_amendInTurn hr
  obtain ⟨-, -, hp⟩ := insert_eq_ok hi
  obtain ⟨rfl, rfl⟩ := Prod.mk.inj hp
  refine ⟨hhash.trans ?_, hseq.trans nextSeq_file⟩
  simp [links_file_nil]

/-- The arena left by a call that brought in so many links. -/
structure Follows (parent : Hash → Hash) (a : Arena) (brought : Nat) (b : Arena) : Prop where
  kept : b.Kept parent
  nextSeq_le : b.nextSeq ≤ a.nextSeq + brought

theorem attempt_induction {α : Type} {P : Arena → Prop}
    (change : Arena → Except Error (α × Arena)) (ha : P a)
    (hok : ∀ v b, change a = .ok (v, b) → P b) : P (left (attempt change a)) := by
  unfold Arena.attempt
  cases hc : change a with
  | error e => exact ha
  | ok p => exact hok p.1 p.2 hc

theorem Follows.attempt {α : Type} {brought : Nat} (change : Arena → Except Error (α × Arena))
    (hk : a.Kept parent)
    (hok : ∀ v b, change a = .ok (v, b) → a.Follows parent brought b) :
    a.Follows parent brought (left (attempt change a)) :=
  attempt_induction change ⟨hk, Nat.le_add_right _ _⟩ hok

theorem Kept.answerInTurn (hk : a.Kept parent) {α : Type} {call : Call α}
    (hsuits : ∀ l ∈ call.links, l.Suits parent) :
    a.Follows parent call.links.length (left (Arena.answerInTurn call a)) := by
  cases call with
  | addLink link =>
    refine Follows.attempt (fun a => a.insert link) hk fun v b h => ?_
    refine ⟨hk.insert (hsuits link List.mem_cons_self) h, ?_⟩
    obtain ⟨-, -, hp⟩ := insert_eq_ok h
    simp [(Prod.mk.inj hp).2, Call.links]
  | updateLink link =>
    refine Follows.attempt (fun a => a.update link) hk fun v b h => ?_
    obtain ⟨v?, hp, rfl⟩ := update_eq_ok h
    refine ⟨hk.planned (hsuits link List.mem_cons_self) hp, ?_⟩
    cases v? <;> simp [Call.links]
  | addAndPromote link promoted =>
    refine Follows.attempt (fun a =>
      (a.insertInTurn link promoted).map fun p => (p.1.1, p.2)) hk fun v b h => ?_
    cases hturn : a.insertInTurn link promoted with
    | error e => simp [hturn, Except.map] at h
    | ok q =>
      simp only [hturn, Except.map] at h
      obtain ⟨-, rfl⟩ := Prod.mk.inj (Except.ok.inj h)
      refine ⟨(hk.insertInTurn (hsuits link List.mem_cons_self)
        (fun u hu => hsuits u (List.mem_cons_of_mem _ hu)) hturn).1, ?_⟩
      simp [(map_hash_insertInTurn hturn).2, Call.links]
  | removeOrphan hash =>
    refine Follows.attempt (fun a => a.removeOrphan hash) hk fun v b h => ?_
    obtain ⟨l, hl, ho, hp⟩ := removeOrphan_eq_ok h
    obtain ⟨hmem, hh⟩ := mem_of_find? hl
    rw [(Prod.mk.inj hp).2]
    refine ⟨⟨hk.ordered.drop _, hk.pointed.drop fun m hm he => ?_,
      fun m hm => hk.parents m (mem_drop.mp hm).1⟩, Nat.le_add_right _ _⟩
    rw [hk.ordered.eq_of_hash hm hmem ((List.mem_singleton.mp he).trans hh.symm)]
    exact ho
  | _ => exact ⟨hk, Nat.le_add_right _ _⟩

/-- No two records of the batch concern one link or bring in a genesis link, and not both
the new link and one of the other records is at fault. -/
structure Tidy (a : Arena) (link : Link) (promoted : List Link) : Prop where
  nodup : ((link :: promoted).map Link.hash).Nodup
  single : (link :: promoted).Pairwise fun l m => ¬ (l.isGenesis ∧ m.isGenesis)
  fault : (∃ p, a.insert link = .ok p) ∨ ∃ planned, promoted.mapM a.planUpdate = .ok planned

theorem checkGenesis_congr (h : u.isGenesis → c.genesis? = a.genesis?) :
    c.checkGenesis u = a.checkGenesis u := by
  by_cases hg : u.isGenesis
  · unfold checkGenesis
    rw [h hg]
  · have hg : u.isGenesis = false := by simpa using hg
    rw [checkGenesis_of_not_isGenesis hg, checkGenesis_of_not_isGenesis hg]

theorem planUpdate_congr (hf : c.find? u.hash = a.find? u.hash)
    (hg : u.isGenesis → c.genesis? = a.genesis?) : c.planUpdate u = a.planUpdate u := by
  unfold planUpdate
  rw [hf, checkGenesis_congr hg]

/-- Records that do not concern each other are planned the same at any moment. -/
theorem amendInTurn_alongside (hf : ∀ u ∈ us, c.find? u.hash = a.find? u.hash)
    (hg : ∀ u ∈ us, u.isGenesis → c.genesis? = a.genesis?) (hnodup : (us.map Link.hash).Nodup)
    (hsingle : us.Pairwise fun l m => ¬ (l.isGenesis ∧ m.isGenesis)) :
    Alongside (fun q planned => q.2 = (planned.filterMap id).foldl replace c) (amendInTurn us c)
      (us.mapM a.planUpdate) := by
  induction us generalizing c with
  | nil => exact rfl
  | cons u us ih =>
    obtain ⟨hnot, hnodup⟩ := List.nodup_cons.mp hnodup
    obtain ⟨hapart, hsingle⟩ := List.pairwise_cons.mp hsingle
    have hsame : c.planUpdate u = a.planUpdate u :=
      planUpdate_congr (hf u List.mem_cons_self) (hg u List.mem_cons_self)
    rw [amendInTurn, List.mapM_cons, hsame]
    refine Alongside.refl.bind fun v? w? hp hvw => ?_
    subst hvw
    refine Alongside.bind (ih (fun w hw => ?_) (fun w hw hwg => ?_) hnodup hsingle) ?_
    · rw [← hf w (List.mem_cons_of_mem _ hw)]
      cases v? with
      | none => rfl
      | some v =>
        obtain ⟨-, o, -, -, -, rfl⟩ := planUpdate_eq_some hp
        refine find?_replace_of_ne fun he => hnot ?_
        exact List.mem_map.mpr ⟨w, hw, he.symm⟩
    · rw [← hg w (List.mem_cons_of_mem _ hw) hwg]
      cases v? with
      | none => rfl
      | some v =>
        obtain ⟨-, o, -, -, -, rfl⟩ := planUpdate_eq_some hp
        have hug : u.isGenesis = false := by
          apply Bool.eq_false_iff.mpr
          exact fun hug => hapart w hw ⟨hug, hwg⟩
        exact genesis?_replace hug
    · intro q planned _ hq
      cases v? <;> exact hq

/-- A tidy batch does the same as its records one after another. -/
theorem Tidy.eq_insertInTurn (h : a.Tidy link promoted) :
    a.insertAndPromote link promoted =
      (a.insertInTurn link promoted).map fun p => (p.1.1, p.2) := by
  obtain ⟨hnot, hnodup⟩ := List.nodup_cons.mp h.nodup
  obtain ⟨hapart, hsingle⟩ := List.pairwise_cons.mp h.single
  unfold Arena.insertAndPromote Arena.insertInTurn
  cases hi : a.insert link with
  | error e =>
    obtain ⟨p, hp⟩ | ⟨planned, hp⟩ := h.fault
    · rw [hi] at hp
      cases hp
    · rw [hp]
      rfl
  | ok p =>
    obtain ⟨hfresh, -, rfl⟩ := insert_eq_ok hi
    have hturn := amendInTurn_alongside (c := a.file link []) (a := a) ?_ ?_ hnodup hsingle
    · cases hm : promoted.mapM a.planUpdate with
      | error e =>
        rw [hm] at hturn
        simp [hturn.of_error, bind, Except.bind, Except.map]
      | ok planned =>
        rw [hm] at hturn
        obtain ⟨q, hq, hq'⟩ := hturn.of_ok
        simp [hq, hq', bind, Except.bind, Except.map, pure, Except.pure]
    · intro u hu
      have hne : link.hash ≠ u.hash := fun he => hnot (List.mem_map.mpr ⟨u, hu, he.symm⟩)
      have hpush : (a.file link []).find? u.hash = (a.push link).find? u.hash := by
        rw [find?, links_file_nil, find?, push]
      rw [hpush, find?_push hfresh, if_neg hne]
    · intro u hu hug
      have hlg : link.isGenesis = false := by
        apply Bool.eq_false_iff.mpr
        exact fun hlg => hapart u hu ⟨hlg, hug⟩
      unfold file noticeResolved
      split
      · simp [notice, hlg, push]
      · rfl

theorem Sound.kept (ha : a.Sound) :
    a.Kept fun hash => ((a.find? hash).map Link.parentHash).getD hash :=
  ⟨ha.ordered, ha.pointed, fun l hl => by simp [ha.ordered.find?_mem hl]⟩

/-- What comes in together has parents that agree with those of what is there. -/
theorem Files.exists_kept (h : a.Files link promoted) (ha : a.Sound) :
    ∃ parent, a.Kept parent ∧
      ∀ l ∈ link :: promoted, l.parentHash = parent l.hash ∧ l.hash = l.block.hash := by
  refine ⟨fun hash => if hash = link.hash then link.parentHash
    else ((a.find? hash).map Link.parentHash).getD hash,
    ⟨ha.ordered, ha.pointed, fun l hl => ?_⟩, ?_⟩
  · have hne : l.hash ≠ link.hash := find?_eq_none.mp h.fresh l hl
    simp [hne, ha.ordered.find?_mem hl]
  · intro l hl
    rcases List.mem_cons.mp hl with rfl | hl
    · exact ⟨by simp, h.hash_eq⟩
    · obtain ⟨o, hmem, -, hh, hb, -⟩ := h.replaces l hl
      have hne : l.hash ≠ link.hash := hh ▸ find?_eq_none.mp h.fresh o hmem
      have hfind : a.find? l.hash = some o := hh ▸ ha.ordered.find?_mem hmem
      refine ⟨by simp [hne, hfind, Link.parentHash, hb], ?_⟩
      rw [← hh, ← hb, ha.ordered.hash_eq o hmem]

/-- What an engine files at once is tidy. -/
theorem Files.tidy (h : a.Files link promoted) : a.Tidy link promoted where
  nodup := by
    refine List.nodup_cons.mpr ⟨fun hm => ?_, h.nodup⟩
    obtain ⟨u, hu, he⟩ := List.mem_map.mp hm
    obtain ⟨o, hmem, -, hh, -⟩ := h.replaces u hu
    exact find?_eq_none.mp h.fresh o hmem (hh.trans he)
  single := by
    refine List.pairwise_cons.mpr ⟨fun u hu hg => ?_, ?_⟩
    · rw [(h.lifted u hu).2] at hg
      exact absurd hg.2 (by simp)
    · refine List.pairwise_of_forall_mem_list fun u hu v hv hg => ?_
      rw [(h.lifted u hu).2] at hg
      exact absurd hg.1 (by simp)
  fault := .inl ⟨_, insert_of_fresh h.fresh h.checkGenesis⟩

end Arena

namespace Trees.Hold

variable {parent : Hash → Hash} {t : Trees} {a : Arena} {link : Link} {us promoted : List Link}

theorem amendInTurn (h : t.Hold a) (hk : a.Kept parent) (hus : ∀ u ∈ us, u.Suits parent) :
    Alongside Tracks (promoteAll us t) (Arena.amendInTurn us a) := by
  induction us generalizing t a with
  | nil => exact ⟨rfl, h⟩
  | cons u us ih =>
    have hu := hus u List.mem_cons_self
    have hparent : ∀ o ∈ a.links, o.hash = u.hash → o.parentHash = u.parentHash := by
      intro o ho he
      rw [hk.parents o ho, he, hu.parent_eq]
    refine (h.promote hk.ordered hparent hu.writable).bind fun p v? hp hpv => ?_
    obtain ⟨rfl, hhold⟩ := hpv
    refine (ih hhold (hk.planned hu hp) fun v hv => hus v (List.mem_cons_of_mem _ hv)).bind ?_
    intro q r _ hqr
    exact ⟨congrArg _ hqr.1, hqr.2⟩

theorem insertInTurn (h : t.Hold a) (hk : a.Kept parent) (hl : link.Suits parent)
    (hus : ∀ u ∈ promoted, u.Suits parent) (hlt : a.nextSeq + 1 < 2 ^ 64) :
    Alongside Tracks (t.insertAndPromote link promoted) (a.insertInTurn link promoted) := by
  refine (h.insert hk.ordered (hl.writable _ h.small) hlt).bind fun p q hq hpq => ?_
  refine (amendInTurn hpq.2 (hk.insert hl hq) hus).bind fun r r' _ hr => ?_
  exact ⟨Prod.ext hpq.1 hr.1, hr.2⟩

end Trees.Hold

end BlockTree
