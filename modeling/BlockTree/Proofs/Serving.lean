import BlockTree.Proofs.Agreement

/-! What a store is asked, one demand after another. Between two of them it may drift, and
what no call and no drift spoils is there at the end. A store of any kind comes to hold what
some arena holds, and gives out places as that arena does. -/

namespace BlockTree

namespace Demand

/-- The place that was given out with an answer. -/
def places : (r : Demand) → Except Error r.Answer → List Nat
  | call c, answer => c.places answer
  | _, _ => []

def assigned {σ : Type} [Store σ] (s : σ) (r : Demand) : List Nat :=
  r.places (r.reply s)

/-- What an answer says of the tags. -/
def retag : (r : Demand) → Except Error r.Answer → List (Hash × Nat) → List (Hash × Nat)
  | call c, answer, tags => c.retag answer tags
  | _, _, tags => tags

end Demand

/-- The demands are answered in turn, and the places are given out, from the first state on
to the last. -/
inductive Serves {σ : Type} [Medium σ] : σ → List Demand → List Nat → σ → Prop
  | done {s : σ} : Serves s [] [] s
  | next {s t : σ} {r : Demand} {rs : List Demand} {ns : List Nat} :
    Serves (r.after s) rs ns t → Serves s (r :: rs) (r.assigned s ++ ns) t
  | drift {s s' t : σ} {rs : List Demand} {ns : List Nat} :
    Medium.drifts s s' → Serves s' rs ns t → Serves s rs ns t

section Walks

variable {σ α β : Type} {P : σ → Prop} {s : σ}

theorem keeps_bind {act : StoreM σ α} {next : α → StoreM σ β} (hact : P (left (act s)))
    (hnext : ∀ v t, P t → P (left (next v t))) : P (left ((act >>= next) s)) := by
  simp only [bind, EStateM.bind]
  cases he : act s with
  | error e t =>
    rw [he] at hact
    exact hact
  | ok v t =>
    rw [he] at hact
    exact hnext v t hact

variable [Store σ] (hread : ∀ hash s, P s → P (left (Store.answer (.getLink hash) s)))

include hread

theorem keeps_parentOf (hs : P s) (l : Link) : P (left (parentOf l s)) := by
  unfold parentOf
  split
  · exact hs
  · exact hread l.parentHash s hs

theorem keeps_firstWithin (hs : P s) (wanted : Link → Bool) (steps : Nat) (l : Link) :
    P (left (firstWithin wanted steps l s)) := by
  induction steps generalizing s l with
  | zero => exact hs
  | succ steps ih =>
    rw [firstWithin]
    split
    · exact hs
    · refine keeps_bind (keeps_parentOf hread hs l) fun parent? t ht => ?_
      cases parent? with
      | none => exact ht
      | some parent => exact ih ht parent

end Walks

section Keeping

variable {σ : Type} {P : σ → Prop} {s t : σ} {r : Demand} {rs : List Demand} {ns : List Nat}

/-- What every call keeps is kept by walks too, which are made of lookups. -/
theorem Demand.keeps [Store σ] (hcall : ∀ {α : Type} (c : Call α), c.links ⊆ r.links →
    ∀ s, P s → P (left (Store.answer c s))) (hs : P s) : P (r.after s) := by
  have hread : ∀ hash s, P s → P (left (Store.answer (.getLink hash) s)) :=
    fun hash => hcall (.getLink hash) (List.nil_subset _)
  cases r with
  | call c => exact hcall c (List.Subset.refl _) s hs
  | parentOf link => exact keeps_parentOf hread hs link
  | claimedLink link input => exact keeps_firstWithin hread hs _ _ link
  | claimerLink link input => exact keeps_firstWithin hread hs _ _ link

theorem Serves.keeps [Medium σ] (h : Serves s rs ns t)
    (hcall : ∀ {α : Type} (c : Call α), c.links ⊆ rs.flatMap Demand.links →
      ∀ s, P s → P (left (Store.answer c s)))
    (hdrift : ∀ s s' : σ, P s → Medium.drifts s s' → P s') (hs : P s) : P t := by
  induction h with
  | done => exact hs
  | next _ ih =>
    refine ih (fun c hc => hcall c fun l hl => ?_) (Demand.keeps (fun c hc => ?_) hs)
    · exact List.mem_append_right _ (hc hl)
    · exact hcall c fun l hl => List.mem_append_left _ (hc hl)
  | drift hd _ ih => exact ih hcall (hdrift _ _ hs hd)

end Keeping

section Advancing

variable {parent : Hash → Hash} {a : Arena} {r : Demand}

theorem Demand.length_places_le (answer : Except Error r.Answer) :
    (r.places answer).length ≤ r.links.length := by
  cases r with
  | call c =>
    cases answer with
    | error e => cases c <;> exact Nat.zero_le _
    | ok v => cases c <;> first | exact Nat.zero_le _ | exact Nat.succ_le_succ (Nat.zero_le _)
  | _ => exact Nat.zero_le _

variable (ha : a.Lined parent) (hr : ∀ l ∈ r.links, l.Placed parent)

include ha hr

theorem Demand.advances :
    a.Advances parent (r.assigned a) (r.retag (r.reply a) a.tags) (r.after a) := by
  cases r with
  | call c => exact ha.answer hr
  | parentOf link => exact Arena.Advances.of_eq ha Arena.left_parentOf
  | claimedLink link input => exact Arena.Advances.of_eq ha Arena.left_firstWithin
  | claimerLink link input => exact Arena.Advances.of_eq ha Arena.left_firstWithin

theorem Demand.advances_inTurn : a.Advances parent (r.places (said (r.runInTurn a)))
    (r.retag (said (r.runInTurn a)) a.tags) (left (r.runInTurn a)) := by
  cases r with
  | call c => exact ha.answerInTurn hr
  | parentOf link => exact Arena.Advances.of_eq ha Arena.left_parentOf
  | claimedLink link input => exact Arena.Advances.of_eq ha Arena.left_firstWithin
  | claimerLink link input => exact Arena.Advances.of_eq ha Arena.left_firstWithin

end Advancing

namespace Pool.Holds

variable {parent : Hash → Hash} {p : Pool} {a : Arena} {r : Demand} {rs : List Demand} {l : Link}

theorem parentOf (h : p.Holds a) (l : Link) : BlockTree.parentOf l p = .ok (a.parent? l) p := by
  unfold BlockTree.parentOf Arena.parent?
  split
  · rfl
  · exact congrArg (EStateM.Result.ok · p) (h.find? l.parentHash)

theorem firstWithin (h : p.Holds a) (wanted : Link → Bool) (steps : Nat) (l : Link) :
    said (BlockTree.firstWithin wanted steps l p) = said (BlockTree.firstWithin wanted steps l a) ∧
      left (BlockTree.firstWithin wanted steps l p) = p := by
  induction steps generalizing l with
  | zero => exact ⟨rfl, rfl⟩
  | succ steps ih =>
    by_cases hw : wanted l
    · simp [BlockTree.firstWithin, hw, pure, EStateM.pure, said, left]
    · cases hp : a.parent? l with
      | none =>
        simp [BlockTree.firstWithin, hw, bind, EStateM.bind, h.parentOf, Arena.parentOf_eq, hp,
          pure, EStateM.pure, said, left]
      | some q =>
        simpa [BlockTree.firstWithin, hw, bind, EStateM.bind, h.parentOf, Arena.parentOf_eq, hp]
          using ih q

theorem firstOnBranch (h : p.Holds a) (wanted : Link → Bool) (l : Link) :
    said (BlockTree.firstOnBranch wanted l p) = said (BlockTree.firstOnBranch wanted l a) ∧
      left (BlockTree.firstOnBranch wanted l p) = p := by
  have hreach : Store.reach p = Store.reach a := h.size
  obtain ⟨hsaid, hleft⟩ := h.firstWithin wanted (Store.reach p + 1) l
  refine ⟨hsaid.trans ?_, hleft⟩
  rw [hreach]
  rfl

variable (h : p.Holds a) (ha : a.Lined parent)

include h ha

theorem demand (hr : ∀ l ∈ r.links, l.Placed parent) :
    r.reply p = r.reply a ∧ (r.after p).Holds (r.after a) := by
  have hsame {q : Pool} {b : Arena} (hq : q = p) (hb : b = a) : q.Holds b := by
    rwa [hq, hb]
  cases r with
  | call c => exact h.answer ha hr
  | parentOf link =>
    refine ⟨?_, hsame (congrArg left (h.parentOf link)) Arena.left_parentOf⟩
    exact (congrArg said (h.parentOf link)).trans (congrArg said Arena.parentOf_eq).symm
  | claimedLink link input =>
    obtain ⟨hsaid, hleft⟩ := h.firstOnBranch _ link
    exact ⟨hsaid, hsame hleft Arena.left_firstWithin⟩
  | claimerLink link input =>
    obtain ⟨hsaid, hleft⟩ := h.firstOnBranch _ link
    exact ⟨hsaid, hsame hleft Arena.left_firstWithin⟩

theorem agree (hrs : ∀ l ∈ rs.flatMap Demand.links, l.Placed parent) : Agree p a rs := by
  induction rs generalizing p a with
  | nil => trivial
  | cons r rs ih =>
    have hr : ∀ l ∈ r.links, l.Placed parent := fun l hl => hrs l (List.mem_append_left _ hl)
    obtain ⟨hsaid, hholds⟩ := h.demand ha hr
    refine ⟨congrArg (Except.mapError Error.kind) hsaid, ih hholds (Demand.advances ha hr).lined ?_⟩
    exact fun l hl => hrs l (List.mem_append_right _ hl)

end Pool.Holds

/-- An empty pool and an empty arena, asked the same, cannot be told apart. -/
theorem agree_of_storable {rs : List Demand} (h : Storable (rs.flatMap Demand.links)) :
    Agree ({} : Pool) ({} : Arena) rs := by
  obtain ⟨parent, hsuits⟩ := h.exists_suits
  exact Pool.holds_empty.agree Arena.lined_empty fun l hl => (hsuits l hl).placed

namespace Paired

variable {s : Shelf} {a : Arena} {r : Demand} {parent : Hash → Hash} {more : List Link} {α : Type}
  {c : Call α}

theorem reply_inTurn (h : Paired parent s a more) (hr : r.onlyReads) :
    r.reply s = said (r.runInTurn a) := by
  have hbeside : Paired parent s a (r.links ++ more) := by
    rwa [Demand.links_of_onlyReads hr]
  exact hbeside.inTurn.1

theorem reads (h : Paired parent s a more) (hc : c.onlyReads) :
    (Demand.call c).reply s = said (Arena.answer c a) := by
  refine (h.reply_inTurn (r := .call c) hc).trans ?_
  cases c with
  | addAndPromote => cases hc
  | _ => rfl

end Paired

/-- The arena that a store of any kind amounts to, with room for more links. -/
structure Tracked {b : Backing} (parent : Hash → Hash) (s : b.Contents) (a : Arena)
    (more : List Link) : Prop where
  holds : Faithful.holds s a
  lined : a.Lined parent
  pointed : b = .shelf → a.Pointed
  suits : ∀ l ∈ more, l.Suits parent
  count : a.nextSeq + more.length < 2 ^ 64

namespace Tracked

variable {b : Backing} {parent : Hash → Hash} {s t : b.Contents} {a a' : Arena} {r : Demand}
  {rs : List Demand} {ns : List Nat} {more : List Link}

theorem empty {links : List Link} (h : Storable links) (b : Backing) :
    ∃ parent, Tracked (b := b) parent Medium.empty {} links := by
  obtain ⟨parent, hsuits⟩ := h.exists_suits
  exact ⟨parent, Faithful.holds_empty, Arena.lined_empty, fun _ => Arena.pointed_empty, hsuits,
    by simpa using h.count⟩

theorem paired {s : Shelf} (h : Tracked (b := .shelf) parent s a more) : Paired parent s a more :=
  ⟨h.holds, ⟨h.lined.ordered, h.pointed rfl, h.lined.parents⟩, h.suits, h.count⟩

theorem of_paired {s : Shelf} (h : Paired parent s a more) :
    Tracked (b := .shelf) parent s a more :=
  ⟨h.holds, h.kept.lined, fun _ => h.kept.pointed, h.suits, h.count⟩

theorem next (h : Tracked parent s a (r.links ++ more)) {answer : Except Error r.Answer}
    (hsaid : r.reply s = answer) (hholds : Faithful.holds (r.after s) a')
    (hadvances : a.Advances parent (r.places answer) (r.retag answer a.tags) a')
    (hpointed : b = .shelf → a'.Pointed) :
    ∃ a', Tracked parent (r.after s) a' more ∧
      a.Advances parent (r.assigned s) (r.retag (r.reply s) a.tags) a' := by
  subst hsaid
  have hsuits : ∀ l ∈ more, l.Suits parent :=
    fun l hl => h.suits l (List.mem_append_right _ hl)
  refine ⟨a', ⟨hholds, hadvances.lined, hpointed, hsuits, ?_⟩, hadvances⟩
  have hcount := h.count
  have hplaces := Demand.length_places_le (r.reply s)
  rw [List.length_append] at hcount
  rw [hadvances.nextSeq_eq]
  omega

/-- A store of any kind does what an arena does, which on a shelf makes batches one record
after another. -/
theorem step (h : Tracked parent s a (r.links ++ more)) :
    ∃ a', Tracked parent (r.after s) a' more ∧
      a.Advances parent (r.assigned s) (r.retag (r.reply s) a.tags) a' := by
  have hplaced : ∀ l ∈ r.links, l.Placed parent :=
    fun l hl => (h.suits l (List.mem_append_left _ hl)).placed
  cases b with
  | arena =>
    obtain rfl : s = a := h.holds
    exact h.next rfl rfl (Demand.advances h.lined hplaced) (by simp)
  | pool =>
    have hholds : Pool.Holds s a := h.holds
    obtain ⟨hsaid, hafter⟩ := hholds.demand h.lined hplaced
    exact h.next hsaid hafter (Demand.advances h.lined hplaced) (by simp)
  | shelf =>
    obtain ⟨hsaid, hafter⟩ := h.paired.inTurn
    have hadvances := Demand.advances_inTurn h.lined hplaced
    exact h.next hsaid hafter.holds hadvances fun _ => hafter.kept.pointed

theorem run (h : Tracked parent s a (rs.flatMap Demand.links ++ more)) (hs : Serves s rs ns t) :
    ∃ a', Tracked parent t a' more ∧ ns = List.range' a.nextSeq ns.length ∧
      a'.nextSeq = a.nextSeq + ns.length := by
  induction hs generalizing a with
  | done => exact ⟨a, h, rfl, rfl⟩
  | @next s t r rs ns hs ih =>
    rw [List.flatMap_cons, List.append_assoc] at h
    obtain ⟨a', h', hadvances⟩ := h.step
    obtain ⟨c, hc, hns, hseq⟩ := ih h'
    refine ⟨c, hc, ?_, ?_⟩
    · rw [List.length_append, ← List.range'_append_1, ← hadvances.places_eq,
        ← hadvances.nextSeq_eq, ← hns]
    · rw [hseq, hadvances.nextSeq_eq, List.length_append, Nat.add_assoc]
  | drift hd _ ih =>
    exact ih ⟨Faithful.holds_drift h.holds hd, h.lined, h.pointed, h.suits, h.count⟩

theorem reply {α : Type} (h : Tracked parent s a more) {c : Call α} (hc : c.onlyReads) :
    (Demand.call c).reply s = said (Arena.answer c a) := by
  have hquiet : c.links = [] := Demand.links_of_onlyReads (r := .call c) hc
  cases b with
  | arena =>
    obtain rfl : s = a := h.holds
    rfl
  | pool =>
    have hholds : Pool.Holds s a := h.holds
    exact (hholds.answer h.lined (by simp [hquiet])).1
  | shelf => exact h.paired.reads hc

end Tracked

end BlockTree
